import Simpletron.Proofs.Requests
import Simpletron.Terminal.Fuse
import Simpletron.Terminal.Script

/-! Raised flags. A flag that goes up while a call is served lets the instruction be completed, or
fail, as if nothing had happened; no instruction is begun after it. -/

namespace Simpletron

variable {τ : Type}

namespace Fuse

instance (priority := low) device [Device τ] : Device (Fuse τ) where
  read f := f.burn (Device.read f.terminal)
  write v f := f.burn (Device.write v f.terminal)

theorem device_eq [Terminal τ] : (device : Device (Fuse τ)) = instDeviceOfTerminal := rfl

theorem serve_eq [Device τ] (q : Request) (f : Fuse τ) :
    q.serve f = f.burn (q.serve f.terminal) := by
  cases q <;> rfl

end Fuse

namespace Machine

variable [Device τ] {m : Machine} {t : τ} {n : Nat}

theorem step_fuse (m : Machine) (f : Fuse τ) :
    m.step f = ⟨(m.step f.terminal).result,
      (m.step f.terminal).machine.flag
        ((m.step f.terminal).machine.interrupt || decide (0 < m.requests ∧ f.left = 1)),
      ⟨(m.step f.terminal).terminal, f.left - m.requests⟩⟩ := by
  unfold requests
  cases hq : m.request? with
  | none =>
    obtain ⟨r, n, hstep⟩ := silent_of_request? hq
    rw [hstep, hstep]
    simp [flag]
  | some q =>
    obtain ⟨k, hstep⟩ := asks_of_request? hq
    rw [hstep, hstep, Fuse.serve_eq]
    simp [Fuse.burn, flag, beq_eq_decide]

theorem after_fuse {k : Nat} (h : m.calls t k < n) :
    m.after (Fuse.mk t n) k = ((m.after t k).1, ⟨(m.after t k).2, n - m.calls t k⟩) := by
  induction k with
  | zero => rfl
  | succ k ih =>
    rw [calls_succ] at h
    -- A call made here is not number `n`: there is one to come yet.
    have hleft : ¬ (0 < (m.after t k).1.requests ∧ n - m.calls t k = 1) := by omega
    rw [after_succ, call, ih (by omega), step_fuse, decide_eq_false hleft, calls_succ, Nat.sub_sub,
      Bool.or_false]
    rfl

theorem call_fuse {k : Nat} (h : m.calls t k < n) :
    m.call (Fuse.mk t n) k = ⟨(m.call t k).result,
      (m.call t k).machine.flag ((m.call t k).machine.interrupt || decide (m.calls t (k + 1) = n)),
      ⟨(m.call t k).terminal, n - m.calls t (k + 1)⟩⟩ := by
  have hraise : (0 < (m.after t k).1.requests ∧ n - m.calls t k = 1) ↔ m.calls t (k + 1) = n := by
    have := requests_le_one (m.after t k).1
    rw [calls_succ]
    omega
  rw [call, after_fuse h, step_fuse, decide_eq_decide.mpr hraise, Nat.sub_sub, ← calls_succ, call]

theorem call_fuse_of_lt {k : Nat} (h : m.calls t (k + 1) < n) :
    (m.call (Fuse.mk t n) k).map Fuse.terminal = m.call t k := by
  have hk : m.calls t k < n := Nat.lt_of_le_of_lt (m.calls_mono t (Nat.le_succ k)) h
  rw [call_fuse hk, decide_eq_false (Nat.ne_of_lt h), Bool.or_false]
  rfl

theorem call_fuse_of_eq {k : Nat} (h : m.calls t k < n) (heq : m.calls t (k + 1) = n) :
    m.call (Fuse.mk t n) k =
      ⟨(m.call t k).result, (m.call t k).machine.flag true, ⟨(m.call t k).terminal, 0⟩⟩ := by
  rw [call_fuse h, decide_eq_true heq, Bool.or_true, heq, Nat.sub_self]

structure Stopped (m : Machine) (t : τ) : Prop where
  next : m.step t = ⟨.error .interrupted, m.become .faulted, t⟩
  run : ∀ limit > 0, m.resume limit t = some ⟨.error .interrupted, m.become .faulted, t⟩
  later : ∀ k > 0, m.call t k = ⟨.error .notActive, m.become .faulted, t⟩
  quiet : ∀ k, m.calls t k = 0

theorem stopped_of_raised (hs : m.status = .active) (h : m.interrupt = true) : m.Stopped t := by
  have hstep : m.step t = ⟨.error .interrupted, m.become .faulted, t⟩ := step_of_raised hs h
  have hafter : m.after t 1 = (m.become .faulted, t) := by rw [after_succ, call, after, hstep]
  have hone : (m.after t 1).1.status ≠ .active := not_active_of_raised (k := 0) h
  refine ⟨hstep, fun limit hlimit => ?_, fun k hk => ?_, fun k => ?_⟩
  · have herror : (m.call t 0).result ≠ .ok .active := by simp [call, after, hstep]
    rw [resume_of_calls (fun k hk => absurd hk (Nat.not_lt_zero k)) herror hlimit, call, after,
      hstep]
  · rw [call_of_not_active hone hk, hafter]
  · cases k with
    | zero => rfl
    | succ k =>
      rw [calls_of_not_active hone (Nat.succ_le_succ (Nat.zero_le k)), calls_succ, calls_zero,
        after, requests_of_raised h]

/-- How the flag that goes up right after call number `n` cuts the run of a fresh machine, where
step number `j`, counted from 0, makes that call. -/
structure Cut (m : Machine) (t : τ) (n j : Nat) : Prop where
  nth : m.calls t j + 1 = n ∧ m.calls t (j + 1) = n
  before : ∀ k < j, (m.call (Fuse.mk t n) k).map Fuse.terminal = m.call t k
  during : m.call (Fuse.mk t n) j =
    ⟨(m.call t j).result, (m.call t j).machine.flag true, ⟨(m.call t j).terminal, 0⟩⟩
  failed : ∀ f, (m.call t j).result = .error f → ∀ limit > j,
    m.run limit t = some (m.call t j) ∧ m.run limit (Fuse.mk t n) = some (m.call (Fuse.mk t n) j)
  interrupted : ∀ s, (m.call t j).result = .ok s →
    m.call (Fuse.mk t n) (j + 1) =
        ⟨.error .interrupted, ((m.call t j).machine.flag true).become .faulted,
          ⟨(m.call t j).terminal, 0⟩⟩ ∧
      ∀ limit > j + 1, m.run limit (Fuse.mk t n) = some (m.call (Fuse.mk t n) (j + 1))
  later : ∀ k > j + 1, m.call (Fuse.mk t n) k =
    ⟨.error .notActive, (m.call (Fuse.mk t n) (j + 1)).machine,
      (m.call (Fuse.mk t n) (j + 1)).terminal⟩
  quiet : ∀ k > j, m.calls (Fuse.mk t n) k = n

theorem calls_fuse {k : Nat} (h : m.calls t k < n) :
    m.calls (Fuse.mk t n) (k + 1) = m.calls t (k + 1) := by
  induction k with
  | zero => rw [calls_succ, calls_succ, calls_zero, calls_zero, after, after]
  | succ k ih =>
    have hk : m.calls t k < n := Nat.lt_of_le_of_lt (m.calls_mono t (Nat.le_succ k)) h
    rw [calls_succ, ih hk, after_fuse h, calls_succ m t (k + 1)]

theorem exists_nth (hn : 0 < n) (h : ∃ k, n ≤ m.calls t k) :
    ∃ j, m.calls t j + 1 = n ∧ m.calls t (j + 1) = n := by
  classical
  have hspec := Nat.find_spec h
  cases hk : Nat.find h with
  | zero =>
    rw [hk, calls_zero] at hspec
    omega
  | succ j =>
    have hlt : ¬ n ≤ m.calls t j := Nat.find_min h (by omega)
    have hone := requests_le_one (m.after t j).1
    rw [hk] at hspec
    refine ⟨j, ?_⟩
    rw [calls_succ] at hspec ⊢
    omega

section Nth

variable {j : Nat} (hj : m.calls t j + 1 = n ∧ m.calls t (j + 1) = n)
include hj

theorem requests_of_nth : 0 < (m.after t j).1.requests := by
  have := calls_succ m t j
  omega

theorem call_fuse_before {k : Nat} (hk : k < j) :
    (m.call (Fuse.mk t n) k).map Fuse.terminal = m.call t k := by
  have hle : m.calls t (k + 1) ≤ m.calls t j := m.calls_mono t hk
  exact call_fuse_of_lt (by omega)

theorem call_fuse_nth :
    m.call (Fuse.mk t n) j =
      ⟨(m.call t j).result, (m.call t j).machine.flag true, ⟨(m.call t j).terminal, 0⟩⟩ :=
  call_fuse_of_eq (by omega) hj.2

theorem after_fuse_nth :
    m.after (Fuse.mk t n) (j + 1) =
      ((m.call t j).machine.flag true, ⟨(m.call t j).terminal, 0⟩) := by
  rw [after_succ, call_fuse_nth hj]

theorem not_active_of_nth : (m.after (Fuse.mk t n) (j + 2)).1.status ≠ .active :=
  not_active_of_raised (by rw [after_fuse_nth hj]; rfl)

theorem result_before {k : Nat} (hk : k < j) : (m.call t k).result = .ok .active :=
  result_of_later_active (active_of_requests (requests_of_nth hj)) hk

theorem result_fuse_before {k : Nat} (hk : k < j) :
    (m.call (Fuse.mk t n) k).result = .ok .active := by
  rw [← result_before hj hk, ← call_fuse_before hj hk, Turn.map]

theorem call_fuse_succ_nth {s : Status} (hs : (m.call t j).result = .ok s) :
    m.call (Fuse.mk t n) (j + 1) =
      ⟨.error .interrupted, ((m.call t j).machine.flag true).become .faulted,
        ⟨(m.call t j).terminal, 0⟩⟩ := by
  have hactive : (m.call t j).machine.status = .active :=
    (status_of_ok (steps_step _ _) hs).trans (result_of_requests (requests_of_nth hj) hs)
  rw [call, after_fuse_nth hj]
  exact step_of_raised hactive rfl

theorem calls_fuse_of_nth {k : Nat} (hk : j < k) : m.calls (Fuse.mk t n) k = n := by
  have hnth : m.calls (Fuse.mk t n) (j + 1) = n := by
    rw [calls_fuse (by omega), hj.2]
  obtain rfl | hlt := Nat.eq_or_lt_of_le (Nat.succ_le_of_lt hk)
  · exact hnth
  · have hnone : (m.after (Fuse.mk t n) (j + 1)).1.requests = 0 :=
      requests_of_raised (by rw [after_fuse_nth hj]; rfl)
    rw [calls_of_not_active (not_active_of_nth hj) hlt, calls_succ, hnth, hnone, Nat.add_zero]

theorem resume_fuse_of_error {f : Fault} (hf : (m.call t j).result = .error f) {limit : Nat}
    (hlimit : j < limit) : m.resume limit (Fuse.mk t n) = some (m.call (Fuse.mk t n) j) :=
  resume_of_calls (fun _ => result_fuse_before hj) (by simp [call_fuse_nth hj, hf]) hlimit

theorem resume_fuse_of_ok {s : Status} (hs : (m.call t j).result = .ok s) {limit : Nat}
    (hlimit : j + 1 < limit) :
    m.resume limit (Fuse.mk t n) = some (m.call (Fuse.mk t n) (j + 1)) := by
  refine resume_of_calls (fun k hk => ?_) (by simp [call_fuse_succ_nth hj hs]) hlimit
  obtain hlt | rfl := Nat.lt_succ_iff_lt_or_eq.mp hk
  · exact result_fuse_before hj hlt
  · rw [call_fuse_nth hj, hs, result_of_requests (requests_of_nth hj) hs]

theorem cut_of_nth (hm : m.restart = m) : m.Cut t n j where
  nth := hj
  before _ hk := call_fuse_before hj hk
  during := call_fuse_nth hj
  failed f hf limit hlimit := by
    rw [run, run, hm]
    exact ⟨resume_of_calls (fun _ => result_before hj) (by simp [hf]) hlimit,
      resume_fuse_of_error hj hf hlimit⟩
  interrupted s hs := by
    refine ⟨call_fuse_succ_nth hj hs, fun limit hlimit => ?_⟩
    rw [run, hm]
    exact resume_fuse_of_ok hj hs hlimit
  later k hk := by rw [call_of_not_active (not_active_of_nth hj) hk, after_succ]
  quiet k hk := calls_fuse_of_nth hj hk

end Nth

theorem interrupt_cuts (memory : Memory) (t : τ) (hn : 0 < n) :
    let m := boot memory
    ((∀ k, m.calls t k < n) →
      (∀ k, (m.call (Fuse.mk t n) k).map Fuse.terminal = m.call t k) ∧
      ∀ limit, (m.run limit (Fuse.mk t n)).map (Turn.map Fuse.terminal) = m.run limit t) ∧
    ((∃ k, n ≤ m.calls t k) → ∃ j, m.Cut t n j) ∧
    ∀ k, (m.after t k).1.status = .active →
      Stopped ((m.after t k).1.flag true) (m.after t k).2 := by
  intro m
  refine ⟨fun hfew => ?_, fun hmany => ?_, fun k hs => stopped_of_raised hs rfl⟩
  · have hcall : ∀ k, (m.call (Fuse.mk t n) k).map Fuse.terminal = m.call t k := fun k =>
      call_fuse_of_lt (hfew (k + 1))
    exact ⟨hcall, resume_map hcall⟩
  · obtain ⟨j, hj⟩ := exists_nth hn hmany
    exact ⟨j, cut_of_nth hj rfl⟩

theorem interrupt_cuts_read :
    let memory := (Memory.blank.set 0 (by decide) 1010).set 1 (by decide) 4300
    let script : Script := { inputs := [7] }
    0 < 1 ∧ ∃ turn, (boot memory).run 5 (Fuse.mk script 1) = some turn ∧
      turn.result = .error .interrupted ∧ turn.machine.ip = 1 ∧ turn.machine.memory[10] = 7 := by
  intro memory script
  obtain ⟨j, hcut⟩ := (interrupt_cuts memory script (n := 1) (by decide)).2.1 ⟨1, by decide⟩
  have hj : j = 0 := by
    have hone : (boot memory).calls script 1 = 1 := by decide
    have hle := (boot memory).calls_mono script (a := 1) (b := j)
    have := hcut.nth
    omega
  subst hj
  have hread : ((boot memory).call script 0).result = .ok .active := by decide
  exact ⟨by decide, _, (hcut.interrupted _ hread).2 5 (by decide), by decide, by decide, by decide⟩

end Machine

end Simpletron
