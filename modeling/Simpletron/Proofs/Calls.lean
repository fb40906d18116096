import Simpletron.Proofs.Outcome

namespace Simpletron.Machine

variable {τ : Type} [Device τ]

/-- The machine and its device after `n` calls, whatever they brought. -/
def after (m : Machine) (t : τ) : Nat → Machine × τ
  | 0 => (m, t)
  | n + 1 =>
    let turn := (m.after t n).1.step (m.after t n).2
    (turn.machine, turn.terminal)

def call (m : Machine) (t : τ) (n : Nat) : Turn τ := (m.after t n).1.step (m.after t n).2

theorem after_succ (m : Machine) (t : τ) (n : Nat) :
    m.after t (n + 1) = ((m.call t n).machine, (m.call t n).terminal) := rfl

theorem after_succ_eq_after_step (m : Machine) (t : τ) (n : Nat) :
    m.after t (n + 1) = (m.step t).machine.after (m.step t).terminal n := by
  induction n with
  | zero => rfl
  | succ n ih => rw [after_succ, call, ih, after_succ, call]

theorem call_succ (m : Machine) (t : τ) (n : Nat) :
    m.call t (n + 1) = (m.step t).machine.call (m.step t).terminal n := by
  rw [call, call, after_succ_eq_after_step]

theorem exists_call_of_resume {limit : Nat} {m : Machine} {t : τ} {turn : Turn τ}
    (h : m.resume limit t = some turn) :
    ∃ n, m.call t n = turn ∧ turn.result ≠ .ok .active ∧
      ∀ k < n, (m.call t k).result = .ok .active := by
  induction limit generalizing m t with
  | zero => cases h
  | succ limit ih =>
    simp only [resume] at h
    split at h
    · next hr =>
      obtain ⟨n, hn, hturn, hk⟩ := ih h
      refine ⟨n + 1, ?_, hturn, ?_⟩
      · rw [call_succ, hn]
      · intro k hlt
        cases k with
        | zero => exact hr
        | succ k =>
          rw [call_succ]
          exact hk k (Nat.lt_of_succ_lt_succ hlt)
    · next hr =>
      cases h
      exact ⟨0, rfl, hr, fun k hk => absurd hk (Nat.not_lt_zero k)⟩

theorem resume_of_calls {limit n : Nat} {m : Machine} {t : τ}
    (h : ∀ k < n, (m.call t k).result = .ok .active) (hn : (m.call t n).result ≠ .ok .active)
    (hlt : n < limit) : m.resume limit t = some (m.call t n) := by
  induction n generalizing m t limit with
  | zero =>
    obtain ⟨limit, rfl⟩ := Nat.exists_eq_succ_of_ne_zero (Nat.ne_of_gt hlt)
    simp only [resume]
    split
    · next hr => exact absurd hr hn
    · rfl
  | succ n ih =>
    obtain ⟨limit, rfl⟩ := Nat.exists_eq_succ_of_ne_zero (Nat.ne_of_gt (Nat.zero_lt_of_lt hlt))
    have h0 : (m.step t).result = .ok .active := h 0 (Nat.zero_lt_succ n)
    have hk : ∀ k < n, ((m.step t).machine.call (m.step t).terminal k).result = .ok .active := by
      intro k hk
      rw [← call_succ]
      exact h (k + 1) (Nat.succ_lt_succ hk)
    simp only [resume, h0]
    rw [call_succ] at hn ⊢
    exact ih hk hn (Nat.lt_of_succ_lt_succ hlt)

theorem resume_eq_none_iff {limit : Nat} {m : Machine} {t : τ} :
    m.resume limit t = none ↔ ∀ k < limit, (m.call t k).result = .ok .active := by
  induction limit generalizing m t with
  | zero => exact ⟨fun _ => nofun, fun _ => rfl⟩
  | succ limit ih =>
    have hzero : (m.call t 0).result = (m.step t).result := rfl
    rw [Nat.forall_lt_succ_left, hzero]
    simp only [resume, call_succ]
    split
    · next hr =>
      rw [ih]
      exact ⟨fun h => ⟨hr, h⟩, And.right⟩
    · next hr => exact ⟨nofun, fun h => absurd h.1 hr⟩

structure StopsAt (m : Machine) (t : τ) (n : Nat) : Prop where
  last : (m.call t n).result ≠ .ok .active
  before : ∀ k < n, (m.call t k).result = .ok .active

theorem resume_eq_some_iff {limit : Nat} {m : Machine} {t : τ} {turn : Turn τ} :
    m.resume limit t = some turn ↔ ∃ n < limit, m.StopsAt t n ∧ m.call t n = turn := by
  constructor
  · intro h
    obtain ⟨n, hn, hlast, hbefore⟩ := exists_call_of_resume h
    refine ⟨n, ?_, ⟨hn ▸ hlast, hbefore⟩, hn⟩
    by_contra hle
    rw [resume_eq_none_iff.mpr fun k hk => hbefore k (by omega)] at h
    cases h
  · rintro ⟨n, hlt, hstops, rfl⟩
    exact resume_of_calls hstops.before hstops.last hlt

theorem turns_succ_of_active {n : Nat} {m : Machine} {t : τ} (h : (m.step t).result = .ok .active) :
    m.turns (n + 1) t = m.step t :: (m.step t).machine.turns n (m.step t).terminal := by
  simp only [turns, h]

theorem turns_succ_of_not_active {n : Nat} {m : Machine} {t : τ}
    (h : (m.step t).result ≠ .ok .active) : m.turns (n + 1) t = [m.step t] := by
  simp only [turns]

theorem getElem?_turns_eq_some_iff {n k : Nat} {m : Machine} {t : τ} {turn : Turn τ} :
    (m.turns n t)[k]? = some turn ↔
      k < n ∧ (∀ i < k, (m.call t i).result = .ok .active) ∧ m.call t k = turn := by
  induction n generalizing m t k with
  | zero => simp [turns]
  | succ n ih =>
    have hzero : m.call t 0 = m.step t := rfl
    cases k with
    | zero =>
      rw [hzero]
      by_cases hr : (m.step t).result = .ok .active
      · simp [turns_succ_of_active hr]
      · simp [turns_succ_of_not_active hr]
    | succ k =>
      rw [Nat.forall_lt_succ_left, hzero]
      by_cases hr : (m.step t).result = .ok .active
      · simp only [turns_succ_of_active hr, List.getElem?_cons_succ, ih, call_succ, hr, true_and,
          Nat.add_lt_add_iff_right]
      · simp [turns_succ_of_not_active hr, hr]

theorem resume_eq_getLast?_turns (limit : Nat) (m : Machine) (t : τ) :
    m.resume limit t = (m.turns limit t).getLast?.filter fun turn => turn.result ≠ .ok .active := by
  induction limit generalizing m t with
  | zero => rfl
  | succ limit ih =>
    by_cases hr : (m.step t).result = .ok .active
    · simp only [resume, hr, turns_succ_of_active hr, ih]
      cases (m.step t).machine.turns limit (m.step t).terminal with
      | nil => exact (Option.filter_some_neg (by simp [hr])).symm
      | cons turn turns => rw [List.getLast?_cons_cons]
    · simp only [resume, turns_succ_of_not_active hr]
      exact (Option.filter_some_pos (by simp [hr])).symm

theorem not_active_of_error {m : Machine} {t : τ} {turn : Turn τ} {f : Fault}
    (hstep : Steps m t turn) (h : turn.result = .error f) : turn.machine.status ≠ .active := by
  obtain ⟨hs, _, hm⟩ | ⟨_, up, hm⟩ := machine_of_error hstep h
  · rw [hm]
    exact hs
  · rw [hm]
    exact nofun

theorem after_of_not_active {m : Machine} {t : τ} {k n : Nat}
    (h : (m.after t k).1.status ≠ .active) (hle : k ≤ n) : m.after t n = m.after t k := by
  induction hle with
  | refl => rfl
  | step _ ih => rw [after_succ, call, ih, step_of_not_active h]

theorem call_of_error {m : Machine} {t : τ} {k n : Nat} {f : Fault}
    (h : (m.call t k).result = .error f) (hlt : k < n) :
    (m.call t n).result = .error .notActive := by
  have hs : (m.after t (k + 1)).1.status ≠ .active := not_active_of_error (steps_step _ _) h
  rw [call, after_of_not_active hs hlt, step_of_not_active hs]

variable {m : Machine} {t : τ}

theorem status_of_ok {turn : Turn τ} {s : Status} (hstep : Steps m t turn)
    (h : turn.result = .ok s) : turn.machine.status = s := by
  obtain ⟨_, _, _, _, hs, _⟩ := exists_completes hstep h
  exact hs

theorem result_of_later_active {k n : Nat} (h : (m.after t n).1.status = .active) (hlt : k < n) :
    (m.call t k).result = .ok .active := by
  have hk : (m.call t k).machine.status = .active := by
    by_contra hs
    rw [after_of_not_active (k := k + 1) hs hlt] at h
    exact hs h
  have hstep := steps_step (m.after t k).1 (m.after t k).2
  cases hr : (m.call t k).result with
  | error f => exact absurd hk (not_active_of_error hstep hr)
  | ok s => rw [← status_of_ok hstep hr, ← hk, call]

theorem call_of_not_active {k i : Nat} (h : (m.after t k).1.status ≠ .active) (hle : k ≤ i) :
    m.call t i = ⟨.error .notActive, (m.after t k).1, (m.after t k).2⟩ := by
  rw [call, after_of_not_active h hle, step_of_not_active h]

theorem not_active_of_raised {k : Nat} (h : (m.after t k).1.interrupt = true) :
    (m.after t (k + 1)).1.status ≠ .active := by
  rw [after_succ, call]
  by_cases hs : (m.after t k).1.status = .active
  · rw [step_of_raised hs h]
    simp [become]
  · rw [step_of_not_active hs]
    exact hs

def Turn.map {σ : Type} (f : σ → τ) (turn : Turn σ) : Turn τ :=
  ⟨turn.result, turn.machine, f turn.terminal⟩

theorem resume_map {σ : Type} [Device σ] {f : σ → τ} {m : Machine} {s : σ} {t : τ}
    (h : ∀ k, (m.call s k).map f = m.call t k) (limit : Nat) :
    (m.resume limit s).map (Turn.map f) = m.resume limit t := by
  induction limit generalizing m s t with
  | zero => rfl
  | succ limit ih =>
    have hstep : m.step t = (m.step s).map f := (h 0).symm
    have hlater : ∀ k, ((m.step s).machine.call (m.step s).terminal k).map f =
        (m.step t).machine.call (m.step t).terminal k := by
      intro k
      rw [← call_succ, ← call_succ]
      exact h (k + 1)
    simp only [resume, hstep] at hlater ⊢
    simp only [Turn.map] at hlater ⊢
    split
    · exact ih hlater
    · rfl

end Simpletron.Machine
