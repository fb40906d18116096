import Simpletron.Proofs.Reachable
import Simpletron.Proofs.Session

namespace Simpletron

namespace Machine

variable {τ : Type} [Device τ] {m n : Machine} {t u : τ} {a k limit : Nat} {s : Status} {f : Fault}
  {turn : Turn τ}

def OnHalt (m : Machine) : Prop :=
  ∃ h : m.ip < 100, 4300 ≤ m.memory[m.ip].toInt ∧ m.memory[m.ip].toInt ≤ 4399

theorem At.onHalt (h : m.At .halt a) : m.OnHalt := by
  obtain ⟨hip, ha, hw⟩ := h
  simp only [Opcode.code] at hw
  exact ⟨hip, by omega, by omega⟩

section Step

theorem halted_of_completes (h : Completes m t .halt a n u) : n = m.become .halted := by
  cases h with
  | compute _ hr _ => cases hr
  | jump hb => cases hb
  | pass hb => cases hb
  | halt => rfl

theorem active_or_halts (hstep : Steps m t turn) (h : turn.result = .ok s) :
    s = .active ∨ (s = .halted ∧ m.OnHalt ∧ turn.machine = m.become .halted) := by
  obtain ⟨op, a, hs, hat, hst, hc⟩ := exists_completes hstep h
  by_cases hop : op = .halt
  · subst hop
    have hn := halted_of_completes hc
    exact .inr ⟨hst.symm.trans (congrArg status hn), hat.onHalt, hn⟩
  · exact .inl (hst.symm.trans ((status_of_completes hc hop).trans hs))

theorem stopped_of_error (hstep : Steps m t turn) (h : turn.result = .error f) :
    turn.machine.status = .halted ∨ turn.machine.status = .faulted := by
  have hs := not_active_of_error hstep h
  cases hst : turn.machine.status with
  | active => exact absurd hst hs
  | halted => exact .inl rfl
  | faulted => exact .inr rfl

theorem halts_of_halted (hstep : Steps m t turn) (hm : m.status ≠ .halted)
    (h : turn.machine.status = .halted) :
    turn.result = .ok .halted ∧ m.OnHalt ∧ turn.machine = m.become .halted := by
  cases hr : turn.result with
  | error f =>
    obtain ⟨_, _, hn⟩ | ⟨_, up, hn⟩ := machine_of_error hstep hr
    · exact absurd (hn ▸ h) hm
    · rw [hn] at h
      cases h
  | ok s =>
    have hst := status_of_ok hstep hr
    obtain rfl | ⟨rfl, hhalt, hn⟩ := active_or_halts hstep hr
    · cases hst.symm.trans h
    · exact ⟨rfl, hhalt, hn⟩

end Step

section Run

theorem StopsAt.active (h : m.StopsAt t k) (hm : m.status = .active) :
    (m.after t k).1.status = .active := by
  cases k with
  | zero => exact hm
  | succ k => exact status_of_ok (steps_step _ _) (h.before k (Nat.lt_succ_self k))

theorem StopsAt.halted_or_faulted (h : m.StopsAt t k) (hm : m.status = .active) :
    ((m.call t k).result = .ok .halted ∧ (m.call t k).machine.status = .halted) ∨
      ∃ f, (m.call t k).result = .error f ∧ (m.call t k).machine.status = .faulted := by
  have hstep := steps_step (m.after t k).1 (m.after t k).2
  cases hr : (m.call t k).result with
  | error f =>
    obtain ⟨hs, _, _⟩ | ⟨_, up, hn⟩ := machine_of_error hstep hr
    · exact absurd (h.active hm) hs
    · exact .inr ⟨f, rfl, congrArg status hn⟩
  | ok s =>
    have hst := status_of_ok hstep hr
    obtain rfl | ⟨rfl, _, _⟩ := active_or_halts hstep hr
    · exact absurd hr h.last
    · exact .inl ⟨rfl, hst⟩

theorem StopsAt.ok_iff (h : m.StopsAt t k) (hm : m.status = .active) :
    (∃ s, (m.call t k).result = .ok s) ↔ (m.call t k).machine.status = .halted := by
  obtain ⟨hr, hs⟩ | ⟨f, hr, hs⟩ := h.halted_or_faulted hm
  · simp [hr, hs]
  · simp [hr, hs]

theorem StopsAt.error_iff (h : m.StopsAt t k) (hm : m.status = .active) :
    (∃ f, (m.call t k).result = .error f) ↔ (m.call t k).machine.status = .faulted := by
  obtain ⟨hr, hs⟩ | ⟨f, hr, hs⟩ := h.halted_or_faulted hm
  · simp [hr, hs]
  · simp [hr, hs]

theorem exists_halt_of_run (h : m.run limit t = some turn) (hs : turn.machine.status = .halted) :
    ∃ k < limit, m.restart.call t k = turn ∧ (m.restart.after t k).1.OnHalt ∧
      turn.machine = (m.restart.after t k).1.become .halted := by
  obtain ⟨k, hk, hstops, rfl⟩ := resume_eq_some_iff.mp h
  have hactive := hstops.active rfl
  have hm : (m.restart.after t k).1.status ≠ .halted := by
    rw [hactive]
    exact nofun
  obtain ⟨_, hhalt, hn⟩ := halts_of_halted (steps_step _ _) hm hs
  exact ⟨k, hk, rfl, hhalt, hn⟩

end Run

section Own

/-- The fault is one that the device reported itself, in a call that the next step makes. -/
def Relays (m : Machine) (t : τ) (f : Fault) : Prop :=
  (∃ a, m.At .read a ∧ (Device.read t).result = .error f) ∨
    ∃ (a : Nat) (_ : a < 100), m.At .write a ∧ (Device.write m.memory[a].toInt t).result = .error f

inductive Origin (m : Machine) (t : τ) : Fault → Prop
  | flag : m.interrupt = true → Origin m t .interrupted
  | fetch {cause : Fault} : m.fetch = .error cause → Origin m t cause
  | unfit (value : Int) : Origin m t (.unfit value)
  | divisor (location : Nat) : Origin m t (.zeroDivisor location)
  | device {cause : Fault} : m.Relays t cause → Origin m t cause

theorem origin_of_error (hstep : Steps m t turn) (hm : m.status = .active)
    (h : turn.result = .error f) : Origin m t f := by
  cases hstep with
  | inactive hs => exact absurd hm hs
  | interrupted _ hi =>
    cases h
    exact .flag hi
  | completed _ _ _ _ => cases h
  | unfetched _ _ hfetch =>
    cases h
    exact .fetch hfetch
  | failed _ _ hat hfails =>
    cases h
    cases hfails with
    | read hd => exact .device (.inl ⟨_, hat, hd⟩)
    | write ha hd => exact .device (.inr ⟨_, ha, hat, hd⟩)
    | input _ _ | store _ | compute _ _ _ => exact .unfit _
    | divide _ _ => exact .divisor _

theorem raised_or_relays (hstep : Steps m t turn) (hm : m.status = .active)
    (h : turn.result = .error f) (hf : f = .notActive ∨ f = .interrupted) :
    (f = .interrupted ∧ m.interrupt = true) ∨ m.Relays t f := by
  cases origin_of_error hstep hm h with
  | flag hi => exact .inl ⟨rfl, hi⟩
  | fetch hfetch =>
    obtain ⟨_, rfl⟩ | ⟨_, _, rfl⟩ := fetch_eq_error_iff.mp hfetch <;> simp at hf
  | unfit _ | divisor _ => simp at hf
  | device hrelays => exact .inr hrelays

theorem relays_of_notActive (hstep : Steps m t turn) (hm : m.status = .active)
    (h : turn.result = .error .notActive) : m.Relays t .notActive :=
  (raised_or_relays hstep hm h (.inl rfl)).resolve_left fun h => by cases h.1

theorem terminal_of_relays {τ : Type} [Terminal τ] {t : τ} (h : m.Relays t f) :
    ∃ cause, f = .terminal cause := by
  obtain ⟨a, _, h⟩ | ⟨a, _, _, h⟩ := h
  · simp only [Device.read, Reply.mapError] at h
    cases hr : (Terminal.read t).result <;> rw [hr] at h <;> cases h
    exact ⟨_, rfl⟩
  · simp only [Device.write, Reply.mapError] at h
    cases hr : (Terminal.write _ t).result <;> rw [hr] at h <;> cases h
    exact ⟨_, rfl⟩

theorem not_relays_notActive {τ : Type} [Terminal τ] (m : Machine) (t : τ) :
    ¬ m.Relays t .notActive := by
  intro h
  obtain ⟨_, hcause⟩ := terminal_of_relays h
  cases hcause

end Own

end Machine

namespace Session

def Act.idle : Act → Bool
  | .step | .flag _ _ => true
  | .begin | .run _ | .fresh => false

def Act.isStep : Act → Bool
  | .step => true
  | .begin | .run _ | .fresh | .flag _ _ => false

variable {τ : Type} [Device τ] {m : Machine} {t : τ}

theorem acts_of_not_active (hm : m.status ≠ .active) (flags : List Bool)
    (rs : List (Except Fault Status)) (as : List Act) (has : ∀ x ∈ as, x.idle) :
    ∃ up flags', acts ⟨⟨m, t, flags⟩, rs⟩ as = some ⟨⟨m.flag up, t, flags'⟩,
      rs ++ List.replicate (as.countP Act.isStep) (.error .notActive)⟩ := by
  induction as generalizing m flags rs with
  | nil => exact ⟨m.interrupt, flags, by simp [acts, Machine.flag]⟩
  | cons x as ih =>
    have has' : ∀ x ∈ as, x.idle := fun x hx => has x (List.mem_cons_of_mem _ hx)
    cases x with
    | step =>
      obtain ⟨own, flags', h⟩ := ih hm flags (rs ++ [.error .notActive]) has'
      refine ⟨own, flags', ?_⟩
      rw [List.append_assoc, List.singleton_append, ← List.replicate_succ] at h
      rw [acts, List.foldlM_cons, List.countP_cons_of_pos rfl]
      simp only [act, Bench.step, Machine.step_of_not_active hm]
      exact h
    | flag handle up =>
      obtain ⟨own, flags', hset⟩ := Bench.exists_setFlag m flags handle up
      obtain ⟨own', flags'', h⟩ := ih (m := m.flag own) hm flags' rs has'
      refine ⟨own', flags'', ?_⟩
      rw [acts, List.foldlM_cons]
      simp only [act, hset]
      exact h
    | begin | run _ | fresh => exact absurd (has _ List.mem_cons_self) Bool.false_ne_true

end Session

theorem Machine.Reachable.onHalt : {m : Machine} → m.Reachable → m.status = .halted → m.OnHalt
  | _, .boot _, hs => by cases hs
  | _, .restart _, hs => by cases hs
  | _, .flag _ h, hs => h.onHalt hs
  | _, @Machine.Reachable.run _ _ _ _ _ _ _ hrun, hs => by
    obtain ⟨k, _, _, hhalt, hn⟩ := Machine.exists_halt_of_run hrun hs
    rw [hn]
    exact hhalt
  | _, @Machine.Reachable.step m _ _ t h, hs => by
    by_cases hm : m.status = .halted
    · have hna : m.status ≠ .active := by simp [hm]
      rw [Machine.step_of_not_active hna]
      exact h.onHalt hm
    · obtain ⟨_, hhalt, hn⟩ := Machine.halts_of_halted (Machine.steps_step m t) hm hs
      rw [hn]
      exact hhalt

namespace Machine

/-- The state of a machine before and after a step, a run, and steps that come after its last.
`idle` is about any acts short of a new run, with the flags raised and lowered in between; `Relays`
is there for devices that report a machine's fault as their own. -/
structure LifeCycle {τ : Type} [Device τ] (m : Machine) (t : τ) : Prop where
  ok : ∀ s, (m.step t).result = .ok s →
    (m.step t).machine.status = s ∧ (s = .active ∨ s = .halted)
  error : ∀ f, (m.step t).result = .error f →
    (m.step t).machine.status = .halted ∨ (m.step t).machine.status = .faulted
  halts : m.status ≠ .halted → (m.step t).machine.status = .halted →
    m.OnHalt ∧ (m.step t).machine = m.become .halted
  run_halts : ∀ limit turn, m.run limit t = some turn → turn.machine.status = .halted →
    ∃ k < limit, m.restart.call t k = turn ∧ (m.restart.after t k).1.OnHalt ∧
      turn.machine = (m.restart.after t k).1.become .halted
  on_halt : m.status = .halted → m.OnHalt
  still : m.status ≠ .active → ∀ k, m.call t k = ⟨.error .notActive, m, t⟩ ∧ m.calls t k = 0
  idle : m.status ≠ .active → ∀ flags rs (as : List Session.Act), (∀ x ∈ as, x.idle) →
    ∃ up flags', Session.acts ⟨⟨m, t, flags⟩, rs⟩ as = some ⟨⟨m.flag up, t, flags'⟩,
      rs ++ List.replicate (as.countP Session.Act.isStep) (.error .notActive)⟩
  run_ok : ∀ limit turn, m.run limit t = some turn →
    ((∃ s, turn.result = .ok s) ↔ turn.machine.status = .halted)
  run_error : ∀ limit turn, m.run limit t = some turn →
    ((∃ f, turn.result = .error f) ↔ turn.machine.status = .faulted)
  run_notActive : ∀ limit turn, m.run limit t = some turn → turn.result = .error .notActive →
    ∃ k < limit, m.restart.call t k = turn ∧
      (m.restart.after t k).1.Relays (m.restart.after t k).2 .notActive

theorem lifeCycle_of_onHalt {τ : Type} [Device τ] {m : Machine}
    (hm : m.status = .halted → m.OnHalt) (t : τ) : m.LifeCycle t where
  ok s hr := by
    have hstep := steps_step m t
    exact ⟨status_of_ok hstep hr, (active_or_halts hstep hr).imp_right And.left⟩
  error f hr := stopped_of_error (steps_step m t) hr
  halts hne hs := (halts_of_halted (steps_step m t) hne hs).2
  run_halts limit turn hrun hs := exists_halt_of_run hrun hs
  on_halt := hm
  still hs k := by
    rw [call_of_not_active (k := 0) hs (Nat.zero_le k),
      calls_of_not_active (k := 0) hs (Nat.zero_le k)]
    exact ⟨rfl, rfl⟩
  idle hs flags rs as has := Session.acts_of_not_active hs flags rs as has
  run_ok limit turn hrun := by
    obtain ⟨k, _, hstops, rfl⟩ := resume_eq_some_iff.mp hrun
    exact hstops.ok_iff rfl
  run_error limit turn hrun := by
    obtain ⟨k, _, hstops, rfl⟩ := resume_eq_some_iff.mp hrun
    exact hstops.error_iff rfl
  run_notActive limit turn hrun hr := by
    obtain ⟨k, hk, hstops, rfl⟩ := resume_eq_some_iff.mp hrun
    exact ⟨k, hk, rfl, relays_of_notActive (steps_step _ _) (hstops.active rfl) hr⟩

theorem life_cycle {m : Machine} (hr : m.Reachable) :
    (∀ {τ : Type} [Device τ] (t : τ), m.LifeCycle t) ∧
      ∀ {τ : Type} [Terminal τ] (t : τ) (limit : Nat) (turn : Turn τ), m.run limit t = some turn →
        turn.result ≠ .error .notActive := by
  refine ⟨lifeCycle_of_onHalt hr.onHalt, fun t limit turn hrun herror => ?_⟩
  obtain ⟨k, _, _, hrelays⟩ :=
    (lifeCycle_of_onHalt hr.onHalt t).run_notActive limit turn hrun herror
  exact not_relays_notActive _ _ hrelays

theorem life_cycle_halted :
    let memory := Memory.blank.set 0 (by decide) 4307
    let script : Script := { inputs := [] }
    let m := ((boot memory).step script).machine
    m.Reachable ∧ m.status = .halted ∧ m.OnHalt ∧
      (∃ up flags, Session.acts ⟨⟨m, script, []⟩, []⟩ [.flag 0 true, .step, .step] =
        some ⟨⟨m.flag up, script, flags⟩, [.error .notActive, .error .notActive]⟩) ∧
      ∃ turn, m.run 1 script = some turn ∧ turn.machine.status = .halted := by
  intro memory script m
  have hmemory : Memory.blank.write 0 4307 = .ok memory := rfl
  have hr : m.Reachable := .step script (.boot (.write .blank hmemory))
  have hs : m.status = .halted := by decide
  have hcycle := (life_cycle hr).1 script
  have hrun : m.run 1 script = some (m.restart.call script 0) :=
    resume_eq_some_iff.mpr ⟨0, Nat.zero_lt_one, ⟨by decide, nofun⟩, rfl⟩
  refine ⟨hr, hs, hcycle.on_halt hs, ?_, _, hrun, (hcycle.run_ok 1 _ hrun).mp ⟨.halted, by decide⟩⟩
  exact hcycle.idle (by rw [hs]; exact nofun) [] [] _ (by decide)

end Machine

end Simpletron
