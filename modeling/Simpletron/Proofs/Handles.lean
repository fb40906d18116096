import Mathlib.Data.List.GetD
import Simpletron.Proofs.Interruption
import Simpletron.Proofs.LifeCycle

namespace Simpletron

namespace Machine

variable {τ : Type} [Device τ] {m : Machine} {t : τ} {n limit : Nat} {turn : Turn τ}

def raised (m : Machine) (t : τ) : Bool :=
  match m.request? with
  | some q => (q.serve t).raises
  | none => false

def raisedIn (m : Machine) (t : τ) (n : Nat) : Bool :=
  (List.range n).any fun k => (m.after t k).1.raised (m.after t k).2

theorem interrupt_of_silent (h : m.request? = none) :
    (m.step t).machine.interrupt = m.interrupt := by
  have hstep := steps_step m t
  generalize m.step t = turn at hstep ⊢
  -- Of the instructions only those that call the device touch the flag, and they request that call.
  cases hstep with
  | inactive _ => rfl
  | interrupted _ _ => rfl
  | unfetched _ _ _ => rfl
  | completed hs hi hat hc =>
    cases hc with
    | read _ _ _ => cases (request?_of_read hs hi hat).symm.trans h
    | write ha _ => cases (request?_of_write hs hi ha hat).symm.trans h
    | _ => rfl
  | failed hs hi hat hf =>
    cases hf with
    | read _ => cases (request?_of_read hs hi hat).symm.trans h
    | input _ _ => cases (request?_of_read hs hi hat).symm.trans h
    | write ha _ => cases (request?_of_write hs hi ha hat).symm.trans h
    | _ => rfl

theorem interrupt_step (m : Machine) (t : τ) :
    (m.step t).machine.interrupt = (m.interrupt || m.raised t) := by
  cases hq : m.request? with
  | none => rw [interrupt_of_silent hq, raised, hq, Bool.or_false]
  | some q =>
    obtain ⟨k, hstep⟩ := asks_of_request? hq
    rw [hstep, raised, hq, (at_of_request? hq).2.1, Bool.false_or]
    rfl

theorem interrupt_after (m : Machine) (t : τ) (n : Nat) :
    (m.after t n).1.interrupt = (m.interrupt || m.raisedIn t n) := by
  induction n with
  | zero => exact (Bool.or_false _).symm
  | succ n ih =>
    rw [after_succ, call, interrupt_step, ih, raisedIn, raisedIn, List.range_succ, List.any_append,
      Bool.or_assoc, List.any_cons, List.any_nil, Bool.or_false]

theorem after_of_run (h : m.run limit t = some turn) :
    m.restart.after t limit = (turn.machine, turn.terminal) := by
  obtain ⟨k, hk, hstops, rfl⟩ := resume_eq_some_iff.mp h
  have hstopped : (m.restart.after t (k + 1)).1.status ≠ .active := by
    obtain ⟨_, hs⟩ | ⟨_, _, hs⟩ := hstops.halted_or_faulted rfl
    · exact ne_of_eq_of_ne hs nofun
    · exact ne_of_eq_of_ne hs nofun
  rw [after_of_not_active hstopped hk, after_succ]

theorem interrupt_run (h : m.run limit t = some turn) :
    turn.machine.interrupt = (m.interrupt || m.restart.raisedIn t limit) := by
  have hafter := interrupt_after m.restart t limit
  rwa [after_of_run h] at hafter

end Machine

def lastTouch? (log : List (Nat × Bool)) (handle : Nat) : Option Bool :=
  (log.filterMap fun touch => if touch.1 = handle then some touch.2 else none).getLast?

theorem lastTouch?_concat (log : List (Nat × Bool)) (touched handle : Nat) (up : Bool) :
    lastTouch? (log ++ [(touched, up)]) handle =
      if handle = touched then some up else lastTouch? log handle := by
  by_cases h : handle = touched
  · subst h
    simp [lastTouch?]
  · simp [lastTouch?, h, Ne.symm h]

namespace Bench

variable {τ : Type} {b c : Bench τ} {handle : Nat} {log : List (Nat × Bool)}

section Flags

theorem isRaised_eq (b : Bench τ) (handle : Nat) :
    b.isRaised handle =
      if handle = b.newest then b.machine.interrupt else b.retired.getD handle false := by
  obtain hlt | rfl | hgt := Nat.lt_trichotomy handle b.newest
  · rw [isRaised, List.getD_append _ _ _ _ hlt, if_neg (Nat.ne_of_lt hlt)]
  · simp [isRaised, newest]
  · have hlen : (b.retired ++ [b.machine.interrupt]).length ≤ handle := by
      rw [List.length_append, List.length_singleton]
      exact hgt
    rw [isRaised, List.getD_eq_default _ _ hlen, if_neg (Nat.ne_of_gt hgt),
      List.getD_eq_default _ _ hgt.le]

theorem isRaised_newest (b : Bench τ) : b.isRaised b.newest = b.machine.interrupt := by
  rw [isRaised_eq, if_pos rfl]

theorem isRaised_fresh (b : Bench τ) (handle : Nat) :
    b.fresh.isRaised handle = b.isRaised handle := by
  by_cases h : handle = b.fresh.newest
  · have hlen : (b.retired ++ [b.machine.interrupt]).length ≤ handle := h.ge
    rw [isRaised_eq, if_pos h, isRaised, List.getD_eq_default _ _ hlen]
    rfl
  · rw [isRaised_eq, if_neg h]
    rfl

theorem isRaised_of_retired_eq {σ : Type} {c : Bench σ} (h : c.retired = b.retired)
    (handle : Nat) :
    c.isRaised handle = if handle = b.newest then c.machine.interrupt else b.isRaised handle := by
  have hnewest : c.newest = b.newest := congrArg List.length h
  rw [isRaised_eq c, isRaised_eq b, hnewest, h]
  split <;> rfl

theorem isRaised_setFlag (hle : handle ≤ b.newest) (up : Bool) (k : Nat) :
    (b.setFlag handle up).isRaised k = if k = handle then up else b.isRaised k := by
  obtain rfl | hlt := Nat.eq_or_lt_of_le hle
  · have hown : b.setFlag b.newest up = { b with machine := b.machine.flag up } := if_pos rfl
    have hretired : (b.setFlag b.newest up).retired = b.retired := by rw [hown]
    rw [isRaised_of_retired_eq hretired, hown]
    rfl
  · have hother : b.setFlag handle up = { b with retired := b.retired.set handle up } :=
      if_neg (Nat.ne_of_lt hlt)
    have hnewest : newest { b with retired := b.retired.set handle up } = b.newest :=
      List.length_set
    rw [hother, isRaised_eq, isRaised_eq, hnewest]
    by_cases hk : k = handle
    · subst hk
      rw [if_neg (Nat.ne_of_lt hlt), if_pos rfl, List.getD_eq_getElem?_getD,
        List.getElem?_set_self hlt, Option.getD_some]
    · rw [if_neg hk, List.getD_eq_getElem?_getD, List.getElem?_set_ne (Ne.symm hk),
        ← List.getD_eq_getElem?_getD]

end Flags

def marks (b : Bench τ) (raised : Bool) : List (Nat × Bool) :=
  if raised then [(b.newest, true)] else []

/-- How a bench may come about, and how its handles were used meanwhile. A run that is begun and then
goes on in steps need not end, and its flag may be touched between any two of them. -/
inductive Touched : {τ : Type} → Bench τ → List (Nat × Bool) → Prop
  | boot {τ : Type} (memory : Memory) (t : τ) :
      Touched { machine := .boot memory, terminal := t } []
  | connect {σ τ : Type} {b : Bench σ} {log} (t : τ) : Touched b log →
      Touched { machine := b.machine, terminal := t, retired := b.retired } log
  | step {τ : Type} [Device τ] {b : Bench τ} {log} : Touched b log →
      Touched b.step.2 (log ++ b.marks (b.machine.raised b.terminal))
  | begin {τ : Type} {b : Bench τ} {log} : Touched b log →
      Touched { b with machine := b.machine.restart } log
  | run {τ : Type} [Device τ] {b c : Bench τ} {log limit result} : Touched b log →
      b.run limit = some (result, c) →
      Touched c (log ++ b.marks (b.machine.restart.raisedIn b.terminal limit))
  | fresh {τ : Type} {b : Bench τ} {log} : Touched b log → Touched b.fresh log
  | raise {τ : Type} {b : Bench τ} {log handle} : handle ≤ b.newest → Touched b log →
      Touched (b.raise handle) (log ++ [(handle, true)])
  | lower {τ : Type} {b : Bench τ} {log handle} : handle ≤ b.newest → Touched b log →
      Touched (b.lower handle) (log ++ [(handle, false)])

section Turn

variable {turn : Machine.Turn τ} {raised : Bool}

theorem isRaised_after (h : turn.machine.interrupt = (b.machine.interrupt || raised))
    (handle : Nat) :
    (b.after turn).isRaised handle =
      if handle = b.newest then b.isRaised handle || raised else b.isRaised handle := by
  have hretired : (b.after turn).retired = b.retired := rfl
  rw [isRaised_of_retired_eq hretired]
  split
  · next hnew =>
    rw [hnew, isRaised_newest]
    exact h
  · rfl

variable [Device τ]

theorem isRaised_step (b : Bench τ) (handle : Nat) :
    b.step.2.isRaised handle =
      if handle = b.newest then b.isRaised handle || b.machine.raised b.terminal
      else b.isRaised handle :=
  isRaised_after (Machine.interrupt_step b.machine b.terminal) handle

theorem isRaised_run {limit : Nat} {result : Except Fault Status}
    (h : b.run limit = some (result, c)) (handle : Nat) :
    c.isRaised handle =
      if handle = b.newest then b.isRaised handle || b.machine.restart.raisedIn b.terminal limit
      else b.isRaised handle := by
  obtain ⟨turn, hrun, hturn⟩ := Option.map_eq_some_iff.mp h
  cases hturn
  exact isRaised_after (Machine.interrupt_run hrun) handle

end Turn

def FollowsTouches (b : Bench τ) (log : List (Nat × Bool)) : Prop :=
  ∀ handle, b.isRaised handle = (lastTouch? log handle).getD false

theorem FollowsTouches.concat {σ : Type} {c : Bench σ} {up : Bool} (h : b.FollowsTouches log)
    (hc : ∀ k, c.isRaised k = if k = handle then up else b.isRaised k) :
    c.FollowsTouches (log ++ [(handle, up)]) := by
  intro k
  rw [hc, lastTouch?_concat, h k]
  split <;> rfl

theorem FollowsTouches.marks {raised : Bool} (h : b.FollowsTouches log)
    (hc : ∀ k, c.isRaised k = if k = b.newest then b.isRaised k || raised else b.isRaised k) :
    c.FollowsTouches (log ++ b.marks raised) := by
  cases raised with
  | false =>
    intro k
    rw [hc, Bool.or_false, ite_self, h k, Bench.marks, if_neg Bool.false_ne_true, List.append_nil]
  | true =>
    refine h.concat fun k => ?_
    rw [hc, Bool.or_true]

theorem Touched.follows (h : b.Touched log) : b.FollowsTouches log := by
  induction h with
  | boot memory t =>
    intro handle
    rw [isRaised_eq]
    split <;> rfl
  | @connect _ _ b _ t _ ih =>
    intro handle
    rw [← ih handle, isRaised_eq, isRaised_eq]
    rfl
  | step _ ih => exact ih.marks (isRaised_step _)
  | begin _ ih =>
    intro handle
    rw [← ih handle]
    rfl
  | run _ hrun ih => exact ih.marks (isRaised_run hrun)
  | fresh _ ih =>
    intro handle
    rw [isRaised_fresh, ih handle]
  | raise hle _ ih => exact ih.concat (isRaised_setFlag hle true)
  | lower hle _ ih => exact ih.concat (isRaised_setFlag hle false)

structure KeepsFlags [Device τ] (b : Bench τ) : Prop where
  step : ∀ handle, (handle = b.newest → b.machine.raised b.terminal = false) →
    b.step.2.isRaised handle = b.isRaised handle
  begin : ∀ handle, isRaised { b with machine := b.machine.restart } handle = b.isRaised handle
  run : ∀ limit result c, b.run limit = some (result, c) → ∀ handle,
    (handle = b.newest → b.machine.restart.raisedIn b.terminal limit = false) →
      c.isRaised handle = b.isRaised handle
  fresh : ∀ handle, b.fresh.isRaised handle = b.isRaised handle
  newest : b.fresh.isRaised b.fresh.newest = false

theorem keepsFlags [Device τ] (b : Bench τ) : b.KeepsFlags where
  step handle hquiet := by
    rw [isRaised_step]
    split
    · next h => rw [hquiet h, Bool.or_false]
    · rfl
  begin _ := rfl
  run limit result c hrun handle hquiet := by
    rw [isRaised_run hrun]
    split
    · next h => rw [hquiet h, Bool.or_false]
    · rfl
  fresh := isRaised_fresh b
  newest := isRaised_newest b.fresh

structure HeedsFlag [Device τ] (b : Bench τ) : Prop where
  raised : b.machine.status = .active → b.isRaised b.newest = true →
    b.step = (.error .interrupted, { b with machine := b.machine.become .faulted }) ∧
      b.machine.calls b.terminal 1 = 0
  interrupted : b.machine.status = .active → b.step.1 = .error .interrupted →
    b.isRaised b.newest = true ∨ b.machine.Relays b.terminal .interrupted

theorem heedsFlag [Device τ] (b : Bench τ) : b.HeedsFlag where
  raised hs hup := by
    rw [isRaised_newest] at hup
    rw [step, Machine.step_of_raised hs hup]
    exact ⟨rfl, (Machine.stopped_of_raised hs hup).quiet 1⟩
  interrupted hs hr := by
    rw [isRaised_newest]
    exact (Machine.raised_or_relays (Machine.steps_step _ _) hs hr (.inr rfl)).imp_left And.right

theorem flags_follow_handles (h : b.Touched log) :
    (∀ handle, b.isRaised handle = true ↔ lastTouch? log handle = some true) ∧
      (∀ [Device τ], b.KeepsFlags ∧ b.HeedsFlag) ∧
      ∀ [Terminal τ], b.machine.status = .active →
        (b.step.1 = .error .interrupted ↔ b.isRaised b.newest = true) := by
  refine ⟨fun handle => ?_, ⟨b.keepsFlags, b.heedsFlag⟩, fun hs => ⟨fun hr => ?_, fun hup => ?_⟩⟩
  · rw [h.follows handle]
    cases lastTouch? log handle <;> simp
  · refine (b.heedsFlag.interrupted hs hr).resolve_right fun hrelays => ?_
    obtain ⟨_, hcause⟩ := Machine.terminal_of_relays hrelays
    cases hcause
  · rw [(b.heedsFlag.raised hs hup).1]

theorem flags_follow_handles_successor :
    let first : Bench Script := { machine := .boot .blank, terminal := { inputs := [] } }
    let b := ((first.raise 0).fresh.raise 1).lower 0
    b.Touched [(0, true), (1, true), (0, false)] ∧ b.isRaised 0 ≠ true ∧ b.isRaised 1 = true ∧
      b.step.1 = .error .interrupted := by
  intro first b
  have hfirst : first.Touched [] := .boot .blank _
  have hsecond : (first.raise 0).fresh.Touched [(0, true)] := .fresh (.raise (Nat.zero_le _) hfirst)
  have htwice : ((first.raise 0).fresh.raise 1).Touched [(0, true), (1, true)] :=
    .raise (Nat.le_refl 1) hsecond
  have h : b.Touched [(0, true), (1, true), (0, false)] := .lower (Nat.zero_le _) htwice
  obtain ⟨hraised, _, hstep⟩ := flags_follow_handles h
  have hup : b.isRaised 1 = true := (hraised 1).mpr (by decide)
  exact ⟨h, fun h0 => absurd ((hraised 0).mp h0) (by decide), hup, (hstep rfl).mpr hup⟩

end Bench

end Simpletron
