import Simpletron.Bench
import Simpletron.Proofs.Requests

namespace Simpletron

theorem Bench.exists_setFlag (m : Machine) (flags : List Bool) (handle : Nat) (up : Bool) :
    ∃ own flags', ∀ {τ : Type} (t : τ),
      Bench.setFlag ⟨m, t, flags⟩ handle up = ⟨m.flag own, t, flags'⟩ := by
  by_cases hnew : handle = flags.length
  · exact ⟨up, flags, fun _ => if_pos hnew⟩
  · exact ⟨m.interrupt, flags.set handle up, fun _ => if_neg hnew⟩

structure Session (τ : Type) : Type where
  bench : Bench τ
  results : List (Except Fault Status) := []

namespace Session

/-- A run that is begun and then goes on in steps need not end. -/
inductive Act : Type
  | step
  | begin
  | run (limit : Nat)
  | fresh
  | flag (handle : Nat) (up : Bool)

section Act

variable {τ : Type} [Device τ]

def boot (memory : Memory) (t : τ) : Session τ :=
  { bench := { machine := .boot memory, terminal := t } }

def arrive (s : Session τ) (b : Bench τ) : Session τ := { s with bench := b }

def bring (s : Session τ) (turn : Except Fault Status × Bench τ) : Session τ :=
  { bench := turn.2, results := s.results ++ [turn.1] }

/-- `none` if a run does not end within its limit. -/
def act (s : Session τ) : Act → Option (Session τ)
  | .step => some (s.bring s.bench.step)
  | .begin => some (s.arrive { s.bench with machine := s.bench.machine.restart })
  | .run limit => (s.bench.run limit).map s.bring
  | .fresh => some (s.arrive s.bench.fresh)
  | .flag handle up => some (s.arrive (s.bench.setFlag handle up))

def acts (s : Session τ) (as : List Act) : Option (Session τ) := as.foldlM act s

end Act

variable {σ τ : Type} {R : σ → τ → Prop}

structure Matches (R : σ → τ → Prop) (a : Session σ) (b : Session τ) : Prop where
  results : a.results = b.results
  machine : a.bench.machine = b.bench.machine
  retired : a.bench.retired = b.bench.retired
  terminal : R a.bench.terminal b.bench.terminal

variable {a : Session σ} {b : Session τ}

theorem Matches.terminals (h : Matches R a b) :
    ∃ (m : Machine) (flags : List Bool) (rs : List (Except Fault Status)) (s : σ) (t : τ),
      a = ⟨⟨m, s, flags⟩, rs⟩ ∧ b = ⟨⟨m, t, flags⟩, rs⟩ ∧ R s t := by
  obtain ⟨⟨m, s, flags⟩, rs⟩ := a
  obtain ⟨⟨n, t, flags'⟩, rs'⟩ := b
  obtain ⟨rfl, rfl, rfl, hst⟩ := h
  exact ⟨_, _, _, _, _, rfl, rfl, hst⟩

variable [Device σ] [Device τ]

theorem Matches.act (hR : Machine.Simulation R) (h : Matches R a b) (x : Act) :
    Option.Rel (Matches R) (a.act x) (b.act x) := by
  obtain ⟨m, flags, rs, s, t, rfl, rfl, hst⟩ := h.terminals
  cases x with
  | step =>
    have hstep := hR.step hst m
    refine .some ⟨?_, hstep.machine, rfl, hstep.terminal⟩
    simp only [bring, Bench.step, hstep.result]
  | begin => exact .some ⟨rfl, rfl, rfl, hst⟩
  | run limit =>
    have hrun := hR.resume hst m.restart limit
    simp only [Session.act, Bench.run, Machine.run]
    generalize m.restart.resume limit s = x, m.restart.resume limit t = y at hrun
    cases hrun with
    | none => exact .none
    | some hturn =>
      refine .some ⟨?_, hturn.machine, rfl, hturn.terminal⟩
      simp only [bring, hturn.result]
  | fresh => exact .some ⟨rfl, rfl, rfl, hst⟩
  | flag handle up =>
    obtain ⟨own, flags', hset⟩ := Bench.exists_setFlag m flags handle up
    simp only [Session.act, hset]
    exact .some ⟨rfl, rfl, rfl, hst⟩

theorem Matches.acts (hR : Machine.Simulation R) (h : Matches R a b) (as : List Act) :
    Option.Rel (Matches R) (a.acts as) (b.acts as) := by
  induction as generalizing a b with
  | nil => exact .some h
  | cons x as ih =>
    have hact := h.act hR x
    simp only [Session.acts, List.foldlM_cons, Option.bind_eq_bind]
    generalize a.act x = a', b.act x = b' at hact
    cases hact with
    | none => exact .none
    | some h' => exact ih h'

end Session

end Simpletron
