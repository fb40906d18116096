import Simpletron.Proofs.Interruption
import Simpletron.Proofs.LifeCycle

namespace Simpletron

namespace Machine

variable {τ : Type} [Device τ] {m : Machine} {t : τ} {limit : Nat} {turn : Turn τ}

theorem restart_eq_boot (h : m.interrupt = false) : m.restart = boot m.memory := by
  rw [restart, boot, h]

theorem run_eq_some_iff (h : m.interrupt = false) :
    m.run limit t = some turn ↔
      ∃ n < limit, (boot m.memory).StopsAt t n ∧ (boot m.memory).call t n = turn := by
  rw [run, restart_eq_boot h, resume_eq_some_iff]

theorem run_eq_none_iff (h : m.interrupt = false) :
    (∀ limit, m.run limit t = none) ↔ ∀ n, ¬ (boot m.memory).StopsAt t n := by
  constructor
  · intro hnone n hstops
    have hsome := (run_eq_some_iff h).mpr ⟨n, Nat.lt_succ_self n, hstops, rfl⟩
    rw [hnone] at hsome
    cases hsome
  · intro hnever limit
    rw [Option.eq_none_iff_forall_ne_some]
    intro turn hturn
    obtain ⟨n, _, hstops, _⟩ := (run_eq_some_iff h).mp hturn
    exact hnever n hstops

theorem run_of_raised (h : m.interrupt = true) (hlimit : limit > 0) :
    m.run limit t = some ⟨.error .interrupted, m.restart.become .faulted, t⟩ :=
  (stopped_of_raised (m := m.restart) rfl h).run limit hlimit

end Machine

theorem Bench.run_fresh {τ : Type} [Device τ] {b : Bench τ} (h : b.machine.interrupt = false)
    (limit : Nat) :
    b.fresh.run limit =
      (b.run limit).map fun x => (x.1, { x.2 with retired := b.retired ++ [false] }) := by
  rw [run, run, fresh, Machine.run, Machine.run, Machine.restart_eq_boot h, h, Option.map_map]
  rfl

namespace Machine

variable {τ : Type} [Device τ]

/-- Running a machine is stepping a new one over its memory, at any device, and one that keeps a
record of its calls too. -/
structure RunsAsNew (m : Machine) (t : τ) : Prop where
  start : m.restart = boot m.memory
  ends : ∀ limit turn, m.run limit t = some turn ↔
    ∃ n < limit, (boot m.memory).StopsAt t n ∧ (boot m.memory).call t n = turn
  recorded : ∀ limit turn, m.run limit (Journal.mk t []) = some turn ↔
    ∃ n < limit, (boot m.memory).StopsAt t n ∧ (boot m.memory).call (Journal.mk t []) n = turn
  endless : (∀ limit, m.run limit t = none) ↔ ∀ n, ¬ (boot m.memory).StopsAt t n
  halted_or_faulted : ∀ n, (boot m.memory).StopsAt t n →
    ((boot m.memory).call t n).result = .ok .halted ∨
      ∃ f, ((boot m.memory).call t n).result = .error f
  fresh : ∀ flags limit, (Bench.fresh ⟨m, t, flags⟩).run limit =
    (Bench.run limit ⟨m, t, flags⟩).map fun x => (x.1, { x.2 with retired := flags ++ [false] })

theorem runsAsNew_of_lowered {m : Machine} (h : m.interrupt = false) (t : τ) : m.RunsAsNew t where
  start := restart_eq_boot h
  ends _ _ := run_eq_some_iff h
  recorded _ _ := by
    rw [run_eq_some_iff h]
    simp only [Journal.simulation.stopsAt_iff (s := ⟨t, []⟩) rfl]
  endless := run_eq_none_iff h
  halted_or_faulted n hstops :=
    (hstops.halted_or_faulted rfl).imp And.left fun ⟨f, hf, _⟩ => ⟨f, hf⟩
  fresh flags limit := Bench.run_fresh (b := ⟨m, t, flags⟩) h limit

theorem run_forgets_past (m : Machine) (t : τ) :
    (m.interrupt = false → m.RunsAsNew t) ∧
      (m.interrupt = true →
        (∀ limit > 0, m.run limit t =
          some ⟨.error .interrupted, { m with ip := 0, accumulator := 0, status := .faulted }, t⟩) ∧
        ∀ k, m.restart.calls t k = 0) := by
  refine ⟨fun h => runsAsNew_of_lowered h t, fun h => ⟨fun limit hlimit => ?_, ?_⟩⟩
  · exact run_of_raised h hlimit
  · exact (stopped_of_raised (m := m.restart) rfl h).quiet

theorem run_forgets_past_sum :
    let memory := ((Memory.blank.set 0 (by decide) 3002).set 1 (by decide) 4300).set 2 (by decide) 5
    let script : Script := { inputs := [] }
    let m := ((boot memory).call script 1).machine
    m.interrupt = false ∧ m.ip = 1 ∧ m.accumulator = 5 ∧ m.status = .halted ∧
      (∃ turn, m.run 9 script = some turn ∧ turn.result = .ok .halted ∧
        turn.machine.accumulator = 5) ∧
      (m.flag true).run 9 script =
        some ⟨.error .interrupted, ⟨m.memory, 0, 0, .faulted, true⟩, script⟩ := by
  intro memory script m
  have hlow : m.interrupt = false := by decide
  have hnew := (run_forgets_past m script).1 hlow
  have hstops : (boot m.memory).StopsAt script 1 := ⟨by decide, by decide⟩
  have hrun := (hnew.ends 9 _).mpr ⟨1, by decide, hstops, rfl⟩
  have hraised := (run_forgets_past (m.flag true) script).2 rfl
  exact ⟨hlow, by decide, by decide, by decide, ⟨_, hrun, by decide, by decide⟩,
    hraised.1 9 (by decide)⟩

end Machine

end Simpletron
