import Simpletron.Proofs.Calls
import Simpletron.Proofs.Outcome
import Simpletron.Proofs.Playback

namespace Simpletron.Machine

structure Unmoved (m n : Machine) : Prop where
  ip : n.ip = m.ip
  accumulator : n.accumulator = m.accumulator
  memory : n.memory = m.memory

variable {m : Machine} {f : Fault}

theorem unmoved_of_error {τ : Type} [Device τ] {t : τ} {turn : Turn τ} (hstep : Steps m t turn)
    (h : turn.result = .error f) : Unmoved m turn.machine := by
  obtain ⟨_, _, hm⟩ | ⟨_, up, hm⟩ := machine_of_error hstep h
  · rw [hm]
    exact ⟨rfl, rfl, rfl⟩
  · rw [hm]
    exact ⟨rfl, rfl, rfl⟩

theorem status_of_error {τ : Type} [Device τ] {t : τ} {turn : Turn τ} (hstep : Steps m t turn)
    (h : turn.result = .error f) :
    (m.status = .active ∧ turn.machine.status = .faulted) ∨
      (f = .notActive ∧ turn.machine.status = m.status) := by
  obtain ⟨_, hf, hm⟩ | ⟨hs, up, hm⟩ := machine_of_error hstep h
  · exact .inr ⟨hf, congrArg status hm⟩
  · exact .inl ⟨hs, congrArg status hm⟩

theorem script_of_fails {op : Opcode} {a : Nat} {n : Machine} {s u : Script}
    (h : Fails m s op a f n u) :
    (op = .read ∧ ∃ w, f = .unfit w ∧ s.inputs = w :: u.inputs ∧ u.outputs = s.outputs) ∨
      ((op = .read → ∀ w, f ≠ .unfit w) ∧ u = s) := by
  cases h with
  | read hd =>
    obtain ⟨rfl, hs⟩ := Script.exhausted_of_read hd
    exact .inr ⟨fun _ _ => nofun, hs⟩
  | @input _ v hd _ =>
    obtain ⟨rest, hs, hu⟩ := Script.exists_inputs_of_read hd
    rw [hu]
    exact .inl ⟨rfl, v, rfl, hs, rfl⟩
  | write _ hd => cases hd
  | store _ => exact .inr ⟨nofun, rfl⟩
  | compute _ hr _ =>
    refine .inr ⟨?_, rfl⟩
    rintro rfl
    cases hr
  | divide _ _ => exact .inr ⟨nofun, rfl⟩

theorem script_of_error {s : Script} {turn : Turn Script} (hstep : Steps m s turn)
    (h : turn.result = .error f) :
    ((∃ a, m.At .read a) ∧
      ∃ w, f = .unfit w ∧ s.inputs = w :: turn.terminal.inputs ∧ turn.terminal.outputs = s.outputs) ∨
      (((∃ a, m.At .read a) → ∀ w, f ≠ .unfit w) ∧ turn.terminal = s) := by
  cases hstep with
  | inactive _ =>
    cases h
    exact .inr ⟨fun _ _ => nofun, rfl⟩
  | interrupted _ _ =>
    cases h
    exact .inr ⟨fun _ _ => nofun, rfl⟩
  | unfetched _ _ hf =>
    cases h
    refine .inr ⟨?_, rfl⟩
    rintro ⟨a, hat⟩
    obtain ⟨i, hi, _⟩ := exists_fetch hat
    rw [hf] at hi
    cases hi
  | completed _ _ _ _ => cases h
  | failed _ _ hat hf =>
    cases h
    obtain ⟨rfl, hw⟩ | ⟨hne, hs⟩ := script_of_fails hf
    · exact .inl ⟨⟨_, hat⟩, hw⟩
    · refine .inr ⟨?_, hs⟩
      rintro ⟨a, hread⟩
      exact hne (hat.unique hread).1

/-- Of the inputs of a script, a step that faults takes none, except a `READ` the one that it finds
unfit. A run that faults stops where the last of its completed steps left it. -/
theorem step_error_atomic (m : Machine) :
    (∀ {τ : Type} [Device τ] (t : τ) (f : Fault), (m.step t).result = .error f →
      Unmoved m (m.step t).machine ∧
        ((m.status = .active ∧ (m.step t).machine.status = .faulted) ∨
          (f = .notActive ∧ (m.step t).machine.status = m.status))) ∧
    (∀ (s : Script) (f : Fault), (m.step s).result = .error f →
      (m.step s).terminal.outputs = s.outputs ∧
        (∀ w, (∃ a, m.At .read a) → f = .unfit w → s.inputs = w :: (m.step s).terminal.inputs) ∧
        (((∃ a, m.At .read a) → ∀ w, f ≠ .unfit w) → (m.step s).terminal.inputs = s.inputs)) ∧
    (∀ {τ : Type} [Device τ] (t : τ) (limit : Nat) (turn : Turn τ) (f : Fault),
      m.run limit t = some turn → turn.result = .error f →
        ∃ n, (∀ k < n, (m.restart.call t k).result = .ok .active) ∧ m.restart.call t n = turn ∧
          Unmoved (m.restart.after t n).1 turn.machine) := by
  refine ⟨?_, ?_, ?_⟩
  · intro τ _ t f h
    exact ⟨unmoved_of_error (steps_step m t) h, status_of_error (steps_step m t) h⟩
  · intro s f h
    obtain ⟨hread, w, rfl, hin, hout⟩ | ⟨hne, hs⟩ := script_of_error (steps_step m s) h
    · refine ⟨hout, ?_, ?_⟩
      · intro v _ hv
        cases hv
        exact hin
      · intro hne
        exact absurd rfl (hne hread w)
    · rw [hs]
      exact ⟨rfl, fun w hread hw => absurd hw (hne hread w), fun _ => rfl⟩
  · intro τ _ t limit turn f hrun h
    obtain ⟨n, rfl, _, hk⟩ := exists_call_of_resume hrun
    exact ⟨n, hk, rfl, unmoved_of_error (steps_step _ _) h⟩

theorem step_error_atomic_read :
    let m := boot (Memory.blank.set 0 (by decide) 1005)
    let script : Script := { inputs := [12345, 7] }
    (m.step script).result = .error (.unfit 12345) ∧ Unmoved m (m.step script).machine ∧
      (m.step script).machine.status = .faulted ∧ (m.step script).terminal.inputs = [7] ∧
      (m.step script).terminal.outputs = #[] := by
  intro m script
  have hr : (m.step script).result = .error (.unfit 12345) := by decide
  have hat : m.At .read 5 := ⟨by decide, by decide, by decide⟩
  obtain ⟨hdevice, hscript, _⟩ := step_error_atomic m
  obtain ⟨hm, hs | hs⟩ := hdevice script _ hr
  · obtain ⟨hout, hin, _⟩ := hscript script _ hr
    have htail := hin 12345 ⟨5, hat⟩ rfl
    injection htail with _ htail
    exact ⟨hr, hm, hs.2, htail.symm, hout⟩
  · cases hs.1

end Simpletron.Machine
