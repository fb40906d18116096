import Simpletron.Proofs.Calls
import Simpletron.Proofs.Ideal
import Simpletron.Proofs.Playback
import Simpletron.Proofs.Storage

namespace Simpletron.Ideal

def cellsOf (memory : Memory) (a : Fin 100) : Int := memory[a.val].toInt

def of (m : Machine) (s : Script) : Ideal where
  cells := cellsOf m.memory
  ip := m.ip
  accumulator := m.accumulator.toInt
  halted := m.status = .halted
  inputs := s.inputs
  outputs := s.outputs

variable {m n : Machine} {s u : Script} {op : Opcode} {a : Nat} {turn : Machine.Turn Script}

theorem cellsOf_set (memory : Memory) (ha : a < 100) (w : Word) :
    cellsOf (memory.set a ha w) = Function.update (cellsOf memory) ⟨a, ha⟩ w.toInt := by
  funext b
  by_cases hb : b = ⟨a, ha⟩
  · subst hb
    rw [Function.update_self, cellsOf, Memory.getElem_set_self]
  · have hne : a ≠ b.val := fun h => hb (Fin.ext h.symm)
    rw [Function.update_of_ne hb, cellsOf, Memory.getElem_set_ne _ ha w b.isLt hne, cellsOf]

theorem of_boot {image : List Int} {memory : Memory} (h : Memory.ofImage image = .ok memory)
    (inputs : List Int) : of (.boot memory) { inputs := inputs } = boot image inputs := by
  have hc : cellsOf memory = fun a : Fin 100 => image.getD a 0 := by
    funext a
    exact Memory.toInt_getElem_of_ofImage h a.isLt
  rw [of, boot, ← hc]
  rfl

theorem of_assign (m : Machine) (w : Word) (s : Script) :
    of ((m.assign w).advance) s = ((of m s).assign w.toInt).1 := rfl

theorem of_keep (m : Machine) (ha : a < 100) (w : Word) (s : Script) :
    of ((m.remember (m.memory.set a ha w)).advance) s = ((of m s).keep ⟨a, ha⟩ w.toInt).1 := by
  rw [of, keep, of, ← cellsOf_set]
  rfl

theorem perform_of_completes (ha : a < 100) (h : m.Completes s op a n u) :
    ∃ put, (of m s).perform ⟨a, ha⟩ op = some (of n u, put) ∧ ∀ v, put = some v → Word.InRange v := by
  cases h with
  | @read _ v _ hd hv =>
    obtain ⟨rest, hs, hu⟩ := Script.exists_inputs_of_read hd
    have hk := of_keep m ha (Int32.ofInt v) { s with inputs := rest }
    rw [Word.toInt_ofInt hv] at hk
    refine ⟨some v, ?_, ?_⟩
    · rw [perform_read (s := of m s) hs, hu]
      exact congrArg some (Prod.ext hk.symm rfl)
    · rintro _ ⟨⟩
      exact hv
  | write _ _ => exact ⟨none, rfl, nofun⟩
  | store _ hv =>
    refine ⟨some m.accumulator.toInt, ?_, ?_⟩
    · exact congrArg some (Prod.ext (of_keep m ha m.accumulator s).symm rfl)
    · rintro _ ⟨⟩
      exact hv
  | @compute _ _ v _ hr hv =>
    have hk := of_assign m (Int32.ofInt v) s
    rw [Word.toInt_ofInt hv] at hk
    refine ⟨some v, ?_, ?_⟩
    · rw [perform_of_result (s := of m s) (a := ⟨a, ha⟩) hr, hk]
      rfl
    · rintro _ ⟨⟩
      exact hv
  | jump hb =>
    refine ⟨none, ?_, nofun⟩
    rw [perform_of_taken (s := of m s) hb]
    rfl
  | pass hb =>
    refine ⟨none, ?_, nofun⟩
    rw [perform_of_taken (s := of m s) hb]
    rfl
  | halt => exact ⟨none, rfl, nofun⟩

theorem perform_of_fails {v : Int} (ha : a < 100) (h : m.Fails s op a (.unfit v) n u) :
    ∃ i, (of m s).perform ⟨a, ha⟩ op = some (i, some v) ∧ ¬ Word.InRange v := by
  cases h with
  | read hd => cases (Script.exhausted_of_read hd).1
  | input hd hv =>
    obtain ⟨rest, hs, _⟩ := Script.exists_inputs_of_read hd
    exact ⟨_, perform_read (s := of m s) hs, hv⟩
  | write _ hd => cases hd
  | store hv => exact ⟨_, rfl, hv⟩
  | compute _ hr hv => exact ⟨_, perform_of_result (s := of m s) (a := ⟨a, ha⟩) hr, hv⟩

theorem next_of_at (hs : m.status = .active) (hat : m.At op a) (s : Script) :
    (of m s).next = (of m s).perform ⟨a, hat.operand_lt⟩ op := by
  apply next_of_instruction
  · simp [of, hs]
  · exact instruction?_eq_some_iff.mpr hat

theorem next_of_ok {status : Status} (hstep : m.Steps s turn) (h : turn.result = .ok status) :
    ∃ put, (of m s).next = some (of turn.machine turn.terminal, put) ∧
      ∀ v, put = some v → Word.InRange v := by
  obtain ⟨op, a, hs, hat, _, hc⟩ := Machine.exists_completes hstep h
  rw [next_of_at hs hat]
  exact perform_of_completes hat.operand_lt hc

theorem next_of_unfit {v : Int} (hstep : m.Steps s turn) (h : turn.result = .error (.unfit v)) :
    ∃ i, (of m s).next = some (i, some v) ∧ ¬ Word.InRange v := by
  cases hstep with
  | inactive _ => cases h
  | interrupted _ _ => cases h
  | unfetched _ _ hf =>
    cases h
    obtain ⟨_, hf⟩ | ⟨_, _, hf⟩ := Machine.fetch_eq_error_iff.mp hf
    · cases hf
    · cases hf
  | completed _ _ _ _ => cases h
  | failed hs _ hat hf =>
    cases h
    rw [next_of_at hs hat]
    exact perform_of_fails hat.operand_lt hf

theorem after_of_ok (m : Machine) (s : Script) {k : Nat}
    (h : ∀ i < k, ∃ status, (m.call s i).result = .ok status) :
    (of m s).after k = some (of (m.after s k).1 (m.after s k).2) := by
  induction k with
  | zero => rfl
  | succ k ih =>
    obtain ⟨status, hk⟩ := h k (Nat.lt_succ_self k)
    obtain ⟨put, hnext, _⟩ := next_of_ok (Machine.steps_step _ _) hk
    rw [after, ih fun i hi => h i (Nat.lt_succ_of_lt hi), Option.bind_some, hnext]
    rfl

theorem put?_of_ok (m : Machine) (s : Script) {k : Nat}
    (h : ∀ i < k, ∃ status, (m.call s i).result = .ok status) {i : Nat} (hi : i < k) {v : Int}
    (hv : (of m s).put? i = some v) : Word.InRange v := by
  obtain ⟨status, hcall⟩ := h i hi
  obtain ⟨put, hnext, hput⟩ := next_of_ok (Machine.steps_step _ _) hcall
  rw [put?, after_of_ok m s fun j hj => h j (Nat.lt_trans hj hi), Option.bind_some, hnext] at hv
  exact hput v hv

theorem put?_of_unfit (m : Machine) (s : Script) {k : Nat}
    (h : ∀ i < k, ∃ status, (m.call s i).result = .ok status) {v : Int}
    (hv : (m.call s k).result = .error (.unfit v)) :
    (of m s).put? k = some v ∧ ¬ Word.InRange v := by
  obtain ⟨i, hnext, hfit⟩ := next_of_unfit (Machine.steps_step _ _) hv
  rw [put?, after_of_ok m s h, Option.bind_some, hnext]
  exact ⟨rfl, hfit⟩

theorem call_ne_unfit (m : Machine) (s : Script) {k : Nat}
    (h : ∀ i ≤ k, ∀ v, (of m s).put? i = some v → Word.InRange v) (v : Int) :
    (m.call s k).result ≠ .error (.unfit v) := by
  intro hv
  by_cases hok : ∀ i < k, ∃ status, (m.call s i).result = .ok status
  · obtain ⟨hput, hfit⟩ := put?_of_unfit m s hok hv
    exact hfit (h k (Nat.le_refl k) v hput)
  · push Not at hok
    obtain ⟨i, hi, hne⟩ := hok
    cases hcall : (m.call s i).result with
    | ok status => exact hne status hcall
    | error f =>
      rw [Machine.call_of_error hcall hi] at hv
      cases hv

theorem refines_ideal {image : List Int} {memory : Memory} (h : Memory.ofImage image = .ok memory)
    (inputs : List Int) (k : Nat) :
    let m := Machine.boot memory
    let s : Script := { inputs := inputs }
    let ideal := boot image inputs
    ((∀ i < k, ∃ status, (m.call s i).result = .ok status) →
      (∃ i, ideal.after k = some i ∧ i.ip = (m.after s k).1.ip ∧
        i.accumulator = (m.after s k).1.accumulator.toInt ∧
        (∀ a : Fin 100, i.cells a = (m.after s k).1.memory[a.val].toInt) ∧
        i.outputs = (m.after s k).2.outputs ∧ i.inputs = (m.after s k).2.inputs ∧
        (i.halted = true ↔ (m.after s k).1.status = .halted)) ∧
      (∀ i < k, ∀ v, ideal.put? i = some v → Word.InRange v) ∧
      ∀ v, (m.call s k).result = .error (.unfit v) → ideal.put? k = some v ∧ ¬ Word.InRange v) ∧
    ((∀ i ≤ k, ∀ v, ideal.put? i = some v → Word.InRange v) →
      ∀ v, (m.call s k).result ≠ .error (.unfit v)) := by
  intro m s ideal
  have hb : of m s = ideal := of_boot h inputs
  rw [← hb]
  refine ⟨?_, call_ne_unfit m s⟩
  intro hok
  refine ⟨⟨_, after_of_ok m s hok, rfl, rfl, fun _ => rfl, rfl, rfl, ?_⟩, ?_, ?_⟩
  · simp [of]
  · intro i hi v hv
    exact put?_of_ok m s hok hi hv
  · intro v hv
    exact put?_of_unfit m s hok hv

theorem refines_ideal_square :
    let memory := ((Memory.blank.set 0 (by decide) 1009).set 1 (by decide) 2009).set 2 (by decide) 3309
    let m := Machine.boot memory
    let s : Script := { inputs := [200, 7] }
    let ideal := boot [1009, 2009, 3309] [200, 7]
    (m.call s 2).result = .error (.unfit 40000) ∧ ideal.put? 2 = some 40000 ∧
      (∀ v, (m.call s 1).result ≠ .error (.unfit v)) ∧
      ∃ i, ideal.after 2 = some i ∧ i.ip = 2 ∧ i.accumulator = 200 ∧ i.inputs = [7] := by
  intro memory m s ideal
  have himage : Memory.ofImage [1009, 2009, 3309] = .ok memory := rfl
  have hcall : ∀ i < 2, (m.call s i).result = .ok .active := by decide
  have hfail : (m.call s 2).result = .error (.unfit 40000) := by decide
  have hok : ∀ i < 2, ∃ status, (m.call s i).result = .ok status := fun i hi => ⟨_, hcall i hi⟩
  obtain ⟨⟨i, hafter, hip, hacc, _, _, hin, _⟩, hput, hunfit⟩ :=
    (refines_ideal himage [200, 7] 2).1 hok
  have hfits := (refines_ideal himage [200, 7] 1).2 fun i hi => hput i (Nat.lt_succ_of_le hi)
  exact ⟨hfail, (hunfit _ hfail).1, hfits, i, hafter, hip.trans (by decide), hacc.trans (by decide),
    hin.trans (by decide)⟩

end Simpletron.Ideal
