import Simpletron.Proofs.Atomicity

namespace Simpletron

/-- A completed instruction that moved a word between a cell and the terminal, or from the
accumulator into a cell: its operand and that word. -/
inductive Event : Type
  | read (a : Nat) (w : Word)
  | write (a : Nat) (w : Word)
  | store (a : Nat) (w : Word)
  deriving DecidableEq

namespace Event

def taken? : Event → Option Int
  | .read _ w => some w.toInt
  | .write _ _ | .store _ _ => none

def written? : Event → Option Int
  | .write _ w => some w.toInt
  | .read _ _ | .store _ _ => none

def put? (b : Nat) : Event → Option Word
  | .read a w | .store a w => if a = b then some w else none
  | .write _ _ => none

end Event

namespace Machine

section Cells

variable {τ : Type} [Device τ]

def moves (m : Machine) (t : τ) (a : Nat) : Opcode → Option Event
  | .read => (Device.read t).result.toOption.map fun v => .read a (Int32.ofInt v)
  | .write => (m.memory.read a).toOption.map (.write a)
  | .store => some (.store a m.accumulator)
  | .load | .add | .subtract | .divide | .multiply => none
  | .branch | .branchNeg | .branchZero | .halt => none

def event? (m : Machine) (t : τ) : Option Event :=
  match (m.step t).result, m.fetch with
  | .ok _, .ok i => m.moves t i.operand.val i.opcode
  | _, _ => none

def history (m : Machine) (t : τ) (n : Nat) : List Event :=
  (List.range n).filterMap fun k => (m.after t k).1.event? (m.after t k).2

inductive Leaves (m : Machine) (t : τ) : Opcode → Option Event → Memory → τ → Prop
  | read {a v} (ha : a < 100) : (Device.read t).result = .ok v → Word.InRange v →
      Leaves m t .read (some (.read a (Int32.ofInt v))) (m.memory.set a ha (Int32.ofInt v))
        (Device.read t).terminal
  | write {a} (ha : a < 100) :
      Leaves m t .write (some (.write a m.memory[a])) m.memory
        (Device.write m.memory[a].toInt t).terminal
  | store {a} (ha : a < 100) :
      Leaves m t .store (some (.store a m.accumulator)) (m.memory.set a ha m.accumulator) t
  | other {op} : op ≠ .read → op ≠ .write → op ≠ .store → Leaves m t op none m.memory t

variable {m n : Machine} {t u : τ} {op : Opcode} {a b : Nat} {s : Status} {f : Fault}
  {e : Option Event} {d : Memory}

theorem leaves_of_completes (hc : Completes m t op a n u) :
    Leaves m t op (m.moves t a op) n.memory u := by
  cases hc with
  | read ha hd hv =>
    rw [moves, hd]
    exact .read ha hd hv
  | write ha _ =>
    rw [moves, Memory.read_of_lt _ ha]
    exact .write ha
  | store ha _ => exact .store ha
  | compute _ hr _ => cases op <;> first | exact .other nofun nofun nofun | cases hr
  | jump ht => cases op <;> first | exact .other nofun nofun nofun | cases ht
  | pass ht => cases op <;> first | exact .other nofun nofun nofun | cases ht
  | halt => exact .other nofun nofun nofun

theorem event?_of_ok (hat : m.At op a) (h : (m.step t).result = .ok s) :
    m.event? t = m.moves t a op := by
  obtain ⟨i, hf, rfl, rfl⟩ := exists_fetch hat
  simp only [event?, h, hf]

theorem event?_of_error (h : (m.step t).result = .error f) : m.event? t = none := by
  simp only [event?, h]

theorem exists_leaves (h : (m.step t).result = .ok s) :
    ∃ op a, m.At op a ∧
      Leaves m t op (m.event? t) (m.step t).machine.memory (m.step t).terminal := by
  obtain ⟨op, a, _, hat, _, hc⟩ := exists_completes (steps_step m t) h
  rw [event?_of_ok hat h]
  exact ⟨op, a, hat, leaves_of_completes hc⟩

theorem Leaves.getElem (h : Leaves m t op e d u) (hb : b < 100) :
    d[b] = (e.bind (Event.put? b)).getD m.memory[b] := by
  have hset : ∀ {a} (ha : a < 100) (w : Word),
      (m.memory.set a ha w)[b] = (if a = b then some w else none).getD m.memory[b] := by
    intro a ha w
    by_cases hab : a = b
    · subst hab
      rw [Memory.getElem_set_self, if_pos rfl, Option.getD_some]
    · rw [Memory.getElem_set_ne _ ha w hb hab, if_neg hab, Option.getD_none]
  cases h with
  | read ha _ _ => exact hset ha _
  | store ha => exact hset ha _
  | write _ => rfl
  | other _ _ _ => rfl

theorem Leaves.memory (h : Leaves m t op e d u) (hr : op ≠ .read) (hs : op ≠ .store) :
    d = m.memory := by
  cases h with
  | read _ _ _ => exact absurd rfl hr
  | store _ => exact absurd rfl hs
  | write _ => rfl
  | other _ _ _ => rfl

theorem memory_step (m : Machine) (t : τ) (hat : m.At op a) (hr : op ≠ .read) (hs : op ≠ .store) :
    (m.step t).machine.memory = m.memory := by
  cases hres : (m.step t).result with
  | error f => exact (unmoved_of_error (steps_step m t) hres).memory
  | ok st =>
    obtain ⟨op', a', hat', h⟩ := exists_leaves hres
    obtain ⟨rfl, rfl⟩ := hat.unique hat'
    exact h.memory hr hs

theorem getElem_step_event (m : Machine) (t : τ) (hb : b < 100) :
    (m.step t).machine.memory[b] = ((m.event? t).bind (Event.put? b)).getD m.memory[b] := by
  cases hr : (m.step t).result with
  | error f =>
    rw [event?_of_error hr]
    simp only [(unmoved_of_error (steps_step m t) hr).memory]
    rfl
  | ok s =>
    obtain ⟨op, a, _, h⟩ := exists_leaves hr
    exact h.getElem hb

theorem filterMap_history_succ {β : Type} (f : Event → Option β) (m : Machine) (t : τ) (n : Nat) :
    (m.history t (n + 1)).filterMap f =
      (m.history t n).filterMap f ++
        (((m.after t n).1.event? (m.after t n).2).bind f).toList := by
  rw [history, List.range_succ, List.filterMap_append, List.filterMap_append, history]
  congr 1
  cases h : (m.after t n).1.event? (m.after t n).2 with
  | none => simp [h]
  | some e => cases hf : f e <;> simp [h, hf]

theorem getElem_after_history (m : Machine) (t : τ) (n : Nat) (hb : b < 100) :
    (m.after t n).1.memory[b] =
      ((m.history t n).filterMap (Event.put? b)).getLast?.getD m.memory[b] := by
  induction n with
  | zero => rfl
  | succ n ih =>
    rw [filterMap_history_succ, List.getLast?_append]
    simp only [after_succ, call]
    rw [getElem_step_event _ _ hb, ih]
    cases ((m.after t n).1.event? (m.after t n).2).bind (Event.put? b) <;> rfl

end Cells

section Script

variable {m : Machine} {s u : Script} {op : Opcode} {e : Option Event} {d : Memory} {f : Fault}
  {a n k : Nat}

theorem Leaves.outputs (h : Leaves m s op e d u) :
    u.outputs.toList = s.outputs.toList ++ (e.bind Event.written?).toList := by
  cases h with
  | read _ hd _ =>
    obtain ⟨rest, _, hu⟩ := Script.exists_inputs_of_read hd
    rw [hu]
    exact (List.append_nil _).symm
  | write _ => exact Array.toList_push
  | store _ => exact (List.append_nil _).symm
  | other _ _ _ => exact (List.append_nil _).symm

theorem Leaves.outputs_eq (h : Leaves m s op e d u) (hw : op ≠ .write) : u.outputs = s.outputs := by
  cases h with
  | read _ hd _ =>
    obtain ⟨rest, _, hu⟩ := Script.exists_inputs_of_read hd
    rw [hu]
  | write _ => exact absurd rfl hw
  | store _ => rfl
  | other _ _ _ => rfl

theorem Leaves.inputs (h : Leaves m s op e d u) :
    s.inputs = (e.bind Event.taken?).toList ++ u.inputs := by
  cases h with
  | read _ hd hv =>
    obtain ⟨rest, hs, hu⟩ := Script.exists_inputs_of_read hd
    rw [hu, hs, Option.bind_some, Event.taken?, Word.toInt_ofInt hv]
    rfl
  | write _ => rfl
  | store _ => rfl
  | other _ _ _ => rfl

theorem outputs_of_error (h : (m.step s).result = .error f) :
    (m.step s).terminal.outputs = s.outputs := by
  obtain ⟨_, _, _, _, hout⟩ | ⟨_, hs⟩ := script_of_error (steps_step m s) h
  · exact hout
  · rw [hs]

theorem outputs_step (m : Machine) (s : Script) :
    (m.step s).terminal.outputs.toList =
      s.outputs.toList ++ ((m.event? s).bind Event.written?).toList := by
  cases hr : (m.step s).result with
  | error f =>
    rw [event?_of_error hr, outputs_of_error hr]
    exact (List.append_nil _).symm
  | ok st =>
    obtain ⟨op, a, _, h⟩ := exists_leaves hr
    exact h.outputs

theorem outputs_step_of_ne (hat : m.At op a) (hw : op ≠ .write) :
    (m.step s).terminal.outputs = s.outputs := by
  cases hr : (m.step s).result with
  | error f => exact outputs_of_error hr
  | ok st =>
    obtain ⟨op', a', hat', h⟩ := exists_leaves hr
    obtain ⟨rfl, rfl⟩ := hat.unique hat'
    exact h.outputs_eq hw

def Refuses (m : Machine) (s : Script) (w : Int) : Prop :=
  (∃ a, m.At .read a) ∧ (m.step s).result = .error (.unfit w)

theorem inputs_step (m : Machine) (s : Script) :
    ∃ surplus : Option Int,
      s.inputs =
        ((m.event? s).bind Event.taken?).toList ++ surplus.toList ++ (m.step s).terminal.inputs ∧
      ∀ w, surplus = some w ↔ m.Refuses s w := by
  cases hr : (m.step s).result with
  | error f =>
    rw [event?_of_error hr]
    obtain ⟨hread, v, rfl, hin, _⟩ | ⟨hne, hs⟩ := script_of_error (steps_step m s) hr
    · refine ⟨some v, hin, fun w => ⟨?_, ?_⟩⟩
      · rintro ⟨⟩
        exact ⟨hread, hr⟩
      · rintro ⟨_, hw⟩
        cases hr.symm.trans hw
        rfl
    · refine ⟨none, by rw [hs]; rfl, fun w => ⟨nofun, ?_⟩⟩
      rintro ⟨hread, hw⟩
      cases hr.symm.trans hw
      exact absurd rfl (hne hread w)
  | ok st =>
    obtain ⟨op, a, _, h⟩ := exists_leaves hr
    refine ⟨none, ?_, fun w => ⟨nofun, fun hw => ?_⟩⟩
    · rw [Option.toList_none, List.append_nil]
      exact h.inputs
    · cases hr.symm.trans hw.2

theorem outputs_after (m : Machine) (s : Script) (n : Nat) :
    (m.after s n).2.outputs.toList =
      s.outputs.toList ++ (m.history s n).filterMap Event.written? := by
  induction n with
  | zero => exact (List.append_nil _).symm
  | succ n ih =>
    rw [filterMap_history_succ, ← List.append_assoc, ← ih]
    exact outputs_step _ _

structure LastOf (m : Machine) (s : Script) (n k : Nat) : Prop where
  lt : k < n
  active : (m.after s k).1.status = .active
  later : ∀ i, k < i → i < n → (m.after s i).1.status ≠ .active

theorem lastOf_succ_of_active (h : (m.after s n).1.status = .active) :
    m.LastOf s (n + 1) k ↔ k = n := by
  constructor
  · intro hk
    by_contra hne
    exact hk.later n (Nat.lt_of_le_of_ne (Nat.le_of_lt_succ hk.lt) hne) (Nat.lt_succ_self n) h
  · rintro rfl
    exact ⟨Nat.lt_succ_self k, h, fun i hi hlt => by omega⟩

theorem lastOf_succ_of_not_active (h : (m.after s n).1.status ≠ .active) :
    m.LastOf s (n + 1) k ↔ m.LastOf s n k := by
  constructor
  · intro hk
    have hne : k ≠ n := by
      rintro rfl
      exact h hk.active
    exact ⟨Nat.lt_of_le_of_ne (Nat.le_of_lt_succ hk.lt) hne, hk.active,
      fun i hi hlt => hk.later i hi (Nat.lt_succ_of_lt hlt)⟩
  · intro hk
    refine ⟨Nat.lt_succ_of_lt hk.lt, hk.active, fun i hi hlt => ?_⟩
    obtain hlt | rfl := Nat.lt_succ_iff_lt_or_eq.mp hlt
    · exact hk.later i hi hlt
    · exact h

/-- At most one input is taken in vain, because the machine does not go on after it. -/
theorem inputs_after (m : Machine) (s : Script) (n : Nat) :
    ∃ surplus : Option Int,
      s.inputs =
        (m.history s n).filterMap Event.taken? ++ surplus.toList ++ (m.after s n).2.inputs ∧
      ∀ w, surplus = some w ↔
        ∃ k, m.LastOf s n k ∧ (m.after s k).1.Refuses (m.after s k).2 w := by
  induction n with
  | zero => exact ⟨none, rfl, fun w => ⟨nofun, fun ⟨k, hk, _⟩ => absurd hk.lt (Nat.not_lt_zero k)⟩⟩
  | succ n ih =>
    obtain ⟨surplus, hin, hsurplus⟩ := ih
    by_cases hs : (m.after s n).1.status = .active
    · -- A refused input would have stopped the machine before.
      have hnone : surplus = none := by
        cases surplus with
        | none => rfl
        | some w =>
          obtain ⟨k, hk, hrefuses⟩ := (hsurplus w).mp rfl
          cases (result_of_later_active hs hk.lt).symm.trans hrefuses.2
      obtain ⟨surplus', hnext, hsurplus'⟩ := inputs_step (m.after s n).1 (m.after s n).2
      refine ⟨surplus', ?_, fun w => (hsurplus' w).trans ?_⟩
      · rw [hin, hnone, hnext, filterMap_history_succ, after_succ, call]
        simp
      · simp only [lastOf_succ_of_active hs, exists_eq_left]
    · have hstill : m.after s (n + 1) = m.after s n := after_of_not_active hs (Nat.le_succ n)
      have hevent : (m.after s n).1.event? (m.after s n).2 = none :=
        event?_of_error (congrArg Turn.result (step_of_not_active hs))
      refine ⟨surplus, ?_, fun w => (hsurplus w).trans ?_⟩
      · rw [hin, hstill, filterMap_history_succ, hevent]
        simp
      · simp only [lastOf_succ_of_not_active hs]

structure Accounts (m : Machine) (s : Script) (n : Nat) : Prop where
  outputs : (m.after s n).2.outputs.toList =
    s.outputs.toList ++ (m.history s n).filterMap Event.written?
  inputs : ∃ surplus : Option Int,
    s.inputs =
      (m.history s n).filterMap Event.taken? ++ surplus.toList ++ (m.after s n).2.inputs ∧
    ∀ w, surplus = some w ↔
      ∃ k, m.LastOf s n k ∧ (m.after s k).1.Refuses (m.after s k).2 w
  cells : ∀ (a : Nat) (_ : a < 100), (m.after s n).1.memory[a] =
    ((m.history s n).filterMap (Event.put? a)).getLast?.getD m.memory[a]
  memory : ∀ k < n, ∀ op a, (m.after s k).1.At op a → op ≠ .read → op ≠ .store →
    (m.call s k).machine.memory = (m.after s k).1.memory
  written : ∀ k < n, ∀ op a, (m.after s k).1.At op a → op ≠ .write →
    (m.call s k).terminal.outputs = (m.after s k).2.outputs
  failed : ∀ k < n, ∀ f, (m.call s k).result = .error f →
    (m.call s k).machine.memory = (m.after s k).1.memory ∧
      (m.call s k).terminal.outputs = (m.after s k).2.outputs

theorem history_accounts (m : Machine) (s : Script) (n : Nat) : m.Accounts s n where
  outputs := outputs_after m s n
  inputs := inputs_after m s n
  cells _ ha := getElem_after_history m s n ha
  memory _ _ _ _ hat hr hs := memory_step _ _ hat hr hs
  written _ _ _ _ hat hw := outputs_step_of_ne hat hw
  failed _ _ _ hf := ⟨(unmoved_of_error (steps_step _ _) hf).memory, outputs_of_error hf⟩

example :
    let m := boot (((((Memory.blank.set 0 (by decide) 1005).set 1 (by decide) 1105).set 2
      (by decide) 2005).set 3 (by decide) 2106).set 4 (by decide) 1005)
    let s : Script := { inputs := [7, 12345, 9] }
    m.history s 6 = [.read 5 7, .write 5 7, .store 6 7] ∧ (m.after s 6).2.inputs = [9] := by
  decide

end Script

end Machine

end Simpletron
