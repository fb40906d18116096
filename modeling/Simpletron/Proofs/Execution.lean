import Simpletron.Machine
import Simpletron.Proofs.Arithmetic

namespace Simpletron.Machine

variable {τ α : Type} {m : Machine} {t : τ}

@[simp] theorem flag_memory (up : Bool) : (m.flag up).memory = m.memory := rfl

namespace Action

@[simp] theorem run_machine : (machine : Action τ Machine).run (m, t) = .ok m (m, t) := rfl

@[simp] theorem run_update (f : Machine → Machine) :
    (update f : Action τ Unit).run (m, t) = .ok () (f m, t) := rfl

@[simp] theorem run_ofExcept_ok (a : α) :
    (ofExcept (.ok a : Except Fault α) : Action τ α).run (m, t) = .ok a (m, t) := rfl

@[simp] theorem run_ofExcept_error (f : Fault) :
    (ofExcept (.error f : Except Fault α) : Action τ α).run (m, t) = .error f (m, t) := rfl

@[simp] theorem run_throw (f : Fault) :
    (throw f : Action τ α).run (m, t) = .error f (m, t) := rfl

@[simp] theorem run_advance : (advance : Action τ Unit).run (m, t) = .ok () (m.advance, t) := rfl

@[simp] theorem run_jump (a : Nat) : (jump a : Action τ Unit).run (m, t) = .ok () (m.jump a, t) := rfl

@[simp] theorem run_halt : (halt : Action τ Unit).run (m, t) = .ok () (m.become .halted, t) := rfl

theorem run_call (f : τ → Reply Fault τ α) :
    (call f).run (m, t) =
      match (f t).result with
      | .ok v => .ok v (m.flag (m.interrupt || (f t).raises), (f t).terminal)
      | .error e => .error e (m.flag (m.interrupt || (f t).raises), (f t).terminal) := by
  simp only [call, EStateM.run_bind, EStateM.run_get, EStateM.run_set]
  cases (f t).result <;> rfl

theorem run_cell {a : Nat} (ha : a < 100) :
    (cell a : Action τ Word).run (m, t) = .ok m.memory[a] (m, t) := by
  simp [cell, Memory.read_of_lt _ ha]

theorem run_keep {a : Nat} (ha : a < 100) (v : Int) :
    (keep a v : Action τ Unit).run (m, t) =
      if Word.InRange v then .ok () (m.remember (m.memory.set a ha (Int32.ofInt v)), t)
      else .error (.unfit v) (m, t) := by
  by_cases hv : Word.InRange v <;> simp [keep, Memory.write_of_lt ha, hv]

theorem run_accumulate {v : Int64} {x : Int} (exact : v.toInt = x) :
    (accumulate v : Action τ Unit).run (m, t) =
      if Word.InRange x then .ok () (m.assign (Int32.ofInt x), t)
      else .error (.unfit x) (m, t) := by
  subst exact
  rw [Int32.ofInt_int64ToInt]
  unfold accumulate
  split <;> rfl

theorem run_accumulate_advance {v : Int64} {x : Int} (exact : v.toInt = x) :
    (do accumulate v; advance : Action τ Unit).run (m, t) =
      if Word.InRange x then .ok () ((m.assign (Int32.ofInt x)).advance, t)
      else .error (.unfit x) (m, t) := by
  rw [EStateM.run_bind, run_accumulate exact]
  by_cases hx : Word.InRange x <;> simp [hx]

theorem run_input [Device τ] {a : Nat} (ha : a < 100) :
    (input a : Action τ Unit).run (m, t) =
      let reply := Device.read t
      let n := m.flag (m.interrupt || reply.raises)
      match reply.result with
      | .ok v =>
        if Word.InRange v then
          .ok () ((n.remember (m.memory.set a ha (Int32.ofInt v))).advance, reply.terminal)
        else .error (.unfit v) (n, reply.terminal)
      | .error f => .error f (n, reply.terminal) := by
  simp only [input, EStateM.run_bind, run_call]
  cases (Device.read t).result with
  | error f => rfl
  | ok v => by_cases hv : Word.InRange v <;> simp [run_keep ha, hv]

theorem run_output [Device τ] {a : Nat} (ha : a < 100) :
    (output a : Action τ Unit).run (m, t) =
      let reply := Device.write m.memory[a].toInt t
      let n := m.flag (m.interrupt || reply.raises)
      match reply.result with
      | .ok () => .ok () (n.advance, reply.terminal)
      | .error f => .error f (n, reply.terminal) := by
  simp only [output, EStateM.run_bind, run_cell ha, run_call]
  cases (Device.write m.memory[a].toInt t).result <;> rfl

theorem run_load {a : Nat} (ha : a < 100) :
    (load a : Action τ Unit).run (m, t) =
      if Word.InRange m.memory[a].toInt then .ok () ((m.assign m.memory[a]).advance, t)
      else .error (.unfit m.memory[a].toInt) (m, t) := by
  rw [load, EStateM.run_bind, run_cell ha]
  dsimp only
  rw [run_accumulate_advance (Int32.toInt_toInt64 _), Int32.ofInt_toInt]

theorem run_store {a : Nat} (ha : a < 100) :
    (store a : Action τ Unit).run (m, t) =
      if Word.InRange m.accumulator.toInt then
        .ok () ((m.remember (m.memory.set a ha m.accumulator)).advance, t)
      else .error (.unfit m.accumulator.toInt) (m, t) := by
  by_cases hv : Word.InRange m.accumulator.toInt <;> simp [store, run_keep ha, hv]

theorem run_combine {op : Int64 → Int64 → Int64} {f : Int → Int → Int}
    (exact : ∀ v w : Word, (op v.toInt64 w.toInt64).toInt = f v.toInt w.toInt) {a : Nat}
    (ha : a < 100) :
    (combine op a : Action τ Unit).run (m, t) =
      let v := f m.accumulator.toInt m.memory[a].toInt
      if Word.InRange v then .ok () ((m.assign (Int32.ofInt v)).advance, t)
      else .error (.unfit v) (m, t) := by
  rw [combine, EStateM.run_bind, run_machine]
  dsimp only
  rw [EStateM.run_bind, run_cell ha]
  exact run_accumulate_advance (exact _ _)

theorem run_divide {a : Nat} (ha : a < 100) :
    (divide a : Action τ Unit).run (m, t) =
      let v := m.accumulator.toInt.tdiv m.memory[a].toInt
      if m.memory[a].toInt = 0 then .error (.zeroDivisor a) (m, t)
      else if Word.InRange v then .ok () ((m.assign (Int32.ofInt v)).advance, t)
      else .error (.unfit v) (m, t) := by
  rw [divide, EStateM.run_bind, run_cell ha]
  dsimp only
  by_cases hz : m.memory[a].toInt = 0
  · rw [if_pos (Word.wide_eq_zero_iff.mpr hz), if_pos hz]
    rfl
  · rw [if_neg (mt Word.wide_eq_zero_iff.mp hz), if_neg hz, EStateM.run_bind, run_machine]
    dsimp only
    rw [run_accumulate_advance (Word.toInt_wide_div _ _)]

theorem run_branchIf (test : Word → Bool) {b : Bool} (h : test m.accumulator = b) (a : Nat) :
    (branchIf test a : Action τ Unit).run (m, t) =
      .ok () (if b then m.jump a else m.advance, t) := by
  cases b <;> simp [branchIf, h]

theorem run_perform_of_result [Device τ] {op : Opcode} {a : Nat} (ha : a < 100) {v : Int}
    (h : op.result? m.accumulator.toInt m.memory[a].toInt = some v) :
    (perform op a).run (m, t) =
      if Word.InRange v then .ok () ((m.assign (Int32.ofInt v)).advance, t)
      else .error (.unfit v) (m, t) := by
  cases op <;> simp only [Opcode.result?, reduceCtorEq, Option.some.injEq] at h
  case load =>
    subst h
    rw [Int32.ofInt_toInt]
    exact run_load ha
  case add =>
    subst h
    exact run_combine Word.toInt_wide_add ha
  case subtract =>
    subst h
    exact run_combine Word.toInt_wide_sub ha
  case divide =>
    split at h
    · cases h
    · next hz =>
      cases h
      rw [perform, run_divide ha, if_neg hz]
  case multiply =>
    subst h
    exact run_combine Word.toInt_wide_mul ha

theorem run_perform_of_taken [Device τ] {op : Opcode} {b : Bool}
    (h : op.taken? m.accumulator.toInt = some b) (a : Nat) :
    (perform op a).run (m, t) = .ok () (if b then m.jump a else m.advance, t) := by
  cases op <;> simp only [Opcode.taken?, reduceCtorEq, Option.some.injEq] at h
  case branch =>
    subst h
    rfl
  case branchNeg =>
    have hb : decide (m.accumulator < 0) = b := by
      rw [← h, decide_eq_decide, Int32.lt_iff_toInt_lt, Int32.toInt_zero]
    exact run_branchIf (· < 0) hb a
  case branchZero =>
    have hb : decide (m.accumulator = 0) = b := by
      rw [← h, decide_eq_decide, ← Int32.toInt_inj, Int32.toInt_zero]
    exact run_branchIf (· = 0) hb a

theorem run_cycle_ok [Device τ] {i : Instruction} (h : m.fetch = .ok i) :
    (cycle : Action τ Unit).run (m, t) = (perform i.opcode i.operand.val).run (m, t) := by
  simp [cycle, h]

theorem run_cycle_error [Device τ] {f : Fault} (h : m.fetch = .error f) :
    (cycle : Action τ Unit).run (m, t) = .error f (m, t) := by
  simp [cycle, h]

end Action

end Simpletron.Machine
