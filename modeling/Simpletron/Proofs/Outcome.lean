import Simpletron.Proofs.Execution

namespace Simpletron.Machine

variable {τ : Type} {m : Machine} {t : τ}

def At (m : Machine) (op : Opcode) (a : Nat) : Prop :=
  ∃ h : m.ip < 100, Instruction.Encodes m.memory[m.ip].toInt op a

theorem At.ip_lt {op : Opcode} {a : Nat} (h : m.At op a) : m.ip < 100 := h.1

theorem At.operand_lt {op : Opcode} {a : Nat} (h : m.At op a) : a < 100 := h.2.1

theorem At.unique {op op' : Opcode} {a a' : Nat} (h : m.At op a) (h' : m.At op' a') :
    op = op' ∧ a = a' := by
  obtain ⟨_, h⟩ := h
  obtain ⟨_, h'⟩ := h'
  refine ⟨Opcode.code_injective ?_, ?_⟩
  · rw [← h.tdiv, h'.tdiv]
  · have := h.tmod.symm.trans h'.tmod
    omega

theorem fetch_of_lt (h : m.ip < 100) :
    m.fetch = Instruction.decode m.memory[m.ip].toInt m.ip := by
  simp [fetch, Memory.read_of_lt _ h]

theorem fetch_of_not_lt (h : ¬ m.ip < 100) : m.fetch = .error (.outsideMemory m.ip) := by
  simp [fetch, Memory.read_of_not_lt _ h]

theorem fetch_eq_ok_iff {i : Instruction} : m.fetch = .ok i ↔ m.At i.opcode i.operand.val := by
  by_cases h : m.ip < 100
  · rw [fetch_of_lt h, Instruction.decode_eq_ok_iff]
    exact ⟨fun hi => ⟨h, hi⟩, fun hi => hi.2⟩
  · rw [fetch_of_not_lt h]
    constructor
    · intro hi
      cases hi
    · intro hi
      exact absurd hi.ip_lt h

theorem fetch_eq_error_iff {f : Fault} :
    m.fetch = .error f ↔
      (¬ m.ip < 100 ∧ f = .outsideMemory m.ip) ∨
        ∃ h : m.ip < 100, (∀ op : Opcode, op.code ≠ m.memory[m.ip].toInt.tdiv 100) ∧
          f = .unknownOpcode (m.memory[m.ip].toInt.tdiv 100) m.ip := by
  by_cases h : m.ip < 100
  · rw [fetch_of_lt h, Instruction.decode_eq_error_iff]
    simp [h]
  · rw [fetch_of_not_lt h]
    simp [h, eq_comm]

theorem exists_fetch {op : Opcode} {a : Nat} (h : m.At op a) :
    ∃ i : Instruction, m.fetch = .ok i ∧ i.opcode = op ∧ i.operand.val = a := by
  have ha : a < UInt64.size := Nat.lt_trans h.operand_lt (by decide)
  exact ⟨⟨op, ⟨a, ha⟩⟩, fetch_eq_ok_iff.mpr h, rfl, rfl⟩

section Device

variable [Device τ]

inductive Completes (m : Machine) (t : τ) : Opcode → Nat → Machine → τ → Prop
  | read {a v} (ha : a < 100) : (Device.read t).result = .ok v → Word.InRange v →
      Completes m t .read a
        (((m.flag (m.interrupt || (Device.read t).raises)).remember
          (m.memory.set a ha (Int32.ofInt v))).advance)
        (Device.read t).terminal
  | write {a} (ha : a < 100) : (Device.write m.memory[a].toInt t).result = .ok () →
      Completes m t .write a
        ((m.flag (m.interrupt || (Device.write m.memory[a].toInt t).raises)).advance)
        (Device.write m.memory[a].toInt t).terminal
  | store {a} (ha : a < 100) : Word.InRange m.accumulator.toInt →
      Completes m t .store a ((m.remember (m.memory.set a ha m.accumulator)).advance) t
  | compute {op a v} (ha : a < 100) :
      op.result? m.accumulator.toInt m.memory[a].toInt = some v → Word.InRange v →
      Completes m t op a ((m.assign (Int32.ofInt v)).advance) t
  | jump {op a} : op.taken? m.accumulator.toInt = some true → Completes m t op a (m.jump a) t
  | pass {op a} : op.taken? m.accumulator.toInt = some false → Completes m t op a m.advance t
  | halt {a} : Completes m t .halt a (m.become .halted) t

inductive Fails (m : Machine) (t : τ) : Opcode → Nat → Fault → Machine → τ → Prop
  | read {a f} : (Device.read t).result = .error f →
      Fails m t .read a f (m.flag (m.interrupt || (Device.read t).raises)) (Device.read t).terminal
  | input {a v} : (Device.read t).result = .ok v → ¬ Word.InRange v →
      Fails m t .read a (.unfit v) (m.flag (m.interrupt || (Device.read t).raises))
        (Device.read t).terminal
  | write {a f} (ha : a < 100) : (Device.write m.memory[a].toInt t).result = .error f →
      Fails m t .write a f (m.flag (m.interrupt || (Device.write m.memory[a].toInt t).raises))
        (Device.write m.memory[a].toInt t).terminal
  | store {a} : ¬ Word.InRange m.accumulator.toInt →
      Fails m t .store a (.unfit m.accumulator.toInt) m t
  | compute {op a v} (ha : a < 100) :
      op.result? m.accumulator.toInt m.memory[a].toInt = some v → ¬ Word.InRange v →
      Fails m t op a (.unfit v) m t
  | divide {a} (ha : a < 100) : m.memory[a].toInt = 0 → Fails m t .divide a (.zeroDivisor a) m t

theorem flag_of_fails {n : Machine} {u : τ} {op : Opcode} {a : Nat} {f : Fault}
    (h : Fails m t op a f n u) : ∃ up, n = m.flag up := by
  cases h with
  | read _ => exact ⟨_, rfl⟩
  | input _ _ => exact ⟨_, rfl⟩
  | write _ _ => exact ⟨_, rfl⟩
  | store _ => exact ⟨m.interrupt, rfl⟩
  | compute _ _ _ => exact ⟨m.interrupt, rfl⟩
  | divide _ _ => exact ⟨m.interrupt, rfl⟩

inductive Performs (m : Machine) (t : τ) (op : Opcode) (a : Nat) :
    EStateM.Result Fault (Machine × τ) Unit → Prop
  | completes {n u} : Completes m t op a n u → Performs m t op a (.ok () (n, u))
  | fails {f n u} : Fails m t op a f n u → Performs m t op a (.error f (n, u))

theorem performs_of_result {op : Opcode} {a : Nat} (ha : a < 100) {v : Int}
    (hr : op.result? m.accumulator.toInt m.memory[a].toInt = some v) :
    Performs m t op a ((Action.perform op a).run (m, t)) := by
  rw [Action.run_perform_of_result ha hr]
  by_cases hv : Word.InRange v
  · rw [if_pos hv]
    exact .completes (.compute ha hr hv)
  · rw [if_neg hv]
    exact .fails (.compute ha hr hv)

theorem performs_of_taken {op : Opcode} {a : Nat} {b : Bool}
    (hb : op.taken? m.accumulator.toInt = some b) :
    Performs m t op a ((Action.perform op a).run (m, t)) := by
  rw [Action.run_perform_of_taken hb]
  cases b with
  | true => exact .completes (.jump hb)
  | false => exact .completes (.pass hb)

theorem performs_read (m : Machine) (t : τ) {a : Nat} (ha : a < 100) :
    Performs m t .read a ((Action.input a).run (m, t)) := by
  simp only [Action.run_input ha]
  cases hd : (Device.read t).result with
  | error f => exact .fails (.read hd)
  | ok v =>
    by_cases hv : Word.InRange v
    · simp only [if_pos hv]
      exact .completes (.read ha hd hv)
    · simp only [if_neg hv]
      exact .fails (.input hd hv)

theorem performs_write (m : Machine) (t : τ) {a : Nat} (ha : a < 100) :
    Performs m t .write a ((Action.output a).run (m, t)) := by
  simp only [Action.run_output ha]
  cases hd : (Device.write m.memory[a].toInt t).result with
  | error f => exact .fails (.write ha hd)
  | ok u => exact .completes (.write ha hd)

theorem performs_store (m : Machine) (t : τ) {a : Nat} (ha : a < 100) :
    Performs m t .store a ((Action.store a).run (m, t)) := by
  rw [Action.run_store ha]
  by_cases hv : Word.InRange m.accumulator.toInt
  · rw [if_pos hv]
    exact .completes (.store ha hv)
  · rw [if_neg hv]
    exact .fails (.store hv)

theorem performs_divide (m : Machine) (t : τ) {a : Nat} (ha : a < 100) :
    Performs m t .divide a ((Action.divide a).run (m, t)) := by
  by_cases hz : m.memory[a].toInt = 0
  · rw [Action.run_divide ha, if_pos hz]
    exact .fails (.divide ha hz)
  · exact performs_of_result ha (if_neg hz)

theorem performs (m : Machine) (t : τ) (op : Opcode) {a : Nat} (ha : a < 100) :
    Performs m t op a ((Action.perform op a).run (m, t)) := by
  cases op with
  | read => exact performs_read m t ha
  | write => exact performs_write m t ha
  | load => exact performs_of_result ha rfl
  | store => exact performs_store m t ha
  | add => exact performs_of_result ha rfl
  | subtract => exact performs_of_result ha rfl
  | divide => exact performs_divide m t ha
  | multiply => exact performs_of_result ha rfl
  | branch => exact performs_of_taken rfl
  | branchNeg => exact performs_of_taken rfl
  | branchZero => exact performs_of_taken rfl
  | halt => exact .completes .halt

theorem step_of_not_active (h : m.status ≠ .active) : m.step t = ⟨.error .notActive, m, t⟩ := by
  simp [step, h]

theorem step_of_raised (ha : m.status = .active) (hi : m.interrupt = true) :
    m.step t = ⟨.error .interrupted, m.become .faulted, t⟩ := by
  simp [step, ha, hi, conclude]

theorem step_of_fetch_error (ha : m.status = .active) (hi : m.interrupt = false) {f : Fault}
    (h : m.fetch = .error f) : m.step t = ⟨.error f, m.become .faulted, t⟩ := by
  simp [step, ha, hi, conclude, Action.run_cycle_error h]

theorem step_of_at (ha : m.status = .active) (hi : m.interrupt = false) {op : Opcode} {a : Nat}
    (h : m.At op a) : m.step t = conclude ((Action.perform op a).run (m, t)) := by
  obtain ⟨i, hf, rfl, rfl⟩ := exists_fetch h
  simp [step, ha, hi, Action.run_cycle_ok hf]

inductive Steps (m : Machine) (t : τ) : Turn τ → Prop
  | inactive : m.status ≠ .active → Steps m t ⟨.error .notActive, m, t⟩
  | interrupted : m.status = .active → m.interrupt = true →
      Steps m t ⟨.error .interrupted, m.become .faulted, t⟩
  | unfetched {f} : m.status = .active → m.interrupt = false → m.fetch = .error f →
      Steps m t ⟨.error f, m.become .faulted, t⟩
  | completed {op a n u} : m.status = .active → m.interrupt = false → m.At op a →
      Completes m t op a n u → Steps m t ⟨.ok n.status, n, u⟩
  | failed {op a f n u} : m.status = .active → m.interrupt = false → m.At op a →
      Fails m t op a f n u → Steps m t ⟨.error f, n.become .faulted, u⟩

theorem Performs.steps {op : Opcode} {a : Nat} {r : EStateM.Result Fault (Machine × τ) Unit}
    (h : Performs m t op a r) (ha : m.status = .active) (hi : m.interrupt = false)
    (hat : m.At op a) : Steps m t (conclude r) := by
  cases h with
  | completes hc => exact .completed ha hi hat hc
  | fails hf => exact .failed ha hi hat hf

theorem steps_step (m : Machine) (t : τ) : Steps m t (m.step t) := by
  by_cases ha : m.status = .active
  · cases hi : m.interrupt with
    | true =>
      rw [step_of_raised ha hi]
      exact .interrupted ha hi
    | false =>
      cases hf : m.fetch with
      | error f =>
        rw [step_of_fetch_error ha hi hf]
        exact .unfetched ha hi hf
      | ok i =>
        have hat := fetch_eq_ok_iff.mp hf
        rw [step_of_at ha hi hat]
        exact (performs m t i.opcode hat.operand_lt).steps ha hi hat
  · rw [step_of_not_active ha]
    exact .inactive ha

theorem Completes.run_eq {n : Machine} {u : τ} {op : Opcode} {a : Nat}
    (h : Completes m t op a n u) : (Action.perform op a).run (m, t) = .ok () (n, u) := by
  cases h with
  | read ha hd hv =>
    rw [Action.perform, Action.run_input ha]
    simp only [hd, if_pos hv]
  | write ha hd =>
    rw [Action.perform, Action.run_output ha]
    simp only [hd]
  | store ha hv => rw [Action.perform, Action.run_store ha, if_pos hv]
  | compute ha hr hv => rw [Action.run_perform_of_result ha hr, if_pos hv]
  | jump hb => rw [Action.run_perform_of_taken hb, if_pos rfl]
  | pass hb => rw [Action.run_perform_of_taken hb, if_neg Bool.false_ne_true]
  | halt => rfl

theorem Fails.run_eq {n : Machine} {u : τ} {op : Opcode} {a : Nat} {f : Fault} (ha : a < 100)
    (h : Fails m t op a f n u) : (Action.perform op a).run (m, t) = .error f (n, u) := by
  cases h with
  | read hd =>
    rw [Action.perform, Action.run_input ha]
    simp only [hd]
  | input hd hv =>
    rw [Action.perform, Action.run_input ha]
    simp only [hd, if_neg hv]
  | write ha hd =>
    rw [Action.perform, Action.run_output ha]
    simp only [hd]
  | store hv => rw [Action.perform, Action.run_store ha, if_neg hv]
  | compute ha hr hv => rw [Action.run_perform_of_result ha hr, if_neg hv]
  | divide ha hz => rw [Action.perform, Action.run_divide ha, if_pos hz]

theorem Steps.step_eq {turn : Turn τ} (h : Steps m t turn) : m.step t = turn := by
  cases h with
  | inactive hs => exact step_of_not_active hs
  | interrupted hs hi => exact step_of_raised hs hi
  | unfetched hs hi hf => exact step_of_fetch_error hs hi hf
  | completed hs hi hat hc =>
    rw [step_of_at hs hi hat, hc.run_eq]
    rfl
  | failed hs hi hat hf =>
    rw [step_of_at hs hi hat, hf.run_eq hat.operand_lt]
    rfl

theorem machine_of_error {turn : Turn τ} {f : Fault} (hstep : Steps m t turn)
    (h : turn.result = .error f) :
    (m.status ≠ .active ∧ f = .notActive ∧ turn.machine = m) ∨
      (m.status = .active ∧ ∃ up, turn.machine = (m.flag up).become .faulted) := by
  cases hstep with
  | inactive hs =>
    cases h
    exact .inl ⟨hs, rfl, rfl⟩
  | interrupted hs _ => exact .inr ⟨hs, m.interrupt, rfl⟩
  | unfetched hs _ _ => exact .inr ⟨hs, m.interrupt, rfl⟩
  | completed _ _ _ _ => cases h
  | failed hs _ _ hf =>
    obtain ⟨up, rfl⟩ := flag_of_fails hf
    exact .inr ⟨hs, up, rfl⟩

theorem exists_completes {turn : Turn τ} {s : Status} (hstep : Steps m t turn)
    (h : turn.result = .ok s) :
    ∃ op a, m.status = .active ∧ m.At op a ∧ turn.machine.status = s ∧
      Completes m t op a turn.machine turn.terminal := by
  cases hstep with
  | completed hs _ hat hc =>
    cases h
    exact ⟨_, _, hs, hat, rfl, hc⟩
  | _ => cases h

end Device

end Simpletron.Machine
