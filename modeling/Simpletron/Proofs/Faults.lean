import Simpletron.Proofs.Reachable

namespace Simpletron.Machine

/-- The faults of an active machine whose flag is down. -/
inductive Faults {τ : Type} [Device τ] (m : Machine) (t : τ) : Fault → Prop
  | past_end : m.ip = 100 → Faults m t (.outsideMemory 100)
  | opcode (h : m.ip < 100) : (∀ op : Opcode, op.code ≠ m.memory[m.ip].toInt.tdiv 100) →
      Faults m t (.unknownOpcode (m.memory[m.ip].toInt.tdiv 100) m.ip)
  | read {a f} : m.At .read a → (Device.read t).result = .error f → Faults m t f
  | input {a v} : m.At .read a → (Device.read t).result = .ok v → ¬ Word.InRange v →
      Faults m t (.unfit v)
  | write {a f} (h : a < 100) : m.At .write a →
      (Device.write m.memory[a].toInt t).result = .error f → Faults m t f
  | divisor {a} (h : a < 100) : m.At .divide a → m.memory[a].toInt = 0 →
      Faults m t (.zeroDivisor a)
  | sum {a} (h : a < 100) : m.At .add a →
      ¬ Word.InRange (m.accumulator.toInt + m.memory[a].toInt) →
      Faults m t (.unfit (m.accumulator.toInt + m.memory[a].toInt))
  | difference {a} (h : a < 100) : m.At .subtract a →
      ¬ Word.InRange (m.accumulator.toInt - m.memory[a].toInt) →
      Faults m t (.unfit (m.accumulator.toInt - m.memory[a].toInt))
  | product {a} (h : a < 100) : m.At .multiply a →
      ¬ Word.InRange (m.accumulator.toInt * m.memory[a].toInt) →
      Faults m t (.unfit (m.accumulator.toInt * m.memory[a].toInt))

variable {τ : Type} [Device τ] {m n : Machine} {t u : τ} {op : Opcode} {a : Nat} {f : Fault}

namespace Faults

theorem of_fetch_error (hle : m.ip ≤ 100) (h : m.fetch = .error f) : Faults m t f := by
  obtain ⟨hlt, rfl⟩ | ⟨hlt, hop, rfl⟩ := fetch_eq_error_iff.mp h
  · have he : m.ip = 100 := Nat.le_antisymm hle (Nat.le_of_not_lt hlt)
    rw [he]
    exact .past_end he
  · exact .opcode hlt hop

/-- Only a sum, a difference or a product can be too large for a word: a word that is loaded is one
already, and a quotient is no larger than what was divided. -/
theorem of_unfit (hs : m.Sound) (hat : m.At op a) (ha : a < 100) {v : Int}
    (hr : op.result? m.accumulator.toInt m.memory[a].toInt = some v) (hv : ¬ Word.InRange v) :
    Faults m t (.unfit v) := by
  cases op <;> simp only [Opcode.result?, reduceCtorEq, Option.some.injEq] at hr
  case load =>
    subst hr
    exact absurd (hs.memory a ha) hv
  case add =>
    subst hr
    exact .sum ha hat hv
  case subtract =>
    subst hr
    exact .difference ha hat hv
  case divide =>
    split at hr
    · cases hr
    · cases hr
      exact absurd (hs.accumulator.tdiv _) hv
  case multiply =>
    subst hr
    exact .product ha hat hv

theorem of_fails (hs : m.Sound) (hat : m.At op a) (h : Fails m t op a f n u) : Faults m t f := by
  cases h with
  | read hd => exact .read hat hd
  | input hd hv => exact .input hat hd hv
  | write ha hd => exact .write ha hat hd
  | store hv => exact absurd hs.accumulator hv
  | compute ha hr hv => exact of_unfit hs hat ha hr hv
  | divide ha hz => exact .divisor ha hat hz

theorem of_error (hs : m.Sound) (ha : m.status = .active) (hi : m.interrupt = false)
    {turn : Turn τ} (hstep : Steps m t turn) (h : turn.result = .error f) : Faults m t f := by
  cases hstep with
  | inactive hna => exact absurd ha hna
  | interrupted _ hup =>
    rw [hi] at hup
    cases hup
  | unfetched _ _ hf =>
    cases h
    exact of_fetch_error hs.ip_le hf
  | completed _ _ _ _ => cases h
  | failed _ _ hat hf =>
    cases h
    exact of_fails hs hat hf

theorem error (ha : m.status = .active) (hi : m.interrupt = false) (h : Faults m t f) :
    (m.step t).result = .error f := by
  cases h with
  | past_end he =>
    have hlt : ¬ m.ip < 100 := by omega
    rw [step_of_fetch_error ha hi (fetch_of_not_lt hlt), he]
  | opcode hlt hop =>
    have hf := fetch_eq_error_iff.mpr (.inr ⟨hlt, hop, rfl⟩)
    rw [step_of_fetch_error ha hi hf]
  | read hat hd =>
    rw [step_of_at ha hi hat, Action.perform, Action.run_input hat.operand_lt]
    simp only [hd]
    rfl
  | input hat hd hv =>
    rw [step_of_at ha hi hat, Action.perform, Action.run_input hat.operand_lt]
    simp only [hd, if_neg hv]
    rfl
  | write hlt hat hd =>
    rw [step_of_at ha hi hat, Action.perform, Action.run_output hlt]
    simp only [hd]
    rfl
  | divisor hlt hat hz =>
    rw [step_of_at ha hi hat, Action.perform, Action.run_divide hlt, if_pos hz]
    rfl
  | sum hlt hat hv =>
    rw [step_of_at ha hi hat, Action.run_perform_of_result hlt rfl, if_neg hv]
    rfl
  | difference hlt hat hv =>
    rw [step_of_at ha hi hat, Action.run_perform_of_result hlt rfl, if_neg hv]
    rfl
  | product hlt hat hv =>
    rw [step_of_at ha hi hat, Action.run_perform_of_result hlt rfl, if_neg hv]
    rfl

theorem of_at (h : Faults m t f) (hat : m.At op a) :
    op ∈ [.read, .write, .add, .subtract, .multiply] ∨ (op = .divide ∧ f = .zeroDivisor a) := by
  cases h with
  | past_end he => exact absurd he (Nat.ne_of_lt hat.ip_lt)
  | opcode _ hop => exact absurd hat.2.tdiv.symm (hop op)
  | read hat' _ => simp [(hat.unique hat').1]
  | input hat' _ _ => simp [(hat.unique hat').1]
  | write _ hat' _ => simp [(hat.unique hat').1]
  | divisor _ hat' _ =>
    obtain ⟨rfl, rfl⟩ := hat.unique hat'
    exact .inr ⟨rfl, rfl⟩
  | sum _ hat' _ => simp [(hat.unique hat').1]
  | difference _ hat' _ => simp [(hat.unique hat').1]
  | product _ hat' _ => simp [(hat.unique hat').1]

theorem of_outsideMemory {b : Nat} (h : Faults m t (.outsideMemory b)) :
    (b = 100 ∧ m.ip = 100) ∨
      (∃ a, m.At .read a ∧ (Device.read t).result = .error (.outsideMemory b)) ∨
      ∃ (a : Nat) (_ : a < 100), m.At .write a ∧
        (Device.write m.memory[a].toInt t).result = .error (.outsideMemory b) := by
  cases h with
  | past_end he => exact .inl ⟨rfl, he⟩
  | read hat hd => exact .inr (.inl ⟨_, hat, hd⟩)
  | write hlt hat hd => exact .inr (.inr ⟨_, hlt, hat, hd⟩)

end Faults

/-- A step fails exactly where the table of faults says so. Loads, stores, branches and halts are not
in it, division only for its divisor, and location 100 is the only one outside that a machine itself
will name. -/
theorem step_error_iff_faults (hr : m.Reachable) (ha : m.status = .active)
    (hi : m.interrupt = false) (t : τ) :
    (∀ f, (m.step t).result = .error f ↔ Faults m t f) ∧
    (∀ op a, op ∈ [Opcode.load, .store, .branch, .branchNeg, .branchZero, .halt] → m.At op a →
      ∃ s, (m.step t).result = .ok s) ∧
    (∀ a v, m.At .divide a → (m.step t).result ≠ .error (.unfit v)) ∧
    (∀ b, (m.step t).result = .error (.outsideMemory b) →
      (b = 100 ∧ m.ip = 100) ∨
        (∃ a, m.At .read a ∧ (Device.read t).result = .error (.outsideMemory b)) ∨
        ∃ (a : Nat) (_ : a < 100), m.At .write a ∧
          (Device.write m.memory[a].toInt t).result = .error (.outsideMemory b)) := by
  have hiff : ∀ f, (m.step t).result = .error f ↔ Faults m t f := fun f =>
    ⟨Faults.of_error hr.sound ha hi (steps_step m t), Faults.error ha hi⟩
  refine ⟨hiff, ?_, ?_, ?_⟩
  · intro op a hop hat
    cases hres : (m.step t).result with
    | ok s => exact ⟨s, rfl⟩
    | error f =>
      obtain hop' | ⟨rfl, _⟩ := ((hiff f).mp hres).of_at hat
      · cases op <;> simp at hop hop'
      · simp at hop
  · intro a v hat hv
    obtain hop | ⟨_, hf⟩ := ((hiff _).mp hv).of_at hat
    · simp at hop
    · cases hf
  · intro b hb
    exact ((hiff _).mp hb).of_outsideMemory

theorem step_error_iff_faults_square :
    let memory := ((Memory.blank.set 0 (by decide) 2002).set 1 (by decide) 3302).set 2 (by decide) 200
    let script : Script := { inputs := [] }
    let m := ((boot memory).step script).machine
    m.Reachable ∧ m.status = .active ∧ m.interrupt = false ∧ Faults m script (.unfit 40000) := by
  intro memory script m
  have himage : Memory.ofImage [2002, 3302, 200] = .ok memory := rfl
  have hr : m.Reachable := .step script (.boot (.image himage))
  have hres : (m.step script).result = .error (.unfit 40000) := by decide
  obtain ⟨hiff, _⟩ := step_error_iff_faults hr (by decide) (by decide) script
  exact ⟨hr, by decide, by decide, (hiff _).mp hres⟩

end Simpletron.Machine
