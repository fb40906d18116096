import Simpletron.Fault

namespace Simpletron

inductive Opcode : Type
  | read
  | write
  | load
  | store
  | add
  | subtract
  | divide
  | multiply
  | branch
  | branchNeg
  | branchZero
  | halt
  deriving DecidableEq

namespace Opcode

def code : Opcode → Int
  | .read => 10
  | .write => 11
  | .load => 20
  | .store => 21
  | .add => 30
  | .subtract => 31
  | .divide => 32
  | .multiply => 33
  | .branch => 40
  | .branchNeg => 41
  | .branchZero => 42
  | .halt => 43

def ofCode? : Int → Option Opcode
  | 10 => some .read
  | 11 => some .write
  | 20 => some .load
  | 21 => some .store
  | 30 => some .add
  | 31 => some .subtract
  | 32 => some .divide
  | 33 => some .multiply
  | 40 => some .branch
  | 41 => some .branchNeg
  | 42 => some .branchZero
  | 43 => some .halt
  | _ => none

@[simp] theorem ofCode?_code (op : Opcode) : ofCode? op.code = some op := by
  cases op <;> rfl

theorem code_of_ofCode? {c : Int} {op : Opcode} (h : ofCode? c = some op) : op.code = c := by
  unfold ofCode? at h
  split at h <;> cases h <;> rfl

theorem ofCode?_eq_some_iff {c : Int} {op : Opcode} : ofCode? c = some op ↔ op.code = c :=
  ⟨code_of_ofCode?, fun h => h ▸ ofCode?_code op⟩

theorem ofCode?_eq_none_iff {c : Int} : ofCode? c = none ↔ ∀ op : Opcode, op.code ≠ c := by
  simp only [Option.eq_none_iff_forall_ne_some, ne_eq, ofCode?_eq_some_iff]

theorem code_injective {op op' : Opcode} (h : op.code = op'.code) : op = op' := by
  have hop := ofCode?_code op
  rw [h, ofCode?_code] at hop
  exact (Option.some.inj hop).symm

theorem code_pos (op : Opcode) : 0 < op.code := by
  cases op <;> decide

theorem code_le (op : Opcode) : op.code ≤ 43 := by
  cases op <;> decide

end Opcode

/-- Any 64-bit number; the first hundred are locations. -/
abbrev Address : Type := Fin UInt64.size

/-- A number out of range wraps around, so that a negative one lands far from every location. -/
def Address.ofInt (v : Int) : Address :=
  ⟨(v % UInt64.size).toNat, by simp only [UInt64.size]; omega⟩

theorem Address.val_ofInt {v : Int} (lower : 0 ≤ v) (upper : v < UInt64.size) :
    ((ofInt v).val : Int) = v := by
  simp only [UInt64.size] at upper
  simp only [ofInt, UInt64.size]
  omega

structure Instruction : Type where
  opcode : Opcode
  operand : Address
  deriving DecidableEq

namespace Instruction

/-- Splits a word toward zero, so that no negative word holds an instruction. The location is where
the word was found; an unknown operation is reported there. -/
def decode (word : Int) (location : Nat) : Except Fault Instruction :=
  match Opcode.ofCode? (word.tdiv 100) with
  | some op => .ok ⟨op, .ofInt (word.tmod 100)⟩
  | none => .error (.unknownOpcode (word.tdiv 100) location)

def Encodes (word : Int) (op : Opcode) (a : Nat) : Prop := a < 100 ∧ word = 100 * op.code + a

theorem Encodes.tdiv {word : Int} {op : Opcode} {a : Nat} (h : Encodes word op a) :
    word.tdiv 100 = op.code := by
  obtain ⟨ha, hw⟩ := h
  have := op.code_pos
  rw [Int.tdiv_eq_ediv_of_nonneg (by omega)]
  omega

theorem Encodes.tmod {word : Int} {op : Opcode} {a : Nat} (h : Encodes word op a) :
    word.tmod 100 = a := by
  have hd := h.tdiv
  have := Int.mul_tdiv_add_tmod word 100
  obtain ⟨ha, hw⟩ := h
  omega

theorem encodes_of_ofCode? {word : Int} {op : Opcode}
    (h : Opcode.ofCode? (word.tdiv 100) = some op) :
    Encodes word op (Address.ofInt (word.tmod 100)).val := by
  have hc := Opcode.code_of_ofCode? h
  have hpos := op.code_pos
  have hsum := Int.mul_tdiv_add_tmod word 100
  have hlt := Int.tmod_lt_of_pos word (show (0 : Int) < 100 by decide)
  have hgt := Int.lt_tmod_of_pos word (show (0 : Int) < 100 by decide)
  have hle : 0 ≤ word.tmod 100 := Int.tmod_nonneg 100 (by omega)
  have hval := Address.val_ofInt hle (Int.lt_trans hlt (by decide))
  exact ⟨by omega, by omega⟩

theorem decode_eq_ok_iff {word : Int} {location : Nat} {i : Instruction} :
    decode word location = .ok i ↔ Encodes word i.opcode i.operand.val := by
  constructor
  · intro h
    unfold decode at h
    split at h
    · next op hop =>
      cases h
      exact encodes_of_ofCode? hop
    · cases h
  · intro h
    have ha : Address.ofInt (word.tmod 100) = i.operand := by
      apply Fin.ext
      rw [h.tmod]
      have := Address.val_ofInt (v := i.operand.val) (by omega) (by omega)
      omega
    simp [decode, h.tdiv, ha]

theorem decode_eq_error_iff {word : Int} {location : Nat} {f : Fault} :
    decode word location = .error f ↔
      (∀ op : Opcode, op.code ≠ word.tdiv 100) ∧ f = .unknownOpcode (word.tdiv 100) location := by
  rw [← Opcode.ofCode?_eq_none_iff]
  unfold decode
  cases Opcode.ofCode? (word.tdiv 100) <;> simp [eq_comm]

end Instruction

end Simpletron
