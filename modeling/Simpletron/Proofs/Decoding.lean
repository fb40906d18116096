import Simpletron.Instruction

namespace Simpletron.Instruction

inductive Decodes (word : Int) (location : Nat) : Except Fault Instruction → Prop
  | instruction {i} : Encodes word i.opcode i.operand.val → Decodes word location (.ok i)
  | unknown : (∀ op a, ¬ Encodes word op a) →
      Decodes word location (.error (.unknownOpcode (word.tdiv 100) location))

variable {word word' : Int} {location : Nat} {op : Opcode} {a : Address}
  {i : Instruction} {r : Except Fault Instruction}

theorem Encodes.unique {n : Nat} (h : Encodes word op n) (h' : Encodes word' op n) : word = word' :=
  h.2.trans h'.2.symm

theorem Encodes.nonneg {n : Nat} (h : Encodes word op n) : 0 ≤ word := by
  obtain ⟨_, rfl⟩ := h
  have hpos := op.code_pos
  omega

theorem Encodes.inRange {n : Nat} (h : Encodes word op n) : Word.InRange word := by
  obtain ⟨hn, rfl⟩ := h
  have lower := op.code_pos
  have upper := op.code_le
  exact ⟨by omega, by omega⟩

theorem decode_eq_iff_decodes : decode word location = r ↔ Decodes word location r := by
  constructor
  · rintro rfl
    cases h : decode word location with
    | ok i => exact .instruction (decode_eq_ok_iff.mp h)
    | error f =>
      obtain ⟨hcode, rfl⟩ := decode_eq_error_iff.mp h
      exact .unknown fun op _ hw => hcode op hw.tdiv.symm
  · intro h
    cases h with
    | instruction hw => exact decode_eq_ok_iff.mpr hw
    | unknown hno =>
      refine decode_eq_error_iff.mpr ⟨fun op hop => ?_, rfl⟩
      have hw := encodes_of_ofCode? (Opcode.ofCode?_eq_some_iff.mpr hop)
      exact hno op _ hw

theorem exists_word (op : Opcode) (h : a.val < 100) (location : Nat) :
    ∃ w : Word, Word.InRange w.toInt ∧
      ∀ word, decode word location = .ok ⟨op, a⟩ ↔ word = w.toInt := by
  have hw : Encodes (100 * op.code + a.val) op a.val := ⟨h, rfl⟩
  have hrange := hw.inRange
  refine ⟨Int32.ofInt (100 * op.code + a.val), ?_, fun word => ?_⟩
  · rwa [Word.toInt_ofInt hrange]
  · rw [Word.toInt_ofInt hrange, decode_eq_ok_iff]
    exact ⟨fun h' => h'.unique hw, fun h' => h' ▸ hw⟩

structure Inverts (location : Nat) : Prop where
  decode_eq_iff : ∀ word r, decode word location = r ↔ Decodes word location r
  exists_word : ∀ (op : Opcode) (a : Address), a.val < 100 → ∃ w : Word, Word.InRange w.toInt ∧
    ∀ word, decode word location = .ok ⟨op, a⟩ ↔ word = w.toInt
  injective : ∀ word word' location' i, decode word location = .ok i →
    decode word' location' = .ok i → word = word'
  nonneg : ∀ word i, decode word location = .ok i → 0 ≤ word
  operand_eq : ∀ word i, decode word location = .ok i → (i.operand.val : Int) = word.tmod 100

theorem decode_inverts (location : Nat) : Inverts location where
  decode_eq_iff _ _ := decode_eq_iff_decodes
  exists_word op _ h := exists_word op h location
  injective _ _ _ _ h h' := (decode_eq_ok_iff.mp h).unique (decode_eq_ok_iff.mp h')
  nonneg _ _ h := (decode_eq_ok_iff.mp h).nonneg
  operand_eq _ _ h := (decode_eq_ok_iff.mp h).tmod.symm

example : decode (-1007) 0 = .error (.unknownOpcode (-10) 0) := rfl

end Simpletron.Instruction
