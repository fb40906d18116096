import Mathlib.Logic.Function.Basic
import Simpletron.Proofs.Arithmetic

namespace Simpletron

structure Ideal : Type where
  cells : Fin 100 → Int
  ip : Nat := 0
  accumulator : Int := 0
  halted : Bool := false
  inputs : List Int
  outputs : Array Int := #[]

namespace Ideal

def boot (image inputs : List Int) : Ideal :=
  { cells := fun a => image.getD a 0, inputs := inputs }

def table : List (Int × Opcode) :=
  [(10, .read), (11, .write), (20, .load), (21, .store), (30, .add), (31, .subtract),
    (32, .divide), (33, .multiply), (40, .branch), (41, .branchNeg), (42, .branchZero), (43, .halt)]

def instruction? (s : Ideal) : Option (Opcode × Fin 100) :=
  if h : s.ip < 100 then
    let word := s.cells ⟨s.ip, h⟩
    (table.lookup (word / 100)).map fun op => (op, ⟨(word % 100).toNat, by omega⟩)
  else none

def keep (s : Ideal) (a : Fin 100) (v : Int) : Ideal × Option Int :=
  ({ s with cells := Function.update s.cells a v, ip := s.ip + 1 }, some v)

def assign (s : Ideal) (v : Int) : Ideal × Option Int :=
  ({ s with accumulator := v, ip := s.ip + 1 }, some v)

def jump (s : Ideal) (a : Nat) : Ideal × Option Int := ({ s with ip := a }, none)

/-- What an instruction leaves, and the value that it put in a cell or in the accumulator. -/
def perform (s : Ideal) (a : Fin 100) : Opcode → Option (Ideal × Option Int)
  | .read =>
    match s.inputs with
    | [] => none
    | v :: rest => some ({ s with inputs := rest }.keep a v)
  | .write => some ({ s with outputs := s.outputs.push (s.cells a), ip := s.ip + 1 }, none)
  | .load => some (s.assign (s.cells a))
  | .store => some (s.keep a s.accumulator)
  | .add => some (s.assign (s.accumulator + s.cells a))
  | .subtract => some (s.assign (s.accumulator - s.cells a))
  | .divide => if s.cells a = 0 then none else some (s.assign (s.accumulator.tdiv (s.cells a)))
  | .multiply => some (s.assign (s.accumulator * s.cells a))
  | .branch => some (s.jump a)
  | .branchNeg => some (s.jump (if s.accumulator < 0 then a else s.ip + 1))
  | .branchZero => some (s.jump (if s.accumulator = 0 then a else s.ip + 1))
  | .halt => some ({ s with halted := true }, none)

def next (s : Ideal) : Option (Ideal × Option Int) :=
  if s.halted then none else s.instruction?.bind fun (op, a) => s.perform a op

def after (s : Ideal) : Nat → Option Ideal
  | 0 => some s
  | n + 1 => (s.after n).bind fun s => s.next.map Prod.fst

def put? (s : Ideal) (n : Nat) : Option Int := (s.after n).bind fun s => s.next.bind Prod.snd

variable {s : Ideal} {op : Opcode} {a : Fin 100}

theorem lookup_table_iff {c : Int} : table.lookup c = some op ↔ op.code = c := by
  constructor
  · intro h
    obtain ⟨before, after, htable, -⟩ := List.lookup_eq_some_iff.mp h
    have hcodes : ∀ entry ∈ table, entry.2.code = entry.1 := by decide
    rw [htable] at hcodes
    exact hcodes (c, op) (List.mem_append_right _ List.mem_cons_self)
  · rintro rfl
    cases op <;> rfl

theorem instruction?_eq_some_iff :
    s.instruction? = some (op, a) ↔
      ∃ h : s.ip < 100, Instruction.Encodes (s.cells ⟨s.ip, h⟩) op a := by
  unfold instruction?
  by_cases h : s.ip < 100
  · have ha := a.isLt
    simp only [dif_pos h, Option.map_eq_some_iff, lookup_table_iff, Prod.mk.injEq,
      Fin.ext_iff, Instruction.Encodes]
    constructor
    · rintro ⟨_, hc, rfl, hv⟩
      exact ⟨h, ha, by omega⟩
    · rintro ⟨_, _, hw⟩
      exact ⟨op, by omega, rfl, by omega⟩
  · simp [h]

theorem perform_read {v : Int} {rest : List Int} (h : s.inputs = v :: rest) :
    s.perform a .read = some ({ s with inputs := rest }.keep a v) := by
  rw [perform, h]

theorem perform_of_result {v : Int} (h : op.result? s.accumulator (s.cells a) = some v) :
    s.perform a op = some (s.assign v) := by
  cases op <;> simp only [Opcode.result?, reduceCtorEq, Option.some.injEq] at h
  case load => rw [perform, h]
  case add => rw [perform, h]
  case subtract => rw [perform, h]
  case divide =>
    split at h
    · cases h
    · next hz =>
      cases h
      rw [perform, if_neg hz]
  case multiply => rw [perform, h]

theorem perform_of_taken {b : Bool} (h : op.taken? s.accumulator = some b) :
    s.perform a op = some (s.jump (if b then a else s.ip + 1)) := by
  cases op <;> simp only [Opcode.taken?, reduceCtorEq, Option.some.injEq] at h
  case branch =>
    subst h
    rfl
  case branchNeg =>
    subst h
    simp [perform]
  case branchZero =>
    subst h
    simp [perform]

theorem next_of_instruction (hh : s.halted = false) (hi : s.instruction? = some (op, a)) :
    s.next = s.perform a op := by
  simp [next, hh, hi]

end Ideal

end Simpletron
