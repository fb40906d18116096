import Mathlib.Tactic.NormNum
import Simpletron.Instruction

namespace Simpletron

namespace Opcode

/-- The exact result of an instruction that computes one from the accumulator and a cell. There is
none for a divisor of zero. -/
def result? (acc cell : Int) : Opcode → Option Int
  | .load => some cell
  | .add => some (acc + cell)
  | .subtract => some (acc - cell)
  | .divide => if cell = 0 then none else some (acc.tdiv cell)
  | .multiply => some (acc * cell)
  | _ => none

def taken? (acc : Int) : Opcode → Option Bool
  | .branch => some true
  | .branchNeg => some (acc < 0)
  | .branchZero => some (acc = 0)
  | _ => none

end Opcode

namespace Word

theorem bmod_eq_self {v : Int} (h : v.natAbs ≤ 2 ^ 31 * 2 ^ 31) : v.bmod (2 ^ 64) = v := by
  norm_num at h
  exact Int.bmod_eq_of_le (by norm_num; omega) (by norm_num; omega)

theorem natAbs_toInt_le (w : Word) : w.toInt.natAbs ≤ 2 ^ 31 := by
  have lower := Int32.le_toInt w
  have upper := Int32.toInt_lt w
  omega

theorem toInt_wide_add (v w : Word) :
    (v.toInt64 + w.toInt64).toInt = v.toInt + w.toInt := by
  have hv := natAbs_toInt_le v
  have hw := natAbs_toInt_le w
  rw [Int64.toInt_add, Int32.toInt_toInt64, Int32.toInt_toInt64]
  exact bmod_eq_self (by omega)

theorem toInt_wide_sub (v w : Word) :
    (v.toInt64 - w.toInt64).toInt = v.toInt - w.toInt := by
  have hv := natAbs_toInt_le v
  have hw := natAbs_toInt_le w
  rw [Int64.toInt_sub, Int32.toInt_toInt64, Int32.toInt_toInt64]
  exact bmod_eq_self (by omega)

theorem toInt_wide_mul (v w : Word) :
    (v.toInt64 * w.toInt64).toInt = v.toInt * w.toInt := by
  have h : (v.toInt * w.toInt).natAbs ≤ 2 ^ 31 * 2 ^ 31 := by
    rw [Int.natAbs_mul]
    exact Nat.mul_le_mul (natAbs_toInt_le v) (natAbs_toInt_le w)
  rw [Int64.toInt_mul, Int32.toInt_toInt64, Int32.toInt_toInt64]
  exact bmod_eq_self h

theorem toInt_wide_div (v w : Word) :
    (v.toInt64 / w.toInt64).toInt = v.toInt.tdiv w.toInt := by
  have h := Nat.le_trans (Int.natAbs_tdiv_le_natAbs v.toInt w.toInt) (natAbs_toInt_le v)
  rw [Int64.toInt_div, Int32.toInt_toInt64, Int32.toInt_toInt64]
  exact bmod_eq_self (by omega)

theorem wide_eq_zero_iff {w : Word} : w.toInt64 = 0 ↔ w.toInt = 0 := by
  rw [← Int64.toInt_inj, Int32.toInt_toInt64, Int64.toInt_zero]

theorem InRange.tdiv {v : Int} (h : InRange v) (w : Int) : InRange (v.tdiv w) := by
  have := Int.natAbs_tdiv_le_natAbs v w
  simp only [InRange] at *
  omega

end Word

end Simpletron
