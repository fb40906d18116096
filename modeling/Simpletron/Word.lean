/-! Words: 32-bit numbers. A machine takes in only those that a sign and four decimal digits can
write, and checks every one. -/

namespace Simpletron

abbrev Word : Type := Int32

namespace Word

def InRange (v : Int) : Prop := -9999 ≤ v ∧ v ≤ 9999

instance (v : Int) : Decidable (InRange v) := inferInstanceAs (Decidable (_ ∧ _))

theorem inRange_zero : InRange (0 : Word).toInt := by decide

def ofInt? (v : Int) : Option Word :=
  if InRange v then some (Int32.ofInt v) else none

theorem toInt_ofInt {v : Int} (h : InRange v) : (Int32.ofInt v).toInt = v := by
  apply Int32.toInt_ofInt_of_le
  · exact Int.le_trans (by decide) h.1
  · exact Int.lt_of_le_of_lt h.2 (by decide)

theorem ofInt?_toInt {w : Word} (h : InRange w.toInt) : ofInt? w.toInt = some w := by
  simp [ofInt?, h]

theorem ofInt?_eq_some_iff {v : Int} {w : Word} : ofInt? v = some w ↔ InRange v ∧ w.toInt = v := by
  constructor
  · intro h
    unfold ofInt? at h
    split at h
    · next hv =>
      cases h
      exact ⟨hv, toInt_ofInt hv⟩
    · cases h
  · rintro ⟨hv, rfl⟩
    exact ofInt?_toInt hv

theorem ofInt?_eq_none_iff {v : Int} : ofInt? v = none ↔ ¬ InRange v := by
  simp [ofInt?]

end Word

end Simpletron
