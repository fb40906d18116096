namespace Simpletron.Text.Numeral

def digits? (ds : List Char) : Option Nat :=
  if ds ≠ [] ∧ ds.all Char.isDigit then some (Nat.ofDigitChars 10 ds 0) else none

def read? : List Char → Option Int
  | '+' :: ds => (digits? ds).map fun n => (n : Int)
  | '-' :: ds => (digits? ds).map fun n => -(n : Int)
  | ds => (digits? ds).map fun n => (n : Int)

def FitsBits (bits : Nat) (v : Int) : Prop :=
  -Int.pow 2 (bits - 1) ≤ v ∧ v < Int.pow 2 (bits - 1)

instance (bits : Nat) (v : Int) : Decidable (FitsBits bits v) :=
  inferInstanceAs (Decidable (_ ∧ _))

def readBits? (bits : Nat) (cs : List Char) : Option Int :=
  (read? cs).filter fun v => FitsBits bits v

/-- How a number is printed: at least `width` characters, filled with zeros between the sign and the
digits; `plus` asks for a sign before numbers that are not negative. -/
structure Format : Type where
  width : Nat := 0
  plus : Bool := false

namespace Format

def sign (f : Format) (v : Int) : List Char :=
  if v < 0 then ['-'] else if f.plus then ['+'] else []

def chars (f : Format) (v : Int) : List Char :=
  f.sign v ++ (Nat.toDigits 10 v.natAbs).leftpad (f.width - (f.sign v).length) '0'

def print (f : Format) (v : Int) : String := String.ofList (f.chars v)

theorem mem_chars {f : Format} {v : Int} {c : Char} (h : c ∈ f.chars v) :
    c.isDigit ∨ c = '-' ∨ c = '+' := by
  rw [chars, List.leftpad, List.mem_append, List.mem_append, List.mem_replicate] at h
  obtain h | ⟨_, rfl⟩ | h := h
  · unfold sign at h
    split at h
    · exact .inr (.inl (List.mem_singleton.mp h))
    · split at h
      · exact .inr (.inr (List.mem_singleton.mp h))
      · cases h
  · exact .inl rfl
  · exact .inl (Nat.isDigit_of_mem_toDigits (by decide) (by decide) h)

end Format

def plain : Format := {}

def half : Format := { width := 2 }

def word : Format := { width := 5, plus := true }

theorem Format.chars_natCast {f : Format} (hplus : f.plus = false) (n : Nat) :
    f.chars n = List.replicate (f.width - (Nat.toDigits 10 n).length) '0' ++ Nat.toDigits 10 n := by
  have hn : ¬ (n : Int) < 0 := Int.not_lt.mpr (Int.natCast_nonneg n)
  simp [chars, sign, hn, hplus, List.leftpad]

theorem print_plain (v : Int) : plain.print v = toString v := by
  cases v with
  | ofNat n =>
    rw [Format.print, Int.ofNat_eq_natCast, Format.chars_natCast rfl, show plain.width = 0 from rfl,
      Nat.zero_sub]
    rfl
  | negSucc n =>
    rw [Format.print, Format.chars, Format.sign, if_pos (Int.negSucc_lt_zero n), List.leftpad,
      show plain.width = 0 from rfl, Nat.zero_sub, Nat.zero_sub, String.ofList_append]
    rfl

theorem print_plain_natCast (n : Nat) : plain.print n = toString n := print_plain n

theorem print_half (n : Nat) : half.print n = (if n < 10 then "0" else "") ++ toString n := by
  have hpos := Nat.length_toDigits_pos (b := 10) (n := n)
  have hone := Nat.length_toDigits_le_iff (b := 10) (n := n) (k := 1) (by decide) (by decide)
  rw [Format.print, Format.chars_natCast rfl, String.ofList_append, Nat.toString_eq_ofList_toDigits]
  split
  · next h =>
    have hlen : (Nat.toDigits 10 n).length = 1 := Nat.le_antisymm (hone.mpr h) hpos
    rw [hlen]
    rfl
  · next h =>
    have hlen : half.width - (Nat.toDigits 10 n).length = 0 := by
      simp only [half]
      omega
    rw [hlen]
    rfl

end Simpletron.Text.Numeral
