import Mathlib.Data.List.Induction
import Mathlib.Data.List.TakeWhile
import Mathlib.Data.Nat.Digits.Defs
import Simpletron.Program.Line

namespace Simpletron

namespace Text

variable {cs c : List Char}

def Trims (cs c : List Char) : Prop :=
  ∃ before after, cs = before ++ c ++ after ∧ (∀ x ∈ before, isBlank x) ∧ (∀ x ∈ after, isBlank x) ∧
    (∀ x ∈ c.head?, isBlank x = false) ∧ ∀ x ∈ c.getLast?, isBlank x = false

theorem Trims.of_not_blank {before after : List Char} (hb : ∀ x ∈ before, isBlank x)
    (ha : ∀ x ∈ after, isBlank x) (hc : ∀ x ∈ c, isBlank x = false) :
    Trims (before ++ c ++ after) c :=
  ⟨before, after, rfl, hb, ha, fun x hx => hc x (List.mem_of_mem_head? hx),
    fun x hx => hc x (List.mem_of_mem_getLast? hx)⟩

theorem trimLeft_append {before : List Char} (hb : ∀ x ∈ before, isBlank x)
    (hc : ∀ x ∈ c.head?, isBlank x = false) : trimLeft (before ++ c) = c := by
  rw [trimLeft, List.dropWhile_append_of_pos hb]
  cases c with
  | nil => rfl
  | cons x c => rw [List.dropWhile_cons_of_neg (by simp [hc x rfl])]

theorem trimRight_append {after : List Char} (ha : ∀ x ∈ after, isBlank x)
    (hc : ∀ x ∈ c.getLast?, isBlank x = false) : trimRight (c ++ after) = c := by
  rw [trimRight, List.reverse_append, trimLeft_append, List.reverse_reverse]
  · simpa using ha
  · simpa using hc

theorem trim_eq_of_trims (h : Trims cs c) : trim cs = c := by
  obtain ⟨before, after, rfl, hb, ha, hhead, hlast⟩ := h
  cases c with
  | nil =>
    have hblank : trimLeft (before ++ [] ++ after) = [] := by
      rw [List.append_nil, trimLeft, List.dropWhile_eq_nil_iff]
      intro x hx
      exact (List.mem_append.mp hx).elim (hb x) (ha x)
    rw [trim, hblank]
    rfl
  | cons x c =>
    rw [trim, List.append_assoc, trimLeft_append hb (by simpa using hhead),
      trimRight_append ha hlast]

theorem Trims.not_comment (h : Trims cs c) (hc : '#' ∉ c) : '#' ∉ cs := by
  obtain ⟨before, after, rfl, hb, ha, -⟩ := h
  simp only [List.mem_append, not_or]
  exact ⟨⟨fun hx => absurd (hb _ hx) (by decide), hc⟩, fun hx => absurd (ha _ hx) (by decide)⟩

theorem head_trimLeft (cs : List Char) : ∀ x ∈ (trimLeft cs).head?, isBlank x = false := by
  intro x hx
  have := List.head?_dropWhile_not isBlank cs
  rw [trimLeft] at hx
  rwa [hx] at this

theorem takeWhile_append_trimLeft (cs : List Char) : cs.takeWhile isBlank ++ trimLeft cs = cs :=
  List.takeWhile_append_dropWhile

theorem trimRight_append_takeWhile (cs : List Char) :
    trimRight cs ++ (cs.reverse.takeWhile isBlank).reverse = cs := by
  rw [trimRight, ← List.reverse_append, takeWhile_append_trimLeft, List.reverse_reverse]

theorem trims_trim (cs : List Char) : Trims cs (trim cs) := by
  have hright := trimRight_append_takeWhile (trimLeft cs)
  refine ⟨cs.takeWhile isBlank, ((trimLeft cs).reverse.takeWhile isBlank).reverse, ?_,
    fun x hx => List.mem_takeWhile_imp hx, fun x hx => ?_, fun x hx => ?_, fun x hx => ?_⟩
  · rw [trim, List.append_assoc, hright, takeWhile_append_trimLeft]
  · exact List.mem_takeWhile_imp (List.mem_reverse.mp hx)
  · apply head_trimLeft cs
    rw [← hright]
    rw [List.head?_append]
    rw [trim] at hx
    rw [Option.mem_def.mp hx]
    rfl
  · rw [trim, trimRight, List.getLast?_reverse] at hx
    exact head_trimLeft _ x hx

namespace Numeral

def Digits (ds : List Char) (n : Nat) : Prop :=
  ds ≠ [] ∧ (∀ d ∈ ds, d.isDigit) ∧
    n = Nat.ofDigits 10 (ds.reverse.map fun d => d.toNat - '0'.toNat)

inductive Denotes : List Char → Int → Prop
  | plain {ds n} : Digits ds n → Denotes ds n
  | plus {ds n} : Digits ds n → Denotes ('+' :: ds) n
  | minus {ds n} : Digits ds n → Denotes ('-' :: ds) (-n)

theorem ofDigitChars_eq_ofDigits (ds : List Char) :
    Nat.ofDigitChars 10 ds 0 = Nat.ofDigits 10 (ds.reverse.map fun d => d.toNat - '0'.toNat) := by
  induction ds using List.reverseRecOn with
  | nil => rfl
  | append_singleton ds d ih =>
    rw [Nat.ofDigitChars_append, ih, List.reverse_append]
    simp [Nat.ofDigitChars, Nat.ofDigits_cons, Nat.add_comm]

variable {ds : List Char} {n : Nat} {v : Int}

theorem digits?_eq_some_iff : digits? ds = some n ↔ Digits ds n := by
  rw [digits?, Digits, ← ofDigitChars_eq_ofDigits]
  simp only [List.all_eq_true]
  by_cases h : ds ≠ [] ∧ ∀ d ∈ ds, d.isDigit
  · rw [if_pos h, Option.some.injEq]
    exact ⟨fun hn => ⟨h.1, h.2, hn.symm⟩, fun hn => hn.2.2.symm⟩
  · rw [if_neg h]
    exact ⟨nofun, fun hn => absurd ⟨hn.1, hn.2.1⟩ h⟩

theorem read?_plus (ds : List Char) :
    read? ('+' :: ds) = (digits? ds).map fun n : Nat => (n : Int) := by
  rw [read?]
  cases digits? ds <;> rfl

theorem read?_minus (ds : List Char) :
    read? ('-' :: ds) = (digits? ds).map fun n : Nat => -(n : Int) := by
  rw [read?]
  cases digits? ds <;> rfl

theorem read?_plain (hp : ds.head? ≠ some '+') (hm : ds.head? ≠ some '-') :
    read? ds = (digits? ds).map fun n : Nat => (n : Int) := by
  rw [read?]
  · cases digits? ds <;> rfl
  · rintro es rfl
    exact hp rfl
  · rintro es rfl
    exact hm rfl

theorem Digits.head_ne (h : Digits ds n) {c : Char} (hc : c.isDigit = false) :
    ds.head? ≠ some c := by
  intro hd
  have := h.2.1 c (List.mem_of_mem_head? hd)
  simp [hc] at this

theorem denotes_of_read? (h : read? ds = some v) : Denotes ds v := by
  by_cases hp : ds.head? = some '+'
  · obtain ⟨ds, rfl⟩ := List.head?_eq_some_iff.mp hp
    rw [read?_plus] at h
    obtain ⟨n, hn, rfl⟩ := Option.map_eq_some_iff.mp h
    exact .plus (digits?_eq_some_iff.mp hn)
  · by_cases hm : ds.head? = some '-'
    · obtain ⟨ds, rfl⟩ := List.head?_eq_some_iff.mp hm
      rw [read?_minus] at h
      obtain ⟨n, hn, rfl⟩ := Option.map_eq_some_iff.mp h
      exact .minus (digits?_eq_some_iff.mp hn)
    · rw [read?_plain hp hm] at h
      obtain ⟨n, hn, rfl⟩ := Option.map_eq_some_iff.mp h
      exact .plain (digits?_eq_some_iff.mp hn)

theorem read?_of_denotes (h : Denotes ds v) : read? ds = some v := by
  cases h with
  | plain h =>
    rw [read?_plain (h.head_ne rfl) (h.head_ne rfl), digits?_eq_some_iff.mpr h, Option.map_some]
  | plus h => rw [read?_plus, digits?_eq_some_iff.mpr h, Option.map_some]
  | minus h => rw [read?_minus, digits?_eq_some_iff.mpr h, Option.map_some]

theorem readBits?_eq_some_iff {bits : Nat} :
    readBits? bits ds = some v ↔ Denotes ds v ∧ FitsBits bits v := by
  rw [readBits?, Option.filter_eq_some_iff, decide_eq_true_iff]
  exact and_congr_left' ⟨denotes_of_read?, read?_of_denotes⟩

theorem Denotes.ne_nil (h : Denotes ds v) : ds ≠ [] := by
  cases h with
  | plain h => exact h.1
  | plus _ => exact List.cons_ne_nil _ _
  | minus _ => exact List.cons_ne_nil _ _

theorem Denotes.not_comment (h : Denotes ds v) : '#' ∉ ds := by
  have hdigits : ∀ {ds n}, Digits ds n → '#' ∉ ds := fun h hx => Bool.false_ne_true (h.2.1 _ hx)
  cases h with
  | plain h => exact hdigits h
  | plus h => exact List.not_mem_cons_of_ne_of_not_mem (by decide) (hdigits h)
  | minus h => exact List.not_mem_cons_of_ne_of_not_mem (by decide) (hdigits h)

end Numeral

end Text

namespace Program.Line

open Text Text.Numeral

def Core (l c : List Char) : Prop :=
  ∃ text comment, l = text ++ comment ∧ '#' ∉ text ∧ (∀ x ∈ comment.head?, x = '#') ∧ Trims text c

inductive Says (l : List Char) : Line → Prop
  | blank : Core l [] → Says l .blank
  | garbage {c} : Core l c → c ≠ [] → (∀ v, Denotes c v → ¬ FitsBits 64 v) →
      Says l (.garbage (String.ofList c))
  | sentinel {c} : Core l c → Denotes c (-99999) → Says l .sentinel
  | word {c w} : Core l c → Denotes c w.toInt → Word.InRange w.toInt → Says l (.word w)
  | unfit {c v} : Core l c → Denotes c v → FitsBits 64 v → v ≠ -99999 → ¬ Word.InRange v →
      Says l (.unfit v)

variable {l c : List Char}

theorem core_code (l : List Char) : Core l (code l) := by
  refine ⟨l.takeWhile (· ≠ '#'), l.dropWhile (· ≠ '#'), List.takeWhile_append_dropWhile.symm, ?_,
    ?_, trims_trim _⟩
  · intro h
    simpa using List.mem_takeWhile_imp h
  · intro x hx
    have := List.head?_dropWhile_not (fun c : Char => decide (c ≠ '#')) l
    rw [Option.mem_def.mp hx] at this
    simpa using this

theorem Core.code_eq (h : Core l c) : code l = c := by
  obtain ⟨text, comment, rfl, htext, hcomment, htrims⟩ := h
  have hne : ∀ x ∈ text, decide (x ≠ '#') = true := by
    intro x hx
    rw [decide_eq_true_iff]
    rintro rfl
    exact htext hx
  have hnil : comment.takeWhile (· ≠ '#') = [] := by
    cases comment with
    | nil => rfl
    | cons x comment => simp [hcomment x rfl]
  rw [code, List.takeWhile_append_of_pos hne, hnil, List.append_nil, trim_eq_of_trims htrims]

theorem core_iff_trims (hl : '#' ∉ l) : Core l c ↔ Trims l c := by
  constructor
  · rintro ⟨text, comment, rfl, -, hcomment, htrims⟩
    cases comment with
    | nil => rwa [List.append_nil]
    | cons x comment =>
      obtain rfl : x = '#' := hcomment x rfl
      exact absurd (List.mem_append_right text List.mem_cons_self) hl
  · intro htrims
    exact ⟨l, [], (List.append_nil l).symm, hl, nofun, htrims⟩

theorem Core.carriageReturn (h : Core l c) : Core (l ++ ['\r']) c := by
  obtain ⟨text, comment, rfl, htext, hcomment, before, after, rfl, hb, ha, hc⟩ := h
  cases comment with
  | nil =>
    refine ⟨before ++ c ++ (after ++ ['\r']), [], by simp, ?_, nofun, before, after ++ ['\r'], rfl,
      hb, ?_, hc⟩
    · simpa using htext
    · intro x hx
      obtain hx | hx := List.mem_append.mp hx
      · exact ha x hx
      · rw [List.mem_singleton.mp hx]
        rfl
  | cons x comment =>
    exact ⟨_, x :: comment ++ ['\r'], List.append_assoc _ _ _, htext, hcomment, before, after, rfl,
      hb, ha, hc⟩

theorem ofText_carriageReturn (l : List Char) : ofText (l ++ ['\r']) = ofText l := by
  rw [ofText, (core_code l).carriageReturn.code_eq, ofText]

theorem says_ofValue {v : Int} (hcore : Core l c) (hv : Denotes c v) (hfits : FitsBits 64 v) :
    Says l (ofValue v) := by
  by_cases hs : v = Program.sentinel
  · subst hs
    rw [ofValue, if_pos rfl]
    exact .sentinel hcore hv
  · cases hw : Word.ofInt? v with
    | none =>
      rw [ofValue, if_neg hs, hw]
      exact .unfit hcore hv hfits hs (Word.ofInt?_eq_none_iff.mp hw)
    | some w =>
      rw [ofValue, if_neg hs, hw]
      obtain ⟨hrange, rfl⟩ := Word.ofInt?_eq_some_iff.mp hw
      exact .word hcore hv hrange

theorem says_ofText (l : List Char) : Says l (ofText l) := by
  have hcore := core_code l
  rw [ofText, ofCode]
  by_cases hnil : code l = []
  · rw [if_pos hnil]
    exact .blank (hnil ▸ hcore)
  · rw [if_neg hnil]
    cases hr : readBits? 64 (code l) with
    | none =>
      refine .garbage hcore hnil fun v hv hfits => ?_
      rw [readBits?_eq_some_iff.mpr ⟨hv, hfits⟩] at hr
      cases hr
    | some v =>
      obtain ⟨hv, hfits⟩ := readBits?_eq_some_iff.mp hr
      exact says_ofValue hcore hv hfits

theorem ofText_of_denotes {v : Int} (hcore : Core l c) (hv : Denotes c v) (hfits : FitsBits 64 v) :
    ofText l = ofValue v := by
  rw [ofText, hcore.code_eq, ofCode, if_neg hv.ne_nil, readBits?_eq_some_iff.mpr ⟨hv, hfits⟩]

theorem fitsBits_of_inRange {v : Int} (h : Word.InRange v) : FitsBits 64 v :=
  ⟨Int.le_trans (by decide) h.1, Int.lt_of_le_of_lt h.2 (by decide)⟩

theorem ofValue_toInt {w : Word} (h : Word.InRange w.toInt) : ofValue w.toInt = .word w := by
  have hs : w.toInt ≠ Program.sentinel := by
    intro hs
    rw [hs] at h
    exact absurd h (by decide)
  rw [ofValue, if_neg hs, Word.ofInt?_toInt h]

theorem Says.ofText_eq {line : Line} (h : Says l line) : ofText l = line := by
  cases h with
  | blank hcore => rw [ofText, hcore.code_eq, ofCode, if_pos rfl]
  | garbage hcore hne hno =>
    rw [ofText, hcore.code_eq, ofCode, if_neg hne]
    cases hr : readBits? 64 _ with
    | none => rfl
    | some v =>
      obtain ⟨hv, hfits⟩ := readBits?_eq_some_iff.mp hr
      exact absurd hfits (hno v hv)
  | sentinel hcore hv =>
    rw [ofText_of_denotes hcore hv (by decide)]
    rfl
  | word hcore hv hrange =>
    rw [ofText_of_denotes hcore hv (fitsBits_of_inRange hrange), ofValue_toInt hrange]
  | @unfit _ v hcore hv hfits hs hrange =>
    have hs : v ≠ Program.sentinel := hs
    rw [ofText_of_denotes hcore hv hfits, ofValue, if_neg hs, Word.ofInt?_eq_none_iff.mpr hrange]

theorem ofText_eq_iff_says {line : Line} : ofText l = line ↔ Says l line :=
  ⟨fun h => h ▸ says_ofText l, Says.ofText_eq⟩

theorem Says.inRange {w : Word} (h : Says l (.word w)) : Word.InRange w.toInt := by
  cases h with
  | word _ _ hrange => exact hrange

end Program.Line

end Simpletron
