import Simpletron.Proofs.Scan
import Simpletron.Proofs.Storage

namespace Simpletron

theorem Memory.lays_of_ofImage {vs : List Int} {m : Memory} (h : ofImage vs = .ok m) :
    m.Lays (vs.map Int32.ofInt) := by
  intro a ha
  calc
    m[a] = Int32.ofInt m[a].toInt := (Int32.ofInt_toInt _).symm
    _ = Int32.ofInt (vs.getD a 0) := by rw [toInt_getElem_of_ofImage h ha]
    _ = (vs.map Int32.ofInt).getD a 0 := (List.getD_map vs 0 Int32.ofInt).symm

namespace Text

theorem isBlank_of_isDigit {c : Char} (h : c.isDigit) : isBlank c = false := by
  obtain ⟨lower, upper⟩ : 48 ≤ c.toNat ∧ c.toNat ≤ 57 := by
    simpa [Char.isDigit, UInt32.le_iff_toNat_le] using h
  simp only [isBlank, blankRanges, List.any_cons, List.any_nil, Bool.or_eq_false_iff,
    Bool.and_eq_false_iff, decide_eq_false_iff_not, and_true]
  omega

namespace Numeral

def spell (zeros n : Nat) : List Char := List.replicate zeros '0' ++ Nat.toDigits 10 n

/-- The ways to write an integer. A sign is needed for a negative one only; zero may have either. -/
inductive Spells : Int → List Char → Prop
  | plain (zeros n : Nat) : Spells n (spell zeros n)
  | plus (zeros n : Nat) : Spells n ('+' :: spell zeros n)
  | minus (zeros n : Nat) : Spells (-n) ('-' :: spell zeros n)

variable {c : List Char} {v : Int}

theorem ofDigitChars_zeros (zeros : Nat) :
    Nat.ofDigitChars 10 (List.replicate zeros '0') 0 = 0 := by
  induction zeros with
  | zero => rfl
  | succ zeros ih => rwa [List.replicate_succ, Nat.ofDigitChars_cons]

theorem isDigit_of_mem_spell {zeros n : Nat} {d : Char} (h : d ∈ spell zeros n) : d.isDigit := by
  obtain h | h := List.mem_append.mp h
  · rw [(List.mem_replicate.mp h).2]
    rfl
  · exact Nat.isDigit_of_mem_toDigits (by decide) (by decide) h

theorem digits_spell (zeros n : Nat) : Digits (spell zeros n) n := by
  refine ⟨?_, fun d hd => isDigit_of_mem_spell hd, ?_⟩
  · exact List.append_ne_nil_of_right_ne_nil _ Nat.toDigits_ne_nil
  · rw [← ofDigitChars_eq_ofDigits, spell, Nat.ofDigitChars_append, ofDigitChars_zeros,
      Nat.ofDigitChars_ten_toDigits]

theorem Spells.denotes (h : Spells v c) : Denotes c v := by
  cases h with
  | plain zeros n => exact .plain (digits_spell zeros n)
  | plus zeros n => exact .plus (digits_spell zeros n)
  | minus zeros n => exact .minus (digits_spell zeros n)

theorem Spells.not_blank (h : Spells v c) : ∀ x ∈ c, isBlank x = false := by
  have hspell : ∀ zeros n, ∀ x ∈ spell zeros n, isBlank x = false :=
    fun _ _ _ hx => isBlank_of_isDigit (isDigit_of_mem_spell hx)
  cases h with
  | plain zeros n => exact hspell zeros n
  | plus zeros n => exact List.forall_mem_cons.mpr ⟨rfl, hspell zeros n⟩
  | minus zeros n => exact List.forall_mem_cons.mpr ⟨rfl, hspell zeros n⟩

theorem Format.spells_chars (f : Format) (v : Int) : Spells v (f.chars v) := by
  obtain ⟨zeros, hzeros⟩ : ∃ zeros, (Nat.toDigits 10 v.natAbs).leftpad
      (f.width - (f.sign v).length) '0' = spell zeros v.natAbs := ⟨_, rfl⟩
  rw [chars, hzeros, sign]
  by_cases hv : v < 0
  · have hminus := Spells.minus zeros v.natAbs
    rw [Int.ofNat_natAbs_of_nonpos hv.le, Int.neg_neg] at hminus
    rwa [if_pos hv]
  · have habs := Int.natAbs_of_nonneg (Int.not_lt.mp hv)
    have hplus := Spells.plus zeros v.natAbs
    have hplain := Spells.plain zeros v.natAbs
    rw [habs] at hplus hplain
    rw [if_neg hv]
    cases f.plus
    · exact hplain
    · exact hplus

end Numeral

end Text

namespace Program

open Text Text.Numeral

def Line.Bears (l c : List Char) : Prop :=
  ∃ before after comment, l = before ++ c ++ after ++ comment ∧ (∀ x ∈ before, isBlank x) ∧
    (∀ x ∈ after, isBlank x) ∧ (∀ x ∈ comment.head?, x = '#') ∧ '\n' ∉ l

def Line.Writes (l : List Char) : Option Int → Prop
  | some v => ∃ c, Spells v c ∧ Line.Bears l c
  | none => Line.Bears l []

def EndsLine (e : List Char) : Prop := e = ['\n'] ∨ e = ['\r', '\n']

/-- The texts that write these integers down, each on a line of its own. What follows a sentinel
line is not looked at. -/
inductive Renders : List Int → List Char → Prop
  | last {l item} : Line.Writes l item → Renders item.toList l
  | line {l e item vs cs} : Line.Writes l item → EndsLine e → Renders vs cs →
      Renders (item.toList ++ vs) (l ++ e ++ cs)
  | sentinel {l} : Line.Writes l (some (-99999)) → Renders [] l
  | sentinel_line {l e} (rest : List Char) : Line.Writes l (some (-99999)) → EndsLine e →
      Renders [] (l ++ e ++ rest)

namespace Line

variable {l c : List Char} {v : Int} {item : Option Int}

theorem Bears.core (h : Bears l c) (hblank : ∀ x ∈ c, isBlank x = false) (hc : '#' ∉ c) :
    Core l c := by
  obtain ⟨before, after, comment, rfl, hb, ha, hcomment, -⟩ := h
  have htrims := Trims.of_not_blank hb ha hblank
  exact ⟨before ++ c ++ after, comment, rfl, htrims.not_comment hc, hcomment, htrims⟩

theorem Writes.not_isLineEnd (h : Writes l item) : '\n' ∉ l := by
  cases item with
  | none =>
    obtain ⟨_, _, _, _, _, _, _, hl⟩ := h
    exact hl
  | some v =>
    obtain ⟨_, _, _, _, _, _, _, _, _, hl⟩ := h
    exact hl

theorem Writes.core (h : Writes l (some v)) : ∃ c, Spells v c ∧ Core l c := by
  obtain ⟨c, hc, hl⟩ := h
  exact ⟨c, hc, hl.core hc.not_blank hc.denotes.not_comment⟩

theorem Writes.nil_eq_none (h : Writes [] item) : item = none := by
  cases item with
  | none => rfl
  | some v =>
    obtain ⟨c, hc, before, after, comment, hl, -⟩ := h
    simp only [List.nil_eq, List.append_eq_nil_iff] at hl
    exact absurd hl.1.1.2 hc.denotes.ne_nil

theorem Writes.says_blank (h : Writes l none) : Says l .blank :=
  .blank (Bears.core h nofun List.not_mem_nil)

theorem Writes.says_sentinel (h : Writes l (some (-99999))) : Says l .sentinel := by
  obtain ⟨c, hc, hl⟩ := h.core
  exact .sentinel hl hc.denotes

theorem Writes.says_word (h : Writes l (some v)) (hv : Word.InRange v) :
    Says l (.word (Int32.ofInt v)) := by
  obtain ⟨c, hc, hl⟩ := h.core
  have hw : (Int32.ofInt v).toInt = v := Word.toInt_ofInt hv
  exact .word hl (hw.symm ▸ hc.denotes) (hw.symm ▸ hv)

theorem Says.congr {l' : List Char} {line : Line} (h : Says l line) (hl : ofText l' = ofText l) :
    Says l' line := by
  rw [← h.ofText_eq, ← hl]
  exact says_ofText l'

end Line

variable {l cs e : List Char} {ls : List (List Char)} {us : List Word} {vs : List Int}
  {item : Option Int} {n : Nat} {m : Memory}

theorem exists_lines_append (hl : '\n' ∉ l) (he : EndsLine e) (cs : List Char) :
    ∃ l', Text.lines isLineEnd (l ++ e ++ cs) = l' :: Text.lines isLineEnd cs ∧
      Line.ofText l' = Line.ofText l := by
  obtain rfl | rfl := he
  · rw [List.append_assoc]
    exact ⟨l, Text.lines_append _ (not_isLineEnd_iff.mpr hl) rfl cs, rfl⟩
  · have hl' : '\n' ∉ l ++ ['\r'] := by simpa using hl
    rw [show l ++ ['\r', '\n'] ++ cs = l ++ ['\r'] ++ '\n' :: cs by simp]
    exact ⟨_, Text.lines_append _ (not_isLineEnd_iff.mpr hl') rfl cs, Line.ofText_carriageReturn l⟩

theorem Scans.written {l' : List Char} {r : Except Error Memory} (h : Line.Writes l item)
    (hl : Line.ofText l' = Line.ofText l) (hrange : ∀ v ∈ item.toList, Word.InRange v)
    (hs : Scans (n + 1) (us ++ item.toList.map Int32.ofInt) ls r) : Scans n us (l' :: ls) r := by
  cases item with
  | none =>
    rw [Option.toList_none, List.map_nil, List.append_nil] at hs
    exact hs.blank (h.says_blank.congr hl)
  | some v => exact hs.word ((h.says_word (hrange v (List.mem_singleton_self v))).congr hl)

theorem Renders.scans (h : Renders vs cs) (hrange : ∀ v ∈ vs, Word.InRange v)
    (hlen : (us ++ vs.map Int32.ofInt).length ≤ 100) (hm : m.Lays (us ++ vs.map Int32.ofInt)) :
    Scans n us (Text.lines isLineEnd cs) (.ok m) := by
  induction h generalizing n us with
  | @last l item h =>
    -- the empty text has no lines, not an empty line
    by_cases hl : l = []
    · subst hl
      obtain rfl := h.nil_eq_none
      rw [Option.toList_none, List.map_nil, List.append_nil] at hlen hm
      exact .stop hlen (.finish hm)
    · rw [Text.lines_of_forall _ (not_isLineEnd_iff.mpr h.not_isLineEnd) hl]
      exact .written h rfl hrange (.stop hlen (.finish hm))
  | @line l e item vs cs h he _ ih =>
    obtain ⟨l', hlines, hl⟩ := exists_lines_append h.not_isLineEnd he cs
    rw [hlines]
    rw [List.map_append, ← List.append_assoc] at hlen hm
    exact .written h hl (fun v hv => hrange v (List.mem_append_left _ hv))
      (ih (fun v hv => hrange v (List.mem_append_right _ hv)) hlen hm)
  | @sentinel l h =>
    have hl : l ≠ [] := by
      rintro rfl
      exact Option.some_ne_none _ h.nil_eq_none
    rw [List.map_nil, List.append_nil] at hlen hm
    rw [Text.lines_of_forall _ (not_isLineEnd_iff.mpr h.not_isLineEnd) hl]
    exact .stop hlen (.sentinel h.says_sentinel hm)
  | @sentinel_line l e rest h he =>
    obtain ⟨l', hlines, hl⟩ := exists_lines_append h.not_isLineEnd he rest
    rw [List.map_nil, List.append_nil] at hlen hm
    rw [hlines]
    exact .stop hlen (.sentinel (h.says_sentinel.congr hl) hm)

theorem parse_of_renders {ws : List Int} {source : String} (hlen : ws.length ≤ 100)
    (hrange : ∀ w ∈ ws, Word.InRange w) (h : Renders ws source.toList) :
    ∃ m, parse source = .ok m ∧ Memory.ofImage ws = .ok m := by
  obtain ⟨m, hm⟩ := Memory.exists_ofImage hlen hrange
  have hlays : m.Lays ([] ++ ws.map Int32.ofInt) := Memory.lays_of_ofImage hm
  have hlen' : ([] ++ ws.map Int32.ofInt).length ≤ 100 := by simpa using hlen
  obtain ⟨before, rest, us, hlines, hwords, hroom, hstops⟩ := h.scans (n := 1) hrange hlen' hlays
  refine ⟨m, ?_, hm⟩
  rw [parse, hlines]
  exact Draft.takeAll_words Draft.lays_empty hwords hroom hstops

theorem parse_of_renders_decorated :
    let ws : List Int := [1007, 0]
    let source := "\t+1007\r\n# 1 # 2\n -00 # -99999\n-99999\nnot a word"
    ws.length ≤ 100 ∧ (∀ w ∈ ws, Word.InRange w) ∧ Renders ws source.toList ∧
      ∃ m, parse source = .ok m ∧ Memory.ofImage ws = .ok m := by
  intro ws source
  have hlen : ws.length ≤ 100 := by decide
  have hrange : ∀ w ∈ ws, Word.InRange w := by decide
  have hsource : source.toList =
      "\t+1007".toList ++ ['\r', '\n'] ++ ("# 1 # 2".toList ++ ['\n'] ++
        (" -00 # -99999".toList ++ ['\n'] ++
          ("-99999".toList ++ ['\n'] ++ "not a word".toList))) := by decide
  have hcomment : ∀ l : List Char, ∀ x ∈ ('#' :: l).head?, x = '#' := fun _ _ h =>
    (Option.some.inj h).symm
  have first : Line.Writes "\t+1007".toList (some 1007) :=
    ⟨_, .plus 0 1007, ['\t'], [], [], by decide, List.forall_mem_singleton.mpr rfl, nofun, nofun,
      by decide⟩
  have comment : Line.Writes "# 1 # 2".toList none :=
    ⟨[], [], _, by decide, nofun, nofun, hcomment " 1 # 2".toList, by decide⟩
  have second : Line.Writes " -00 # -99999".toList (some 0) :=
    ⟨_, .minus 1 0, [' '], [' '], _, by decide, List.forall_mem_singleton.mpr rfl,
      List.forall_mem_singleton.mpr rfl, hcomment " -99999".toList, by decide⟩
  have sentinel : Line.Writes "-99999".toList (some (-99999)) :=
    ⟨_, .minus 0 99999, [], [], [], by decide, nofun, nofun, nofun, by decide⟩
  have hrenders : Renders ws source.toList := by
    rw [hsource]
    exact .line first (.inr rfl) (.line comment (.inl rfl) (.line second (.inl rfl)
      (.sentinel_line _ sentinel (.inl rfl))))
  exact ⟨hlen, hrange, hrenders, parse_of_renders hlen hrange hrenders⟩

end Program

end Simpletron
