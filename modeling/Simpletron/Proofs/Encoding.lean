import Simpletron.Program.Draft
import Simpletron.Proofs.Lines
import Simpletron.Stream

namespace Simpletron

namespace Text

variable {cs l rest : List Char}

def utf8 (cs : List Char) : List UInt8 := cs.flatMap String.utf8EncodeChar

theorem data_toUTF8 (text : String) : text.toUTF8.data.toList = utf8 text.toList := by
  rw [String.toUTF8_eq_toByteArray, ← String.utf8Encode_toList, List.utf8Encode,
    List.toList_data_toByteArray, utf8]

@[simp] theorem utf8_nil : utf8 [] = [] := rfl

@[simp] theorem utf8_append (cs ds : List Char) : utf8 (cs ++ ds) = utf8 cs ++ utf8 ds :=
  List.flatMap_append

theorem utf8_newline_cons (cs : List Char) : utf8 ('\n' :: cs) = 10 :: utf8 cs := rfl

theorem utf8_ne_nil (h : cs ≠ []) : utf8 cs ≠ [] := by
  obtain ⟨c, cs, rfl⟩ := List.exists_cons_of_ne_nil h
  simp [utf8, String.utf8EncodeChar_ne_nil]

theorem decode_utf8 (cs : List Char) : Stream.decode (utf8 cs) = .ok (String.ofList cs) := by
  have hv : (utf8 cs).toByteArray.IsValidUTF8 := .intro cs rfl
  simp only [Stream.decode, String.fromUTF8?, dif_pos hv]
  rfl

theorem utf8_injective : Function.Injective utf8 := by
  intro cs ds h
  have hdecode := decode_utf8 cs
  rw [h, decode_utf8 ds] at hdecode
  exact (String.ofList_injective (Except.ok.inj hdecode)).symm

theorem eq_utf8_of_decode {bytes : List UInt8} {text : String} (h : Stream.decode bytes = .ok text) :
    bytes = utf8 text.toList := by
  rw [Stream.decode, String.fromUTF8?] at h
  by_cases hv : bytes.toByteArray.IsValidUTF8
  · rw [dif_pos hv] at h
    cases h
    rw [← data_toUTF8]
    exact List.toList_data_toByteArray.symm
  · rw [dif_neg hv] at h
    cases h

theorem decode_eq_error_iff {bytes : List UInt8} {cause : Stream.Failure} :
    Stream.decode bytes = .error cause ↔ (∀ cs, bytes ≠ utf8 cs) ∧ cause = .notText := by
  cases h : Stream.decode bytes with
  | ok text =>
    refine ⟨nofun, fun hne => ?_⟩
    exact absurd (eq_utf8_of_decode h) (hne.1 text.toList)
  | error f =>
    have hf : f = .notText := by
      unfold Stream.decode at h
      split at h <;> cases h
      rfl
    have hne : ∀ cs, bytes ≠ utf8 cs := by
      rintro cs rfl
      rw [decode_utf8] at h
      cases h
    rw [hf, Except.error.injEq, eq_comm]
    exact ⟨fun hc => ⟨hne, hc⟩, And.right⟩

def IsAscii (text : String) : Prop := ∀ c ∈ text.toList, c.toNat < 128

instance (text : String) : Decidable (IsAscii text) :=
  List.decidableBAll _ text.toList

theorem IsAscii.append {text more : String} (h : IsAscii text) (h' : IsAscii more) :
    IsAscii (text ++ more) := by
  rw [IsAscii, String.toList_append, List.forall_mem_append]
  exact ⟨h, h'⟩

theorem IsAscii.utf8_eq {text : String} (h : IsAscii text) :
    utf8 text.toList = text.toList.map fun c => c.toNat.toUInt8 := by
  unfold IsAscii at h
  generalize text.toList = cs at h
  induction cs with
  | nil => rfl
  | cons c cs ih =>
    obtain ⟨hc, hcs⟩ := List.forall_mem_cons.mp h
    have hbyte : String.utf8EncodeChar c = [c.toNat.toUInt8] := if_pos (Nat.le_of_lt_succ hc)
    rw [utf8, List.flatMap_cons, hbyte, ← utf8, ih hcs]
    rfl

theorem IsAscii.length_utf8 {text : String} (h : IsAscii text) :
    (utf8 text.toList).length = text.length := by
  rw [h.utf8_eq, List.length_map, String.length_toList]

theorem IsAscii.print (f : Numeral.Format) (v : Int) : IsAscii (f.print v) := by
  intro c hc
  rw [Numeral.Format.print, String.toList_ofList] at hc
  obtain h | rfl | rfl := Numeral.Format.mem_chars hc
  · simp only [Char.isDigit, ge_iff_le, Bool.and_eq_true, decide_eq_true_eq,
      UInt32.le_iff_toNat_le] at h
    exact Nat.lt_of_le_of_lt h.2 (by decide)
  · decide
  · decide

theorem eq_newline_of_mem {c : Char} (h : 10 ∈ String.utf8EncodeChar c) : c = '\n' := by
  have hn : 10 ∈ (String.utf8EncodeChar c).map UInt8.toNat := List.mem_map_of_mem h
  apply Char.toNat_inj.mp
  change c.val.toNat = 10
  -- The bytes of a character are its own code or have their top bit set.
  simp only [String.utf8EncodeChar] at hn
  split_ifs at hn <;>
  · simp only [List.map_cons, List.map_nil, List.mem_cons, List.not_mem_nil,
      or_false, UInt8.toNat_ofNat'] at hn
    omega

theorem not_lineEnd_of_mem_utf8 (hl : ∀ c ∈ l, Program.isLineEnd c = false) :
    ∀ b ∈ utf8 l, Stream.isLineEnd b = false := by
  intro b hb
  obtain ⟨c, hc, hbc⟩ := List.mem_flatMap.mp hb
  have hne := hl c hc
  simp only [Program.isLineEnd, Stream.isLineEnd, beq_eq_false_iff_ne] at *
  rintro rfl
  exact hne (eq_newline_of_mem hbc)

theorem firstLine?_utf8_append (hl : ∀ c ∈ l, Program.isLineEnd c = false) (bytes : List UInt8) :
    firstLine? Stream.isLineEnd (utf8 l ++ 10 :: bytes) = some (utf8 l, bytes) :=
  firstLine?_append _ (not_lineEnd_of_mem_utf8 hl) rfl bytes

theorem firstLine?_utf8 (h : firstLine? Program.isLineEnd cs = some (l, rest)) :
    firstLine? Stream.isLineEnd (utf8 cs) = some (utf8 l, utf8 rest) := by
  have hl := not_ends_of_firstLine? _ h
  obtain ⟨e, he, rfl⟩ | ⟨hne, rfl, rfl⟩ := parts_of_firstLine? _ h
  · obtain rfl : e = '\n' := by simpa [Program.isLineEnd] using he
    rw [utf8_append, utf8_newline_cons]
    exact firstLine?_utf8_append hl (utf8 rest)
  · exact firstLine?_of_forall _ (not_lineEnd_of_mem_utf8 hl) (utf8_ne_nil hne)

end Text

namespace Stream

open Text

/-- The next line of an input and what is behind it. -/
inductive Leads : (input line rest : List UInt8) → Prop
  | ended {line rest} : 10 ∉ line → Leads (line ++ 10 :: rest) line rest
  | last {line} : 10 ∉ line → line ≠ [] → Leads line line []

inductive Opens : List UInt8 → List (List Char) → List UInt8 → Prop
  | nil {input} : Opens input [] input
  | cons {input l more ls rest} : Leads input (utf8 l) more → Opens more ls rest →
      Opens input (l :: ls) rest

variable {input line rest line' rest' : List UInt8} {ls : List (List Char)}

theorem not_isLineEnd_iff : (∀ b ∈ line, isLineEnd b = false) ↔ 10 ∉ line := by
  simp only [isLineEnd, beq_eq_false_iff_ne]
  exact ⟨fun h hl => h _ hl rfl, fun h b hb he => h (he ▸ hb)⟩

theorem leads_iff_firstLine? :
    Leads input line rest ↔ firstLine? isLineEnd input = some (line, rest) := by
  constructor
  · rintro (⟨h⟩ | ⟨h, hne⟩)
    · exact firstLine?_append _ (not_isLineEnd_iff.mpr h) rfl rest
    · exact firstLine?_of_forall _ (not_isLineEnd_iff.mpr h) hne
  · intro h
    have hline := not_isLineEnd_iff.mp (not_ends_of_firstLine? _ h)
    obtain ⟨e, he, rfl⟩ | ⟨hne, rfl, rfl⟩ := parts_of_firstLine? _ h
    · obtain rfl : e = 10 := by simpa [isLineEnd] using he
      exact .ended hline
    · exact .last hline hne

theorem Leads.unique (h : Leads input line rest) (h' : Leads input line' rest') :
    line = line' ∧ rest = rest' := by
  rw [leads_iff_firstLine?] at h h'
  cases h.symm.trans h'
  exact ⟨rfl, rfl⟩

theorem not_leads_nil : ¬ Leads [] line rest := by
  rw [leads_iff_firstLine?]
  exact nofun

theorem Leads.newline_notMem {l : List Char} (h : Leads input (utf8 l) rest) : '\n' ∉ l := by
  intro hl
  have hmem : 10 ∈ utf8 l := List.mem_flatMap.mpr ⟨'\n', hl, List.mem_singleton_self 10⟩
  cases h with
  | ended h => exact h hmem
  | last h _ => exact h hmem

theorem Opens.newline_notMem (h : Opens input ls rest) : ∀ l ∈ ls, '\n' ∉ l := by
  induction h with
  | nil => nofun
  | cons hl _ ih => exact List.forall_mem_cons.mpr ⟨hl.newline_notMem, ih⟩

end Stream

end Simpletron
