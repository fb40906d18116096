import Simpletron.Proofs.Entry
import Simpletron.Proofs.Scan

namespace Simpletron

open Text Text.Numeral

namespace Program

open Simpletron.Stream (Leads Opens)

def Line.isFaulty : Line → Bool
  | .unfit _ | .garbage _ => true
  | _ => false

def Line.word? : Line → Option Word
  | .word w => some w
  | _ => none

def wordsOn (ls : List (List Char)) : List Word := ls.filterMap fun l => (Line.ofText l).word?

def corrected (ls : List (List Char)) : List (List Char) :=
  ls.filter fun l => !(Line.ofText l).isFaulty

structure GoesOn (ls : List (List Char)) : Prop where
  unended : ∀ l ∈ ls, Line.ofText l ≠ .sentinel
  room : (wordsOn ls).length ≤ 100

/-- No line can be added to these: the next one ends the program, holds a word too many, is no text,
or is not there. -/
def Stopped (ls : List (List Char)) (rest : List UInt8) : Prop :=
  ∀ l more, Leads rest (utf8 l) more → ¬ GoesOn (ls ++ [l])

namespace Dialogue

def remark (n : Nat) : Line → String
  | .garbage text => "*** line " ++ toString n ++ ": `" ++ text ++ "` is not a word, try again ***\n"
  | .unfit v => "*** line " ++ toString n ++ ": " ++ toString v ++
      " does not fit in a word (-9999 to 9999), try again ***\n"
  | _ => ""

def asking (count : Nat) : String := (if count < 10 then "0" else "") ++ toString count ++ " ? "

def shown (ls : List (List Char)) : String :=
  String.join (ls.mapIdx fun i l =>
    asking (wordsOn (ls.take i)).length ++ remark (i + 1) (Line.ofText l))

structure Holds (d : Dialogue) (ls : List (List Char)) : Prop where
  count : d.count = ls.length
  draft : d.draft.Lays (wordsOn ls)

/-- How the dialogue ends after these lines, with this ahead: the result, and what is not read. -/
inductive Ends (ls : List (List Char)) : List UInt8 → Except Error Memory → List UInt8 → Prop
  | input {m} : m.Lays (wordsOn ls) → parse (textOf (corrected ls)) = .ok m → Ends ls [] (.ok m) []
  | sentinel {l rest more m} : Leads rest (utf8 l) more → Line.Says l .sentinel →
      m.Lays (wordsOn ls) → parse (textOf (corrected (ls ++ [l]))) = .ok m →
      Ends ls rest (.ok m) more
  | surplus {l w rest more} : Leads rest (utf8 l) more → Line.Says l (.word w) →
      (wordsOn ls).length = 100 → parse (textOf (corrected (ls ++ [l]))) = .error .full →
      Ends ls rest (.error .full) more
  | notText {line rest more} : Leads rest line more → (∀ l, line ≠ utf8 l) →
      Ends ls rest (.error (.stream .notText)) more

end Dialogue

variable {l : List Char} {ls us : List (List Char)} {w : Word} {m : Memory}
  {input rest more : List UInt8}

section Lines

theorem wordsOn_append (us ls : List (List Char)) : wordsOn (us ++ ls) = wordsOn us ++ wordsOn ls :=
  List.filterMap_append

theorem wordsOn_concat_of_none (h : (Line.ofText l).word? = none) :
    wordsOn (ls ++ [l]) = wordsOn ls := by
  simp [wordsOn, h]

theorem wordsOn_concat_of_some (h : (Line.ofText l).word? = some w) :
    wordsOn (ls ++ [l]) = wordsOn ls ++ [w] := by
  simp [wordsOn, h]

theorem Line.word?_eq_some_iff {line : Line} : line.word? = some w ↔ line = .word w := by
  cases line <;> simp [word?]

theorem goesOn_nil : GoesOn [] := ⟨nofun, Nat.zero_le 100⟩

theorem GoesOn.of_prefix (h : GoesOn ls) (hp : us <+: ls) : GoesOn us where
  unended l hl := h.unended l (hp.subset hl)
  room := by
    obtain ⟨vs, rfl⟩ := hp
    have := h.room
    rw [wordsOn_append, List.length_append] at this
    omega

theorem GoesOn.concat (h : GoesOn ls) (hl : Line.ofText l ≠ .sentinel)
    (hroom : (wordsOn (ls ++ [l])).length ≤ 100) : GoesOn (ls ++ [l]) where
  unended := by
    rw [List.forall_mem_append, List.forall_mem_singleton]
    exact ⟨h.unended, hl⟩
  room := hroom

theorem exists_opens (input : List UInt8) (hg : GoesOn us) :
    ∃ ls rest, Opens input ls rest ∧ GoesOn (us ++ ls) ∧ Stopped (us ++ ls) rest := by
  induction input using lines_induction Stream.isLineEnd generalizing us with
  | nil =>
    refine ⟨[], [], .nil, by rwa [List.append_nil], fun l more hl => ?_⟩
    cases Stream.leads_iff_firstLine?.mp hl
  | @line input line rest hfirst ih =>
    by_cases hstop : Stopped us input
    · exact ⟨[], input, .nil, by rwa [List.append_nil], by rwa [List.append_nil]⟩
    · simp only [Stopped, not_forall, not_not] at hstop
      obtain ⟨l, more, hl, hg'⟩ := hstop
      cases hfirst.symm.trans (Stream.leads_iff_firstLine?.mp hl)
      obtain ⟨ls, rest', hopens, hgoes, hstopped⟩ := ih hg'
      rw [List.append_assoc, List.singleton_append] at hgoes hstopped
      exact ⟨l :: ls, rest', .cons hl hopens, hgoes, hstopped⟩

theorem Stopped.sentinel_or_surplus (h : Stopped ls rest) (hg : GoesOn ls)
    (hl : Leads rest (utf8 l) more) :
    Line.ofText l = .sentinel ∨ ∃ w, Line.ofText l = .word w ∧ (wordsOn ls).length = 100 := by
  by_cases hs : Line.ofText l = .sentinel
  · exact .inl hs
  · have hroom : 100 < (wordsOn (ls ++ [l])).length :=
      Nat.lt_of_not_le fun hle => h l more hl (hg.concat hs hle)
    have hle := hg.room
    cases hw : (Line.ofText l).word? with
    | none =>
      rw [wordsOn_concat_of_none hw] at hroom
      exact absurd hle (Nat.not_le_of_lt hroom)
    | some w =>
      rw [wordsOn_concat_of_some hw, List.length_append, List.length_singleton] at hroom
      exact .inr ⟨w, Line.word?_eq_some_iff.mp hw, by omega⟩

end Lines

section Parse

theorem words_corrected (h : ∀ l ∈ ls, Line.ofText l ≠ .sentinel) :
    Words (corrected ls) (wordsOn ls) := by
  induction ls with
  | nil => exact .nil
  | cons l ls ih =>
    obtain ⟨hl, hls⟩ := List.forall_mem_cons.mp h
    have hsays := Line.says_ofText l
    simp only [corrected, wordsOn, List.filter_cons, List.filterMap_cons] at *
    cases hline : Line.ofText l with
    | sentinel => exact absurd hline hl
    | blank => exact .blank (hline ▸ hsays) (ih hls)
    | word w => exact .word (hline ▸ hsays) (ih hls)
    | unfit v => exact ih hls
    | garbage text => exact ih hls

theorem corrected_concat (h : (Line.ofText l).isFaulty = false) :
    corrected (ls ++ [l]) = corrected ls ++ [l] := by
  simp [corrected, h]

theorem parse_corrected {r : Except Error Memory} (hg : GoesOn ls) (tail : List (List Char))
    (hls : ∀ l ∈ corrected ls ++ tail, '\n' ∉ l)
    (h : Stops (1 + (corrected ls).length) (wordsOn ls) tail r) :
    parse (textOf (corrected ls ++ tail)) = r :=
  parse_textOf (words_corrected hg.unended) hg.room hls h

theorem parse_corrected_concat {r : Except Error Memory} (hg : GoesOn ls)
    (hls : ∀ k ∈ ls, '\n' ∉ k) (hl : '\n' ∉ l) (hfaulty : (Line.ofText l).isFaulty = false)
    (h : Stops (1 + (corrected ls).length) (wordsOn ls) [l] r) :
    parse (textOf (corrected (ls ++ [l]))) = r := by
  rw [corrected_concat hfaulty]
  refine parse_corrected hg [l] ?_ h
  rw [List.forall_mem_append, List.forall_mem_singleton]
  exact ⟨fun k hk => hls k (List.mem_of_mem_filter hk), hl⟩

end Parse

namespace Dialogue

variable {d : Dialogue} {said : String}

theorem shown_nil : shown [] = "" := rfl

theorem shown_concat (ls : List (List Char)) (l : List Char) :
    shown (ls ++ [l]) =
      shown ls ++ (asking (wordsOn ls).length ++ remark (ls.length + 1) (Line.ofText l)) := by
  have hbefore : (ls.mapIdx fun i k =>
      asking (wordsOn ((ls ++ [l]).take i)).length ++ remark (i + 1) (Line.ofText k)) =
      ls.mapIdx fun i k =>
        asking (wordsOn (ls.take i)).length ++ remark (i + 1) (Line.ofText k) := by
    rw [List.mapIdx_eq_mapIdx_iff]
    intro i hi
    rw [List.take_append_of_le_length hi.le]
  rw [shown, List.mapIdx_concat, hbefore, List.take_left, String.join_append, shown]
  simp

theorem Holds.prompt_eq (h : d.Holds ls) : d.prompt = asking (wordsOn ls).length := by
  rw [prompt, h.draft.location, print_half, asking]

theorem Holds.concat_of_none (h : d.Holds ls) (hl : (Line.ofText l).word? = none) :
    Holds ⟨d.draft, d.count + 1⟩ (ls ++ [l]) where
  count := by simp [h.count]
  draft := by
    rw [wordsOn_concat_of_none hl]
    exact h.draft

theorem complaint_garbage (n : Nat) (text : String) :
    complaint (.garbage n text) = remark n (.garbage text) := by
  have hopening : "*** line " = "*** " ++ "line " := by decide
  have hend : "` is not a word, try again ***\n" = "` is not a word" ++ ", try again ***\n" := by
    decide +kernel
  unfold complaint Error.message
  simp only [print_plain_natCast, remark, hopening, hend, String.append_assoc]

theorem complaint_unfit (n : Nat) (v : Int) : complaint (.unfit n v) = remark n (.unfit v) := by
  have hopening : "*** line " = "*** " ++ "line " := by decide
  have hend : " does not fit in a word (-9999 to 9999), try again ***\n" =
      " does not fit in a word (-9999 to 9999)" ++ ", try again ***\n" := by decide +kernel
  unfold complaint Error.message
  simp only [Word.refusal, print_plain_natCast, print_plain v, remark, hopening, hend,
    String.append_assoc]

theorem answer_of_error {err : Error} (h : d.draft.takeText (d.count + 1) l = .error err)
    (herr : err ≠ .full) : d.answer (utf8 l) = .again (complaint err) ⟨d.draft, d.count + 1⟩ := by
  simp only [Dialogue.answer, decode_utf8, String.toList_ofList, h]

theorem answer_of_faulty (d : Dialogue) (h : (Line.ofText l).isFaulty) :
    d.answer (utf8 l) = .again (remark (d.count + 1) (Line.ofText l)) ⟨d.draft, d.count + 1⟩ := by
  cases hline : Line.ofText l with
  | unfit v =>
    have htake : d.draft.takeText (d.count + 1) l = .error (.unfit (d.count + 1) v) := by
      rw [Draft.takeText, hline, Draft.take]
    rw [answer_of_error htake Error.noConfusion, complaint_unfit]
  | garbage text =>
    have htake : d.draft.takeText (d.count + 1) l = .error (.garbage (d.count + 1) text) := by
      rw [Draft.takeText, hline, Draft.take]
    rw [answer_of_error htake Error.noConfusion, complaint_garbage]
  | blank | sentinel | word w =>
    rw [hline] at h
    cases h

theorem answer_of_full (h : d.draft.takeText (d.count + 1) l = .error .full) :
    d.answer (utf8 l) = .failed .full := by
  simp only [Dialogue.answer, decode_utf8, String.toList_ofList, h]

theorem Holds.answer (h : d.Holds ls) (hg : GoesOn (ls ++ [l])) :
    ∃ e : Dialogue, d.answer (utf8 l) = .again (remark (ls.length + 1) (Line.ofText l)) e ∧
      e.Holds (ls ++ [l]) := by
  have hfaulty : (Line.ofText l).isFaulty → (Line.ofText l).word? = none →
      ∃ e : Dialogue, d.answer (utf8 l) = .again (remark (ls.length + 1) (Line.ofText l)) e ∧
        e.Holds (ls ++ [l]) := fun hf hw => by
    rw [answer_of_faulty d hf, h.count]
    exact ⟨_, rfl, h.count ▸ h.concat_of_none hw⟩
  cases hline : Line.ofText l with
  | sentinel => exact absurd hline (hg.unended l List.mem_concat_self)
  | blank =>
    have htake := Draft.takeText_of_blank (d := d.draft) (n := d.count + 1) hline
    exact ⟨_, answer_of_ok htake, h.concat_of_none (by rw [hline]; rfl)⟩
  | word w =>
    have hsays := hline ▸ Line.says_ofText l
    have hwords : wordsOn (ls ++ [l]) = wordsOn ls ++ [w] :=
      wordsOn_concat_of_some (by rw [hline]; rfl)
    have hroom := hg.room
    rw [hwords, List.length_append, List.length_singleton] at hroom
    obtain ⟨e, he, hlays⟩ := Draft.take_word (n := d.count + 1) h.draft hsays.inRange hroom
    refine ⟨⟨e, d.count + 1⟩, answer_of_ok (by rw [Draft.takeText, hline, he]), ?_, ?_⟩
    · simp [h.count]
    · rwa [hwords]
  | unfit v => exact hline ▸ hfaulty (by rw [hline]; rfl) (by rw [hline]; rfl)
  | garbage text => exact hline ▸ hfaulty (by rw [hline]; rfl) (by rw [hline]; rfl)

theorem Holds.converse (h : d.Holds us) (ho : Opens input ls rest) (hg : GoesOn (us ++ ls))
    (said : String) :
    ∃ e : Dialogue, e.Holds (us ++ ls) ∧
      d.converse (said ++ shown us) input = e.converse (said ++ shown (us ++ ls)) rest := by
  induction ho generalizing us d with
  | nil => exact ⟨d, by rwa [List.append_nil], by rw [List.append_nil]⟩
  | @cons input l more ls rest hl _ ih =>
    rw [← List.singleton_append, ← List.append_assoc] at hg ⊢
    obtain ⟨e, hanswer, he⟩ := h.answer (hg.of_prefix (List.prefix_append _ _))
    obtain ⟨e', he', hconverse⟩ := ih he hg
    refine ⟨e', he', ?_⟩
    rw [converse_of_again (Stream.leads_iff_firstLine?.mp hl) hanswer, h.prompt_eq, ← hconverse,
      shown_concat]
    simp only [String.append_assoc]

theorem Holds.ends (h : d.Holds ls) (hg : GoesOn ls) (hls : ∀ l ∈ ls, '\n' ∉ l)
    (hstopped : Stopped ls rest) (said : String) :
    ∃ r more, Ends ls rest r more ∧
      d.converse said rest = ⟨said ++ asking (wordsOn ls).length, r, more⟩ := by
  have hlays : d.draft.toMemory.Lays (wordsOn ls) := h.draft.memory
  rw [← h.prompt_eq]
  cases hfirst : firstLine? Stream.isLineEnd rest with
  | none =>
    obtain rfl := (firstLine?_eq_none_iff _).mp hfirst
    refine ⟨_, _, .input hlays ?_, by rw [Dialogue.converse, hfirst]⟩
    rw [← List.append_nil (corrected ls)]
    refine parse_corrected hg [] ?_ (.finish hlays)
    rw [List.append_nil]
    exact fun k hk => hls k (List.mem_of_mem_filter hk)
  | some next =>
    obtain ⟨line, more⟩ := next
    have hleads := Stream.leads_iff_firstLine?.mpr hfirst
    by_cases htext : ∃ l, line = utf8 l
    · obtain ⟨l, rfl⟩ := htext
      have hparse {r : Except Error Memory} :=
        parse_corrected_concat (r := r) hg hls hleads.newline_notMem
      obtain hline | ⟨w, hline, hfull⟩ := hstopped.sentinel_or_surplus hg hleads <;>
        have hsays := hline ▸ Line.says_ofText l
      · have htake := Draft.takeText_of_sentinel (d := d.draft) (n := d.count + 1) hline
        exact ⟨_, _, .sentinel hleads hsays hlays
            (hparse (by rw [hline]; rfl) (.sentinel hsays hlays)),
          converse_of_finished hfirst (answer_of_ok htake)⟩
      · have htake : d.draft.takeText (d.count + 1) l = .error .full := by
          rw [Draft.takeText, hline, Draft.take_word_full h.draft hfull]
        exact ⟨_, _, .surplus hleads hsays hfull (hparse (by rw [hline]; rfl) (.full hsays hfull)),
          converse_of_failed hfirst (answer_of_full htake)⟩
    · rw [not_exists] at htext
      refine ⟨_, _, .notText hleads htext, converse_of_failed hfirst ?_⟩
      rw [Dialogue.answer, decode_eq_error_iff.mpr ⟨htext, rfl⟩]

theorem holds_empty : Holds {} [] := ⟨rfl, Draft.lays_empty⟩

/-- The dialogue shows a prompt before every line, complains about every line in error, and is left
with what the other lines hold. -/
theorem transcript_corrects (input : List UInt8) :
    (∃ ls rest, Opens input ls rest ∧ (∀ l ∈ ls, Line.Says l (Line.ofText l)) ∧ GoesOn ls ∧
      (transcript input).said = welcome ++ shown ls ++ asking (wordsOn ls).length ∧
      Ends ls rest (transcript input).result (transcript input).rest ∧
      ∀ us mid, us <+: ls → Opens input us mid →
        ∃ d : Dialogue, d.Holds us ∧ transcript input = d.converse (welcome ++ shown us) mid) ∧
    ∀ (d : Dialogue) (l : List Char) (line : Line), Line.Says l line → line.isFaulty →
      d.answer (utf8 l) = .again (remark (d.count + 1) line) ⟨d.draft, d.count + 1⟩ := by
  obtain ⟨ls, rest, hopens, hgoes, hstopped⟩ := exists_opens input goesOn_nil
  rw [List.nil_append] at hgoes hstopped
  have hreaches : ∀ us mid, us <+: ls → Opens input us mid →
      ∃ d : Dialogue, d.Holds us ∧ transcript input = d.converse (welcome ++ shown us) mid := by
    intro us mid hus ho
    obtain ⟨d, hd, heq⟩ := holds_empty.converse ho (hgoes.of_prefix hus) welcome
    rw [shown_nil, String.append_empty] at heq
    exact ⟨d, hd, heq⟩
  have hanswer : ∀ (d : Dialogue) (l : List Char) (line : Line), Line.Says l line → line.isFaulty →
      d.answer (utf8 l) = .again (remark (d.count + 1) line) ⟨d.draft, d.count + 1⟩ := by
    intro d l line hsays hfaulty
    obtain rfl := hsays.ofText_eq
    exact answer_of_faulty d hfaulty
  obtain ⟨d, hd, heq⟩ := hreaches ls rest List.prefix_rfl hopens
  obtain ⟨r, more, hends, hr⟩ := hd.ends hgoes hopens.newline_notMem hstopped (welcome ++ shown ls)
  rw [hr] at heq
  refine ⟨⟨ls, rest, hopens, fun l _ => Line.says_ofText l, hgoes, ?_, ?_, hreaches⟩, hanswer⟩
  · rw [heq]
  · rw [heq]
    exact hends

theorem transcript_corrects_typo :
    let l := "43OO".toList
    let input := utf8 l ++ 10 :: utf8 "10000\n+7 # seven\n-99999\n8".toList
    Line.Says l (.garbage "43OO") ∧
      answer {} (utf8 l) = .again "*** line 1: `43OO` is not a word, try again ***\n" ⟨{}, 1⟩ ∧
      (transcript input).said = welcome ++
        "00 ? *** line 1: `43OO` is not a word, try again ***\n" ++
        "00 ? *** line 2: 10000 does not fit in a word (-9999 to 9999), try again ***\n" ++
        "00 ? 01 ? " ∧
      (transcript input).result = .ok (Memory.blank.set 0 (by decide) 7) ∧
      (transcript input).rest = [56] := by
  intro l input
  have htypo : Line.Says l (.garbage "43OO") := Line.ofText_eq_iff_says.mp (by decide +kernel)
  have hremark : remark 1 (.garbage "43OO") =
      "*** line 1: `43OO` is not a word, try again ***\n" := by decide
  obtain ⟨-, hanswer⟩ := transcript_corrects input
  have hfirst := hanswer {} l _ htypo rfl
  rw [show ({} : Dialogue).count + 1 = 1 from rfl, hremark] at hfirst
  exact ⟨htypo, hfirst, by decide +kernel, by decide +kernel, by decide +kernel⟩

end Dialogue

end Program

end Simpletron
