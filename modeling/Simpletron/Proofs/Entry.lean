import Mathlib.Data.List.Infix
import Simpletron.CommandLine
import Simpletron.Proofs.Encoding
import Simpletron.Proofs.Grammar

namespace Simpletron

open Text

namespace Program

variable {l cs : List Char} {n : Nat}

namespace Draft

variable {d e : Draft} {r : Receipt}

theorem takeText_of_sentinel (h : Line.ofText l = .sentinel) : d.takeText n l = .ok (.done, d) := by
  rw [takeText, h, take]

theorem takeText_of_blank (h : Line.ofText l = .blank) : d.takeText n l = .ok (.blank, d) := by
  rw [takeText, h, take]

theorem append_ne_done {w : Word} : d.append n w ≠ .ok (.done, e) := by
  intro h
  unfold append at h
  split at h
  · cases h
  · split at h <;> cases h

theorem sentinel_of_done (h : d.takeText n l = .ok (.done, e)) : Line.ofText l = .sentinel := by
  rw [takeText] at h
  cases hl : Line.ofText l with
  | sentinel => rfl
  | word w =>
    rw [hl] at h
    exact absurd h append_ne_done
  | blank | unfit v | garbage text =>
    rw [hl] at h
    cases h

theorem exists_takeText_of_takeAll {ls : List (List Char)} (h : d.takeAll n (l :: ls) = .ok e)
    (hl : Line.ofText l ≠ .sentinel) :
    ∃ r d', d.takeText n l = .ok (r, d') ∧ r ≠ .done ∧ d'.takeAll (n + 1) ls = .ok e := by
  simp only [takeAll] at h
  split at h
  · cases h
  · next hd => exact absurd (sentinel_of_done hd) hl
  · next r d' hne hd => exact ⟨r, d', hd, hne, h⟩

end Draft

namespace Dialogue

variable {d : Dialogue} {bytes input line rest : List UInt8} {said : String}

theorem converse_of_again {e : Dialogue} {more : String}
    (hfirst : firstLine? Stream.isLineEnd input = some (line, rest))
    (h : d.answer line = .again more e) :
    d.converse said input = e.converse (said ++ d.prompt ++ more) rest := by
  rw [converse, hfirst]
  simp only [h]

theorem converse_of_finished {memory : Memory}
    (hfirst : firstLine? Stream.isLineEnd input = some (line, rest))
    (h : d.answer line = .finished memory) :
    d.converse said input = ⟨said ++ d.prompt, .ok memory, rest⟩ := by
  rw [converse, hfirst]
  simp only [h]

theorem converse_of_failed {cause : Error}
    (hfirst : firstLine? Stream.isLineEnd input = some (line, rest))
    (h : d.answer line = .failed cause) :
    d.converse said input = ⟨said ++ d.prompt, .error cause, rest⟩ := by
  rw [converse, hfirst]
  simp only [h]

theorem answer_of_ok {draft : Draft} {r : Draft.Receipt}
    (h : d.draft.takeText (d.count + 1) l = .ok (r, draft)) :
    d.answer (utf8 l) =
      if r = .done then .finished draft.toMemory else .again "" ⟨draft, d.count + 1⟩ := by
  simp only [answer, decode_utf8, String.toList_ofList, h]
  cases r <;> rfl

theorem converse_of_sentinel (said : String) (bytes : List UInt8) :
    d.converse said (utf8 "-99999".toList ++ 10 :: bytes) =
      ⟨said ++ d.prompt, .ok d.draft.toMemory, bytes⟩ := by
  have hline : Line.ofText "-99999".toList = .sentinel := by decide
  have hanswer := answer_of_ok (d := d) (Draft.takeText_of_sentinel hline)
  rw [if_pos rfl] at hanswer
  exact converse_of_finished (firstLine?_utf8_append (by simp [isLineEnd]) bytes) hanswer

theorem converse_of_ok {draft : Draft} {r : Draft.Receipt} (hl : ∀ c ∈ l, isLineEnd c = false)
    (h : d.draft.takeText (d.count + 1) l = .ok (r, draft)) (hr : r ≠ .done) :
    d.converse said (utf8 l ++ 10 :: bytes) =
      converse ⟨draft, d.count + 1⟩ (said ++ d.prompt) bytes := by
  have hanswer := answer_of_ok h
  rw [if_neg hr] at hanswer
  rw [converse_of_again (firstLine?_utf8_append hl bytes) hanswer, String.append_empty]

theorem star_notMem_prompt (d : Dialogue) : '*' ∉ d.prompt.toList := by
  intro h
  rw [prompt, String.toList_append, List.mem_append] at h
  obtain h | h := h
  · rw [Numeral.Format.print, String.toList_ofList] at h
    obtain h | h | h := Numeral.Format.mem_chars h <;> cases h
  · revert h
    decide

theorem exists_converse_of_takeAll {e : Draft} (cs : List Char)
    (h : d.draft.takeAll (d.count + 1) (lines isLineEnd cs) = .ok e)
    (hs : ∀ l ∈ lines isLineEnd cs, Line.ofText l ≠ .sentinel) :
    ∃ (d' : Dialogue) (more : String), d'.draft = e ∧ '*' ∉ more.toList ∧ ∀ said,
      d.converse said (utf8 cs ++ 10 :: bytes) = d'.converse (said ++ more) bytes := by
  induction cs using lines_induction isLineEnd generalizing d with
  | nil =>
    cases h
    have hb : d.draft.takeText (d.count + 1) [] = .ok (.blank, d.draft) :=
      Draft.takeText_of_blank rfl
    exact ⟨⟨d.draft, d.count + 1⟩, d.prompt, rfl, star_notMem_prompt d, fun said =>
      converse_of_ok nofun hb nofun⟩
  | @line cs l rest hfirst ih =>
    have hl := not_ends_of_firstLine? _ hfirst
    obtain ⟨r, draft, htake, hr, hrest⟩ :=
      Draft.exists_takeText_of_takeAll h (hs l List.mem_cons_self)
    obtain ⟨c, hc, rfl⟩ | ⟨_, rfl, rfl⟩ := parts_of_firstLine? _ hfirst
    · obtain rfl : c = '\n' := by simpa [isLineEnd] using hc
      obtain ⟨d', more, hd, hmore, hconverse⟩ :=
        ih (d := ⟨draft, d.count + 1⟩) hrest fun k hk => hs k (List.mem_cons_of_mem _ hk)
      refine ⟨d', d.prompt ++ more, hd, ?_, fun said => ?_⟩
      · simp [hmore, star_notMem_prompt]
      · rw [utf8_append, utf8_newline_cons, List.append_assoc, List.cons_append,
          converse_of_ok hl htake hr, hconverse, String.append_assoc]
    · cases hrest
      exact ⟨⟨_, d.count + 1⟩, d.prompt, rfl, star_notMem_prompt d, fun said =>
        converse_of_ok hl htake hr⟩

theorem exists_transcript {s : String} {memory : Memory} (h : parse s = .ok memory)
    (hs : ∀ l ∈ lines isLineEnd s.toList, Line.ofText l ≠ .sentinel) (t : List UInt8) :
    ∃ more : String, '*' ∉ more.toList ∧
      transcript (utf8 (s ++ "\n-99999\n").toList ++ t) = ⟨welcome ++ more, .ok memory, t⟩ := by
  unfold parse at h
  cases hd : Draft.empty.takeAll 1 (lines isLineEnd s.toList) with
  | error e =>
    rw [hd] at h
    cases h
  | ok draft =>
    rw [hd] at h
    cases h
    obtain ⟨d, more, rfl, hmore, hconverse⟩ := exists_converse_of_takeAll (d := {}) s.toList hd hs
    refine ⟨more ++ d.prompt, by simp [hmore, star_notMem_prompt], ?_⟩
    have hbytes : utf8 (s ++ "\n-99999\n").toList ++ t =
        utf8 s.toList ++ 10 :: (utf8 "-99999".toList ++ 10 :: t) := by
      rw [String.toList_append, utf8_append, List.append_assoc]
      rfl
    rw [transcript, hbytes, hconverse, converse_of_sentinel, String.append_assoc]

end Dialogue

end Program

namespace CommandLine

open Program

def loaded : String := "*** Program loading completed ***\n"

/-- What is shown from the first line of the opening on. -/
def fromLoaded (stdout : String) : Option (List Char) :=
  stdout.toList.tails.find? fun cs => loaded.toList.isPrefixOf cs

theorem find?_tails_append {p : List Char → Bool} {cs ds : List Char}
    (h : ∀ u, u ≠ [] → u <:+ cs → p (u ++ ds) = false) :
    (cs ++ ds).tails.find? p = ds.tails.find? p := by
  induction cs with
  | nil => rfl
  | cons c cs ih =>
    rw [List.cons_append, List.tails_cons, List.find?_cons_of_neg]
    · exact ih fun u hne hu => h u hne (hu.trans (List.suffix_cons c cs))
    · rw [← List.cons_append, h _ (List.cons_ne_nil c cs) (List.suffix_refl _)]
      exact Bool.false_ne_true

theorem welcome_mismatch : ∀ u ∈ Dialogue.welcome.toList.tails,
    u = [] ∨ (¬ u <+: loaded.toList ∧ ¬ loaded.toList <+: u) := by
  -- As lists of characters first: the bytes of a text are slow to decode.
  simp only [Dialogue.welcome, loaded, String.toList_join, List.flatMap_cons, List.flatMap_nil,
    String.reduceToList]
  decide +kernel

theorem fromLoaded_append {more : String} (hmore : '*' ∉ more.toList) (stdout : String) :
    fromLoaded (Dialogue.welcome ++ more ++ stdout) = fromLoaded stdout := by
  rw [fromLoaded, String.toList_append, String.toList_append, List.append_assoc,
    find?_tails_append, find?_tails_append, fromLoaded]
  · intro u hne hu
    rw [Bool.eq_false_iff, ne_eq, List.isPrefixOf_iff_prefix]
    intro hpre
    obtain ⟨x, u, rfl⟩ := List.exists_cons_of_ne_nil hne
    obtain rfl : '*' = x := (List.cons_prefix_cons.mp hpre).1
    exact hmore (hu.subset List.mem_cons_self)
  · intro u hne hu
    rw [Bool.eq_false_iff, ne_eq, List.isPrefixOf_iff_prefix]
    intro hpre
    obtain hnil | ⟨hleft, hright⟩ := welcome_mismatch u ((List.mem_tails u _).mpr hu)
    · exact hne hnil
    · exact (List.prefix_or_prefix_of_prefix hpre (List.prefix_append u _)).elim hright hleft

theorem opening_eq : opening = loaded ++ "*** Program execution begins  ***\n" := by decide

theorem fromLoaded_opening (rest : String) :
    fromLoaded (opening ++ rest) = some (opening ++ rest).toList := by
  have hpre : loaded.toList.isPrefixOf (opening ++ rest).toList := by
    rw [List.isPrefixOf_iff_prefix, opening_eq, String.append_assoc, String.toList_append]
    exact List.prefix_append _ _
  cases hcs : (opening ++ rest).toList with
  | nil => simp [hcs, loaded] at hpre
  | cons c cs =>
    rw [fromLoaded, hcs, List.tails_cons, List.find?_cons_of_pos]
    rwa [hcs] at hpre

/-- The report on a program that ended its run so, behind what was said while it was loaded. -/
inductive Tells (said : String) (dump : Bool) : Machine.Turn Console → Report → Prop
  | ok {status m c} : Tells said dump ⟨.ok status, m, c⟩
      { stdout := said ++ "*** Program loading completed ***\n*** Program execution begins  ***\n" ++
          c.output.sent ++ "*** Simpletron execution terminated ***\n" ++ if dump then m.dump else ""
        exit := 0 }
  | error {f m c} : Tells said dump ⟨.error f, m, c⟩
      { stdout := said ++ "*** Program loading completed ***\n*** Program execution begins  ***\n" ++
          c.output.sent ++ "*** " ++ f.message ++
          " ***\n*** Simpletron execution abnormally terminated ***\n" ++ if dump then m.dump else ""
        exit := 1 }

structure Report.Agrees (r r' : Report) : Prop where
  exit : r'.exit = r.exit
  stdout : fromLoaded r'.stdout = fromLoaded r.stdout
  shown : fromLoaded r.stdout = some r.stdout.toList

theorem Tells.agrees {said : String} {dump : Bool} {turn : Machine.Turn Console} {r r' : Report}
    (hsaid : ∀ stdout, fromLoaded (said ++ stdout) = fromLoaded stdout) (h : Tells "" dump turn r)
    (h' : Tells said dump turn r') : r.Agrees r' := by
  cases h <;> cases h' <;>
  · refine ⟨rfl, ?_, ?_⟩
    · simp only [String.append_assoc, String.empty_append, hsaid]
    · simp only [String.append_assoc, String.empty_append]
      exact fromLoaded_opening _

theorem execute_of_load {source : Source} {input rest : List UInt8} {said : String}
    {memory : Memory} (h : source.load input = ⟨said, .ok memory, rest⟩) (limit : Nat)
    (dump : Bool) :
    Option.Rel (Tells said dump) ((Machine.boot memory).run limit ({ input := rest } : Console))
      (execute limit source dump input) := by
  rw [execute, h]
  dsimp only
  cases (Machine.boot memory).run limit ({ input := rest } : Console) with
  | none => exact .none
  | some turn =>
    obtain ⟨result, m, c⟩ := turn
    cases result with
    | ok status =>
      refine .some ?_
      simp only [closing, verdict, ← String.append_assoc]
      exact .ok
    | error f =>
      refine .some ?_
      simp only [closing, verdict, ← String.append_assoc]
      exact .error

theorem load_file (path s : String) (input : List UInt8) :
    (Source.file path (.ok (utf8 s.toList))).load input =
      ⟨"", (parse s).mapError fun err => ⟨"failed to load " ++ path, causes err⟩, input⟩ := by
  simp only [Source.load, parseFile, Except.bind, decode_utf8, String.ofList_toList]

/-- Loaded either way, it is the same program with the same input before it. -/
theorem typed_agrees_with_file {s : String} {memory : Memory} (h : parse s = .ok memory)
    (hs : ∀ l ∈ lines isLineEnd s.toList, ¬ Line.Says l .sentinel) (path : String)
    (t : List UInt8) :
    let file := Source.file path (.ok (utf8 s.toList))
    let typed := utf8 (s ++ "\n-99999\n").toList ++ t
    ((file.load t).result = .ok memory ∧ (file.load t).rest = t) ∧
      ((Source.dialogue.load typed).result = .ok memory ∧ (Source.dialogue.load typed).rest = t) ∧
      ∃ said : String, (∀ stdout, fromLoaded (said ++ stdout) = fromLoaded stdout) ∧
        ∀ limit dump,
          let run := (Machine.boot memory).run limit ({ input := t } : Console)
          Option.Rel (Tells "" dump) run (execute limit file dump t) ∧
            Option.Rel (Tells said dump) run (execute limit .dialogue dump typed) ∧
            Option.Rel Report.Agrees (execute limit file dump t)
              (execute limit .dialogue dump typed) := by
  intro file typed
  have hsentinel : ∀ l ∈ lines isLineEnd s.toList, Line.ofText l ≠ .sentinel :=
    fun l hl => mt Line.ofText_eq_iff_says.mp (hs l hl)
  obtain ⟨more, hmore, htranscript⟩ := Dialogue.exists_transcript h hsentinel t
  have hsaid := fromLoaded_append hmore
  have hfile : file.load t = ⟨"", .ok memory, t⟩ := by
    rw [load_file, h]
    rfl
  have htyped : Source.dialogue.load typed = ⟨Dialogue.welcome ++ more, .ok memory, t⟩ := by
    rw [Source.load, htranscript]
    rfl
  refine ⟨by simp [hfile], by simp [htyped], _, hsaid, fun limit dump => ?_⟩
  have hleft := execute_of_load hfile limit dump
  have hright := execute_of_load htyped limit dump
  refine ⟨hleft, hright, ?_⟩
  generalize (Machine.boot memory).run limit ({ input := t } : Console) = run,
    execute limit file dump t = x, execute limit .dialogue dump typed = y at hleft hright
  cases hleft with
  | none =>
    cases hright
    exact .none
  | some htell =>
    cases hright with
    | some htell' => exact .some (htell.agrees hsaid htell')

theorem typed_agrees_with_file_read :
    let s := "1002 # in\n4300"
    let memory := (Memory.blank.set 0 (by decide) 1002).set 1 (by decide) 4300
    let t : List UInt8 := [55, 10, 195]
    let file := Source.file "program.sml" (.ok (utf8 s.toList))
    let typed := utf8 (s ++ "\n-99999\n").toList ++ t
    parse s = .ok memory ∧ (∀ l ∈ lines isLineEnd s.toList, ¬ Line.Says l .sentinel) ∧
      (Source.dialogue.load typed).rest = [55, 10, 195] ∧
      ∃ r r', execute 2 file false t = some r ∧ execute 2 .dialogue false typed = some r' ∧
        r.exit = 0 ∧ r'.exit = 0 ∧
        r.stdout = "*** Program loading completed ***\n*** Program execution begins  ***\n" ++
          "Enter an integer: *** Simpletron execution terminated ***\n" ∧
        fromLoaded r'.stdout = some r.stdout.toList := by
  intro s memory t file typed
  have hparse : parse s = .ok memory := by decide +kernel
  have hs : ∀ l ∈ lines isLineEnd s.toList, ¬ Line.Says l .sentinel := by
    simp only [← Line.ofText_eq_iff_says]
    decide +kernel
  obtain ⟨-, ⟨-, hrest⟩, _, -, hexec⟩ := typed_agrees_with_file hparse hs "program.sml" t
  have hfile : (execute 2 file false t).map (fun r => (r.exit, r.stdout)) =
      some (0, "*** Program loading completed ***\n*** Program execution begins  ***\n" ++
        "Enter an integer: *** Simpletron execution terminated ***\n") := by decide +kernel
  obtain ⟨-, -, hagrees⟩ := hexec 2 false
  generalize execute 2 file false t = x, execute 2 .dialogue false typed = y at hfile hagrees ⊢
  cases hagrees with
  | none => cases hfile
  | some h =>
    obtain ⟨hexit, hstdout⟩ := Prod.mk.inj (Option.some.inj hfile)
    exact ⟨hparse, hs, hrest, _, _, rfl, rfl, hexit, h.exit.trans hexit, hstdout,
      h.stdout.trans h.shown⟩

end CommandLine

end Simpletron
