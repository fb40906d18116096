import Simpletron.Proofs.Asking
import Simpletron.Proofs.Playback
import Simpletron.Proofs.Session

/-! A console over a text against a script of the words in it. Programs cannot tell them apart, and
the script's outputs are what the console prints, between the questions that it asks. -/

namespace Simpletron

open Text
open Simpletron.Stream (Leads Opens)

def Request.told? : Request → Option Int
  | .read => none
  | .write v => some v

def Journal.requests {τ : Type} (y : Journal τ) : List Request := y.entries.map Prod.fst

namespace Console

inductive Enlists : List UInt8 → List Word → Prop
  | nil : Enlists [] []
  | word {input l rest w ws} : Leads input (utf8 l) rest → Enters l w → Enlists rest ws →
      Enlists input (w :: ws)
  | skip {input l rest ws} : Leads input (utf8 l) rest → (∀ w, ¬ Enters l w) → Enlists rest ws →
      Enlists input ws

/-- What a console shows of some calls, and what they leave of its input. -/
inductive Shows : (input : List UInt8) → List Request → String → (rest : List UInt8) → Prop
  | nil {input} : Shows input [] "" input
  | read {input ls mid r rest qs text last} : Opens input ls mid → (∀ l ∈ ls, ∀ w, ¬ Enters l w) →
      Settles mid r rest → Shows rest qs text last →
      Shows input (.read :: qs) (asking ls.length ++ text) last
  | write {input v qs text last} : Shows input qs text last →
      Shows input (.write v :: qs) ("Output: " ++ toString v ++ "\n" ++ text) last

variable {input mid rest last : List UInt8} {cs : List Char} {ws vs : List Word}
  {qs qs' : List Request} {sent text text' : String}

section Enlists

theorem Enlists.unique (h : Enlists input ws) (h' : Enlists input vs) : ws = vs := by
  induction h generalizing vs with
  | nil =>
    cases h' with
    | nil => rfl
    | word hl _ _ => exact absurd hl Stream.not_leads_nil
    | skip hl _ _ => exact absurd hl Stream.not_leads_nil
  | word hl hw _ ih =>
    cases h' with
    | nil => exact absurd hl Stream.not_leads_nil
    | word hl' hw' hws' =>
      obtain ⟨hline, rfl⟩ := hl.unique hl'
      rw [hw.unique (utf8_injective hline ▸ hw'), ih hws']
    | skip hl' hno _ =>
      obtain ⟨hline, -⟩ := hl.unique hl'
      exact absurd (utf8_injective hline ▸ hw) (hno _)
  | skip hl hno _ ih =>
    cases h' with
    | nil => exact absurd hl Stream.not_leads_nil
    | word hl' hw' _ =>
      obtain ⟨hline, -⟩ := hl.unique hl'
      exact absurd (utf8_injective hline ▸ hw') (hno _)
    | skip hl' _ hws' =>
      obtain ⟨-, rfl⟩ := hl.unique hl'
      exact ih hws'

theorem enlists_lines (cs : List Char) :
    Enlists (utf8 cs) ((lines Program.isLineEnd cs).filterMap word?) := by
  induction cs using lines_induction Program.isLineEnd with
  | nil => exact .nil
  | @line cs l rest hfirst ih =>
    have hl := Stream.leads_iff_firstLine?.mpr (firstLine?_utf8 hfirst)
    cases hw : word? l with
    | none =>
      rw [List.filterMap_cons_none hw]
      exact .skip hl (word?_eq_none_iff.mp hw) ih
    | some w =>
      rw [List.filterMap_cons_some hw]
      exact .word hl (word?_eq_some_iff.mp hw) ih

theorem enlists_utf8_iff :
    Enlists (utf8 cs) ws ↔ ws = (lines Program.isLineEnd cs).filterMap word? :=
  ⟨fun h => h.unique (enlists_lines cs), fun h => h ▸ enlists_lines cs⟩

theorem Enlists.exists_settles (h : Enlists input ws) :
    ∃ ls mid rest, Opens input ls mid ∧ (∀ l ∈ ls, ∀ w, ¬ Enters l w) ∧
      Settles mid (ws.head?.elim (.error .exhausted) .ok) rest ∧ Enlists rest ws.tail := by
  induction h with
  | nil => exact ⟨[], [], [], .nil, nofun, .ended, .nil⟩
  | word hl hw hws _ => exact ⟨[], _, _, .nil, nofun, .word hl hw, hws⟩
  | @skip _ l _ _ hl hno _ ih =>
    obtain ⟨ls, mid, rest, hopens, hls, hend, hws⟩ := ih
    exact ⟨l :: ls, mid, rest, .cons hl hopens, List.forall_mem_cons.mpr ⟨hno, hls⟩, hend, hws⟩

end Enlists

theorem Shows.append (h : Shows input qs text mid) (h' : Shows mid qs' text' last) :
    Shows input (qs ++ qs') (text ++ text') last := by
  induction h with
  | nil => rwa [String.empty_append]
  | read hopens hls hend _ ih =>
    rw [String.append_assoc]
    exact .read hopens hls hend (ih h')
  | write _ ih =>
    rw [String.append_assoc]
    exact .write (ih h')

theorem line_eq (v : Int) : line v = "Output: " ++ toString v ++ "\n" := by
  rw [line, Numeral.print_plain]

structure Mirrors (input : List UInt8) (c : Console) (y : Journal Script) : Prop where
  words : ∃ ws, Enlists c.input ws ∧ y.terminal.inputs = ws.map Int32.toInt
  room : c.output.room = none
  shows : Shows input y.requests c.output.sent c.input
  outputs : y.terminal.outputs.toList = y.requests.filterMap Request.told?

theorem mirrors_boot (h : Enlists input ws) :
    Mirrors input { input := input } ⟨{ inputs := ws.map Int32.toInt }, []⟩ where
  words := ⟨ws, h, rfl⟩
  room := rfl
  shows := .nil
  outputs := rfl

theorem Mirrors.note {c : Console} {y : Journal Script} {s : Script} {q : Request}
    (h : Mirrors input c y) (hws : Enlists rest ws) (hinputs : s.inputs = ws.map Int32.toInt)
    (hshows : Shows c.input [q] text rest)
    (houtputs : s.outputs.toList = y.terminal.outputs.toList ++ q.told?.toList) :
    Mirrors input ⟨rest, ⟨c.output.sent ++ text, none⟩⟩ ⟨s, y.entries ++ [(q, y.terminal)]⟩ where
  words := ⟨ws, hws, hinputs⟩
  room := rfl
  shows := by
    rw [Journal.requests, List.map_append]
    exact h.shows.append hshows
  outputs := by
    rw [houtputs, h.outputs, Journal.requests, Journal.requests, List.map_append,
      List.filterMap_append]
    cases hq : q.told? <;> simp [hq]

theorem mirrors_simulation (input : List UInt8) : Machine.Simulation (Mirrors input) := by
  rintro q ⟨now, sent, room⟩ ⟨⟨inputs, outputs⟩, entries⟩ h
  obtain ⟨ws, hws, rfl⟩ := h.words
  obtain rfl : room = none := h.room
  rw [Journal.serve_eq]
  cases q with
  | read =>
    obtain ⟨ls, mid, rest, hopens, hls, hend, htail⟩ := hws.exists_settles
    have hshows : Shows now [.read] (asking ls.length) rest := by
      have := Shows.read hopens hls hend .nil
      rwa [String.append_empty] at this
    rw [Request.serve, Request.serve, device_read (read_of_opens hopens hls hend)]
    -- The script's next input is the next word on the list.
    cases ws with
    | nil =>
      rw [Script.read_of_nil rfl]
      exact ⟨rfl, rfl, h.note htail rfl hshows (by simp [Request.told?])⟩
    | cons w ws =>
      rw [Script.read_of_cons rfl]
      exact ⟨rfl, rfl, h.note htail rfl hshows (by simp [Request.told?])⟩
  | write v =>
    have hshows : Shows now [.write v] (line v) now := by
      have := Shows.write (v := v) (@Shows.nil now)
      rwa [← line_eq, String.append_empty] at this
    rw [Request.serve, device_write, write_endless, Request.serve, Script.write_eq]
    exact ⟨rfl, rfl, h.note hws rfl hshows (by simp [Request.told?])⟩

end Console

namespace Session

/-- A session at a console with this input, one with a script, and the latter with a record of its
calls. -/
structure Agree (input : List UInt8) (a : Session Console) (s : Session Script)
    (y : Session (Journal Script)) : Prop where
  results : a.results = s.results
  machine : a.bench.machine = s.bench.machine
  retired : a.bench.retired = s.bench.retired
  recorded : Matches (fun y s => y.terminal = s) y s
  shows : Console.Shows input y.bench.terminal.requests a.bench.terminal.output.sent
    a.bench.terminal.input
  outputs : s.bench.terminal.outputs.toList = y.bench.terminal.requests.filterMap Request.told?

theorem agree_of_matches {input : List UInt8} {a : Session Console} {s : Session Script}
    {y : Session (Journal Script)} (hs : Matches (fun y s => y.terminal = s) y s)
    (ha : Matches (Console.Mirrors input) a y) : Agree input a s y where
  results := ha.results.trans hs.results
  machine := ha.machine.trans hs.machine
  retired := ha.retired.trans hs.retired
  recorded := hs
  shows := ha.terminal.shows
  outputs := by rw [← hs.terminal, ha.terminal.outputs]

theorem console_agrees_with_script (memory : Memory) (text : String) :
    let input := text.toUTF8.data.toList
    ∃ ws, (∀ vs, Console.Enlists input vs ↔ vs = ws) ∧
      let console : Console := { input := input }
      let script : Script := { inputs := ws.map Int32.toInt }
      ∀ as, ((boot memory console).acts as = none ∧ (boot memory script).acts as = none) ∨
        ∃ a s y, (boot memory console).acts as = some a ∧ (boot memory script).acts as = some s ∧
          (boot memory (Journal.mk script [])).acts as = some y ∧ Agree input a s y := by
  intro input
  have hinput : input = utf8 text.toList := data_toUTF8 text
  refine ⟨_, fun vs => hinput ▸ Console.enlists_utf8_iff, ?_⟩
  intro console script as
  have hboot := Console.mirrors_boot (hinput ▸ Console.enlists_lines text.toList)
  have hs := Matches.acts Journal.simulation
    (a := boot memory (Journal.mk script [])) (b := boot memory script) ⟨rfl, rfl, rfl, rfl⟩ as
  have ha := Matches.acts (Console.mirrors_simulation input)
    (a := boot memory console) (b := boot memory (Journal.mk script [])) ⟨rfl, rfl, rfl, hboot⟩ as
  generalize (boot memory (Journal.mk script [])).acts as = y, (boot memory console).acts as = a,
    (boot memory script).acts as = s at ha hs
  cases hs with
  | none =>
    cases ha
    exact .inl ⟨rfl, rfl⟩
  | some hs =>
    cases ha with
    | some ha => exact .inr ⟨_, _, _, rfl, rfl, rfl, agree_of_matches hs ha⟩

/-- Two machines, one after the other: a line without a word before the first number, no line end
behind the second, and nothing there for a third. -/
theorem console_agrees_with_script_successor :
    let memory := ((Memory.blank.set 0 (by decide) 1010).set 1 (by decide) 1110).set 2 (by decide) 4300
    let text := "ten\n+10\r\n -08"
    let as := [Act.run 3, .fresh, .step, .run 1]
    Console.Enlists text.toUTF8.data.toList [10, -8] ∧
      ∃ a s, (boot memory ({ input := text.toUTF8.data.toList } : Console)).acts as = some a ∧
        (boot memory ({ inputs := [10, -8] } : Script)).acts as = some s ∧
        a.results = [.ok .halted, .ok .active, .error (.terminal .exhausted)] ∧
        s.results = a.results ∧ a.bench.machine = s.bench.machine ∧
        s.bench.terminal.outputs = #[10] ∧
        a.bench.terminal.output.sent =
          "Enter an integer: *** Please enter a value between -9999 and 9999 ***\n" ++
            "Enter an integer: Output: 10\nEnter an integer: Enter an integer: " := by
  intro memory text as
  have hlist : Console.Enlists text.toUTF8.data.toList [10, -8] := by
    rw [data_toUTF8]
    exact Console.enlists_utf8_iff.mpr (by decide +kernel)
  have hscript : ((boot memory ({ inputs := [10, -8] } : Script)).acts as).map
      (fun s => (s.results, s.bench.terminal.outputs)) =
      some ([.ok .halted, .ok .active, .error (.terminal .exhausted)], #[10]) := by decide +kernel
  have hconsole : ((boot memory ({ input := text.toUTF8.data.toList } : Console)).acts as).map
      (fun a => a.bench.terminal.output.sent) =
      some ("Enter an integer: *** Please enter a value between -9999 and 9999 ***\n" ++
        "Enter an integer: Output: 10\nEnter an integer: Enter an integer: ") := by decide +kernel
  obtain ⟨ws, hws, hagree⟩ := console_agrees_with_script memory text
  obtain rfl : [10, -8] = ws := (hws _).mp hlist
  have hinputs : ([10, -8] : List Word).map Int32.toInt = [10, -8] := by decide
  simp only [hinputs] at hagree
  obtain ⟨-, hnone⟩ | ⟨a, s, y, ha, hs, -, h⟩ := hagree as
  · rw [hnone] at hscript
    cases hscript
  · rw [hs, Option.map_some, Option.some.injEq] at hscript
    rw [ha, Option.map_some, Option.some.injEq] at hconsole
    obtain ⟨hresults, houtputs⟩ := Prod.mk.inj hscript
    exact ⟨hlist, a, s, ha, hs, h.results.trans hresults, h.results.symm, h.machine, houtputs,
      hconsole⟩

end Session

end Simpletron
