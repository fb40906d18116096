import Mathlib.Data.List.GetD
import Simpletron.Program.Draft
import Simpletron.Proofs.Grammar
import Simpletron.Proofs.Lines

namespace Simpletron

def Memory.Lays (m : Memory) (ws : List Word) : Prop :=
  ∀ (a : Nat) (h : a < 100), m[a] = ws.getD a 0

theorem Memory.exists_lays (ws : List Word) : ∃ m : Memory, m.Lays ws :=
  ⟨⟨.ofFn fun a => ws.getD a 0⟩, fun _ h => Vector.getElem_ofFn h⟩

theorem Memory.Lays.unique {m n : Memory} {ws : List Word} (hm : m.Lays ws) (hn : n.Lays ws) :
    m = n :=
  Memory.ext fun a h => (hm a h).trans (hn a h).symm

namespace Program

/-- Lines end at a newline, and a carriage return before it is part of the end. What is left after
the last newline is one more line. -/
inductive SourceLines : List Char → List (List Char) → Prop
  | nil : SourceLines [] []
  | last {l} : '\n' ∉ l → l ≠ [] → SourceLines l [l]
  | newline {l cs ls} : '\n' ∉ l → l.getLast? ≠ some '\r' → SourceLines cs ls →
      SourceLines (l ++ '\n' :: cs) (l :: ls)
  | crlf {l cs ls} : '\n' ∉ l → SourceLines cs ls → SourceLines (l ++ '\r' :: '\n' :: cs) (l :: ls)

inductive Words : List (List Char) → List Word → Prop
  | nil : Words [] []
  | blank {l ls ws} : Line.Says l .blank → Words ls ws → Words (l :: ls) ws
  | word {l ls w ws} : Line.Says l (.word w) → Words ls ws → Words (l :: ls) (w :: ws)

inductive Stops (n : Nat) (ws : List Word) : List (List Char) → Except Error Memory → Prop
  | finish {m} : m.Lays ws → Stops n ws [] (.ok m)
  | sentinel {l ls m} : Line.Says l .sentinel → m.Lays ws → Stops n ws (l :: ls) (.ok m)
  | garbage {l ls text} : Line.Says l (.garbage text) →
      Stops n ws (l :: ls) (.error (.garbage n text))
  | unfit {l ls v} : Line.Says l (.unfit v) → Stops n ws (l :: ls) (.error (.unfit n v))
  | full {l ls w} : Line.Says l (.word w) → ws.length = 100 → Stops n ws (l :: ls) (.error .full)

/-- Reading these lines, of which the first has number `n`, after the words `us`: the lines before
the one that stops it hold no more words than there is room for. -/
def Scans (n : Nat) (us : List Word) (ls : List (List Char)) (r : Except Error Memory) : Prop :=
  ∃ before rest ws, ls = before ++ rest ∧ Words before ws ∧ (us ++ ws).length ≤ 100 ∧
    Stops (n + before.length) (us ++ ws) rest r

def textOf (ls : List (List Char)) : String := String.ofList (ls.flatMap (· ++ ['\n']))

variable {cs l : List Char} {ls before rest : List (List Char)} {w : Word} {ws us : List Word}

section Lines

theorem not_isLineEnd_iff : (∀ c ∈ l, isLineEnd c = false) ↔ '\n' ∉ l := by
  simp only [isLineEnd, beq_eq_false_iff_ne]
  exact ⟨fun h hl => h _ hl rfl, fun h c hc he => h (he ▸ hc)⟩

theorem exists_sourceLines (cs : List Char) : ∃ ls, SourceLines cs ls := by
  induction cs using Text.lines_induction isLineEnd with
  | nil => exact ⟨_, .nil⟩
  | @line cs l rest h ih =>
    obtain ⟨ls, hls⟩ := ih
    have hl := not_isLineEnd_iff.mp (Text.not_ends_of_firstLine? _ h)
    obtain ⟨e, he, rfl⟩ | ⟨hne, rfl, rfl⟩ := Text.parts_of_firstLine? _ h
    · obtain rfl : e = '\n' := by simpa [isLineEnd] using he
      by_cases hcr : l.getLast? = some '\r'
      · obtain ⟨k, rfl⟩ := List.getLast?_eq_some_iff.mp hcr
        have hk : '\n' ∉ k := fun hk => hl (List.mem_append_left _ hk)
        rw [List.append_assoc]
        exact ⟨_, .crlf hk hls⟩
      · exact ⟨_, .newline hl hcr hls⟩
    · exact ⟨_, .last hl hne⟩

theorem SourceLines.map_ofText (h : SourceLines cs ls) :
    (Text.lines isLineEnd cs).map Line.ofText = ls.map Line.ofText := by
  induction h with
  | nil => rfl
  | last hl hne => rw [Text.lines_of_forall _ (not_isLineEnd_iff.mpr hl) hne]
  | newline hl _ _ ih =>
    rw [Text.lines_append _ (not_isLineEnd_iff.mpr hl) rfl, List.map_cons, ih, List.map_cons]
  | @crlf l cs ls hl _ ih =>
    have hl' : '\n' ∉ l ++ ['\r'] := by simpa using hl
    rw [show l ++ '\r' :: '\n' :: cs = l ++ ['\r'] ++ '\n' :: cs by simp,
      Text.lines_append _ (not_isLineEnd_iff.mpr hl') rfl, List.map_cons, ih, List.map_cons,
      Line.ofText_carriageReturn]

theorem lines_textOf (h : ∀ l ∈ ls, '\n' ∉ l) : Text.lines isLineEnd (textOf ls).toList = ls := by
  induction ls with
  | nil => rfl
  | cons l ls ih =>
    obtain ⟨hl, hls⟩ := List.forall_mem_cons.mp h
    rw [textOf, String.toList_ofList] at ih ⊢
    rw [List.flatMap_cons, List.append_assoc, List.singleton_append,
      Text.lines_append _ (not_isLineEnd_iff.mpr hl) rfl, ih hls]

end Lines

namespace Draft

variable {d : Draft} {n : Nat}

structure Lays (d : Draft) (ws : List Word) : Prop where
  location : d.location = ws.length
  memory : d.memory.Lays ws

theorem lays_empty : empty.Lays [] := ⟨rfl, fun _ h => Memory.getElem_blank h⟩

theorem Lays.append (hd : d.Lays ws) (hlt : ws.length < 100) (w : Word) :
    Lays ⟨d.memory.set ws.length hlt w, ws.length + 1⟩ (ws ++ [w]) where
  location := by simp
  memory a ha := by
    obtain hlt' | rfl | hgt := Nat.lt_trichotomy a ws.length
    · rw [Memory.getElem_set_ne _ hlt w ha (by omega), hd.memory a ha,
        List.getD_append _ _ _ _ hlt']
    · simp
    · have hle : (ws ++ [w]).length ≤ a := by
        rw [List.length_append, List.length_singleton]
        exact hgt
      rw [Memory.getElem_set_ne _ hlt w ha (by omega), hd.memory a ha,
        List.getD_eq_default _ _ hgt.le, List.getD_eq_default _ _ hle]

theorem append_of_lt (hlt : d.location < 100) (hw : Word.InRange w.toInt) :
    d.append n w =
      .ok (.stored (d.location + 1), ⟨d.memory.set d.location hlt w, d.location + 1⟩) := by
  rw [append, if_neg (Nat.not_le_of_lt hlt), Memory.write_of_lt hlt, if_pos hw, Int32.ofInt_toInt]

theorem take_word (hd : d.Lays ws) (hw : Word.InRange w.toInt) (hlt : ws.length < 100) :
    ∃ e : Draft, d.take n (.word w) = .ok (.stored (ws.length + 1), e) ∧ e.Lays (ws ++ [w]) := by
  obtain ⟨memory, location⟩ := d
  obtain rfl : location = ws.length := hd.location
  exact ⟨_, append_of_lt hlt hw, hd.append hlt w⟩

theorem take_word_full (hd : d.Lays ws) (hfull : ws.length = 100) :
    d.take n (.word w) = .error .full := by
  rw [take, append, if_pos (by rw [hd.location, hfull])]

theorem takeAll_of_map_eq {ls ls' : List (List Char)}
    (h : ls.map Line.ofText = ls'.map Line.ofText) : d.takeAll n ls = d.takeAll n ls' := by
  induction ls generalizing d n ls' with
  | nil =>
    obtain rfl := List.map_eq_nil_iff.mp h.symm
    rfl
  | cons l ls ih =>
    obtain ⟨l', ls', rfl, hl, hls⟩ := List.map_eq_cons_iff.mp h.symm
    simp only [takeAll, takeText, hl, ih hls.symm]

theorem takeAll_blank (h : Line.Says l .blank) : d.takeAll n (l :: ls) = d.takeAll (n + 1) ls := by
  simp [takeAll, takeText, h.ofText_eq, take]

theorem takeAll_word (n : Nat) (ls : List (List Char)) (hd : d.Lays ws) (h : Line.Says l (.word w))
    (hlt : ws.length < 100) :
    ∃ e : Draft, e.Lays (ws ++ [w]) ∧ d.takeAll n (l :: ls) = e.takeAll (n + 1) ls := by
  obtain ⟨e, he, hlays⟩ := take_word (n := n) hd h.inRange hlt
  exact ⟨e, hlays, by simp [takeAll, takeText, h.ofText_eq, he]⟩

theorem takeAll_of_stops {r : Except Error Memory} (hd : d.Lays ws) (h : Stops n ws ls r) :
    (d.takeAll n ls).map toMemory = r := by
  cases h with
  | finish hm => exact congrArg Except.ok (hd.memory.unique hm)
  | sentinel hl hm =>
    simp only [takeAll, takeText, hl.ofText_eq, take]
    exact congrArg Except.ok (hd.memory.unique hm)
  | garbage hl =>
    simp only [takeAll, takeText, hl.ofText_eq, take]
    rfl
  | unfit hl =>
    simp only [takeAll, takeText, hl.ofText_eq, take]
    rfl
  | full hl hfull =>
    simp only [takeAll, takeText, hl.ofText_eq, take_word_full hd hfull]
    rfl

theorem takeAll_words {r : Except Error Memory} (hd : d.Lays us) (hw : Words before ws)
    (hlen : (us ++ ws).length ≤ 100) (h : Stops (n + before.length) (us ++ ws) rest r) :
    (d.takeAll n (before ++ rest)).map toMemory = r := by
  induction hw generalizing d n us with
  | nil => exact takeAll_of_stops hd (by simpa using h)
  | blank hl _ ih =>
    rw [List.cons_append, takeAll_blank hl]
    apply ih hd hlen
    rwa [Nat.add_right_comm]
  | @word l ls w ws hl _ ih =>
    simp only [List.length_append, List.length_cons] at hlen
    obtain ⟨e, he, htake⟩ := takeAll_word n (ls ++ rest) hd hl (by omega)
    rw [List.cons_append, htake]
    apply ih he
    · simp
      omega
    · rw [Nat.add_right_comm]
      simpa [Nat.add_assoc] using h

end Draft

namespace Scans

variable {n : Nat} {r : Except Error Memory}

theorem stop (hlen : us.length ≤ 100) (h : Stops n us ls r) : Scans n us ls r :=
  ⟨[], ls, [], rfl, .nil, by simpa using hlen, by simpa using h⟩

theorem blank (hl : Line.Says l .blank) (h : Scans (n + 1) us ls r) : Scans n us (l :: ls) r := by
  obtain ⟨before, rest, ws, rfl, hw, hlen, hstops⟩ := h
  refine ⟨l :: before, rest, ws, rfl, .blank hl hw, hlen, ?_⟩
  rwa [List.length_cons, ← Nat.add_assoc, Nat.add_right_comm]

theorem word (hl : Line.Says l (.word w)) (h : Scans (n + 1) (us ++ [w]) ls r) :
    Scans n us (l :: ls) r := by
  obtain ⟨before, rest, ws, rfl, hw, hlen, hstops⟩ := h
  rw [List.append_assoc, List.singleton_append] at hlen hstops
  refine ⟨l :: before, rest, w :: ws, rfl, .word hl hw, hlen, ?_⟩
  rwa [List.length_cons, ← Nat.add_assoc, Nat.add_right_comm]

end Scans

theorem exists_scans (ls : List (List Char)) (n : Nat) (hlen : us.length ≤ 100) :
    ∃ r, Scans n us ls r := by
  induction ls generalizing n us with
  | nil =>
    obtain ⟨m, hm⟩ := Memory.exists_lays us
    exact ⟨_, .stop hlen (.finish hm)⟩
  | cons l ls ih =>
    have hl := Line.says_ofText l
    cases hline : Line.ofText l <;> rw [hline] at hl
    case blank =>
      obtain ⟨r, hr⟩ := ih (n + 1) hlen
      exact ⟨r, hr.blank hl⟩
    case sentinel =>
      obtain ⟨m, hm⟩ := Memory.exists_lays us
      exact ⟨_, .stop hlen (.sentinel hl hm)⟩
    case word w =>
      by_cases hlt : us.length < 100
      · have hlen' : (us ++ [w]).length ≤ 100 := by
          rw [List.length_append, List.length_singleton]
          exact hlt
        obtain ⟨r, hr⟩ := ih (n + 1) hlen'
        exact ⟨r, hr.word hl⟩
      · exact ⟨_, .stop hlen (.full hl (Nat.le_antisymm hlen (Nat.le_of_not_lt hlt)))⟩
    case unfit v => exact ⟨_, .stop hlen (.unfit hl)⟩
    case garbage text => exact ⟨_, .stop hlen (.garbage hl)⟩

theorem parse_of_scans {source : String} {r : Except Error Memory}
    (hlines : SourceLines source.toList ls) (h : Scans 1 [] ls r) : parse source = r := by
  obtain ⟨before, rest, ws, rfl, hw, hlen, hstops⟩ := h
  rw [parse, Draft.takeAll_of_map_eq hlines.map_ofText]
  exact Draft.takeAll_words Draft.lays_empty hw hlen hstops

theorem parse_textOf {r : Except Error Memory} (hw : Words before ws) (hlen : ws.length ≤ 100)
    (hls : ∀ l ∈ before ++ rest, '\n' ∉ l) (h : Stops (1 + before.length) ws rest r) :
    parse (textOf (before ++ rest)) = r := by
  rw [parse, lines_textOf hls]
  exact Draft.takeAll_words Draft.lays_empty hw hlen h

/-- The line at which reading stops is the first that ends the program, is no word, or is a word too
many. What comes after it is not looked at. -/
theorem parse_eq_iff_scans (source : String) (r : Except Error Memory) :
    parse source = r ↔ ∃ ls, SourceLines source.toList ls ∧ Scans 1 [] ls r := by
  obtain ⟨ls, hlines⟩ := exists_sourceLines source.toList
  obtain ⟨r', hscans⟩ : ∃ r', Scans 1 [] ls r' := exists_scans ls 1 (Nat.zero_le 100)
  constructor
  · rintro rfl
    rw [parse_of_scans hlines hscans]
    exact ⟨ls, hlines, hscans⟩
  · rintro ⟨ls, hlines, hscans⟩
    exact parse_of_scans hlines hscans

end Program

end Simpletron
