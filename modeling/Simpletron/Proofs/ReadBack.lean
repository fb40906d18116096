import Mathlib.Data.List.Basic
import Simpletron.Machine.Dump
import Simpletron.Proofs.Reachable
import Simpletron.Proofs.Rendering

namespace Simpletron

open Text Text.Numeral

namespace Picture

def linesOf (text : String) : List (List Char) := lines Program.isLineEnd text.toList

def field (start width : Nat) (line : List Char) : List Char := (line.drop start).take width

def number? (start width : Nat) (line : List Char) : Option Int :=
  read? (trim (field start width line))

def register? (name text : String) : Option Int :=
  ((linesOf text).find? fun l => trim (field 0 20 l) = name.toList).bind (number? 20 5)

def rows (text : String) : List (List Char) := (linesOf text).drop 9

def cell? (label column : Nat) (text : String) : Option Int :=
  ((rows text).find? fun l => number? 0 2 l = some (label : Int)).bind (number? (2 + 6 * column) 6)

def grid (text : String) : List (List Char) :=
  (rows text).flatMap fun l => (List.range 10).map fun c => field (3 + 6 * c) 5 l

end Picture

namespace Text

open Picture (field number?)

variable {v : Int} {before c : List Char}

theorem Numeral.Format.length_chars (f : Format) (v : Int) :
    (f.chars v).length = max f.width ((f.sign v).length + (Nat.toDigits 10 v.natAbs).length) := by
  rw [Format.chars, List.length_append, List.length_leftpad]
  omega

theorem Numeral.length_word (h : Word.InRange v) : (word.chars v).length = 5 := by
  have hsign : (word.sign v).length = 1 := by
    unfold Format.sign
    split <;> rfl
  have hdigits : (Nat.toDigits 10 v.natAbs).length ≤ 4 := by
    apply Nat.toDigits_length _ _ _ (by decide)
    simp only [Word.InRange] at h
    omega
  rw [Format.length_chars, hsign, show word.width = 5 from rfl]
  omega

theorem Numeral.length_half (h : v.natAbs < 10 ^ 4) : (half.chars v).length ≤ 5 := by
  have hsign : (half.sign v).length ≤ 1 := by
    unfold Format.sign
    split <;> decide
  have hdigits : (Nat.toDigits 10 v.natAbs).length ≤ 4 := Nat.toDigits_length _ _ _ (by decide) h
  rw [Format.length_chars, show half.width = 2 from rfl]
  omega

theorem Numeral.newline_notMem_chars (f : Format) (v : Int) : '\n' ∉ f.chars v := by
  intro h
  obtain h | h | h := Format.mem_chars h <;> cases h

theorem newline_notMem_alignRight (width : Nat) (f : Format) (v : Int) :
    '\n' ∉ (alignRight width (f.print v)).toList := by
  rw [toList_alignRight, Format.print, String.toList_ofList, List.mem_append, not_or]
  exact ⟨fun h => absurd (List.eq_of_mem_replicate h) (by decide), newline_notMem_chars f v⟩

theorem read?_blanks (hb : ∀ x ∈ before, isBlank x) (h : Spells v c) :
    read? (trim (before ++ c)) = some v := by
  have htrims : Trims (before ++ c ++ []) c := .of_not_blank hb nofun h.not_blank
  rw [List.append_nil] at htrims
  rw [trim_eq_of_trims htrims]
  exact read?_of_denotes h.denotes

theorem read?_alignRight (width : Nat) (f : Format) (v : Int) :
    read? (trim (alignRight width (f.print v)).toList) = some v := by
  rw [toList_alignRight, Format.print, String.toList_ofList]
  exact read?_blanks (fun x hx => List.eq_of_mem_replicate hx ▸ rfl) (f.spells_chars v)

theorem field_succ (start width : Nat) (line : List Char) :
    field (start + 1) width line = (field start (width + 1) line).tail := by
  rw [field, field, ← List.drop_one, List.drop_take, List.drop_drop]
  rfl

theorem field_flatMap {α : Type} {block : α → List Char} {n k : Nat} {xs : List α}
    (hblock : ∀ x ∈ xs, (block x).length = n) (hk : k < xs.length) :
    field (n * k) n (xs.flatMap block) = block xs[k] := by
  induction xs generalizing k with
  | nil => cases hk
  | cons x xs ih =>
    obtain ⟨hx, hxs⟩ := List.forall_mem_cons.mp hblock
    rw [field, List.flatMap_cons]
    cases k with
    | zero => exact List.take_left' hx
    | succ k =>
      rw [Nat.mul_succ, Nat.add_comm, ← List.drop_drop, List.drop_left' hx]
      exact ih hxs (Nat.lt_of_succ_lt_succ hk)

theorem length_flatMap_blocks {α : Type} {block : α → List Char} {n : Nat} {xs : List α}
    (hblock : ∀ x ∈ xs, (block x).length = n) : (xs.flatMap block).length = xs.length * n := by
  rw [List.length_flatMap, List.map_congr_left hblock, List.map_const', List.sum_replicate_nat]

theorem flatMap_range_pieces {α : Type} (xs : List α) (n k : Nat) :
    ((List.range k).flatMap fun r => (xs.drop (n * r)).take n) = xs.take (n * k) := by
  induction k with
  | zero => rfl
  | succ k ih =>
    rw [List.range_succ, List.flatMap_append, ih, List.flatMap_singleton, Nat.mul_succ, List.take_add]

end Text

namespace Program

variable {ws : List Word}

theorem Line.writes_chars (f : Format) (v : Int) : Line.Writes (f.chars v) (some v) :=
  ⟨_, f.spells_chars v, [], [], [], by simp, nofun, nofun, nofun, newline_notMem_chars f v⟩

theorem words_chars (f : Format) (hws : ∀ w ∈ ws, Word.InRange w.toInt) :
    Words (ws.map fun w => f.chars w.toInt) ws := by
  induction ws with
  | nil => exact .nil
  | cons w ws ih =>
    obtain ⟨hw, hws⟩ := List.forall_mem_cons.mp hws
    have hsays := (Line.writes_chars f w.toInt).says_word hw
    rw [Int32.ofInt_toInt] at hsays
    exact .word hsays (ih hws)

theorem parse_words (f : Format) {m : Memory} (hm : m.Sound) :
    parse (textOf (m.words.map fun w => f.chars w.toInt)) = .ok m := by
  have hlines : ∀ l ∈ (m.words.map fun w => f.chars w.toInt) ++ [], '\n' ∉ l := by
    rw [List.append_nil, List.forall_mem_map]
    exact fun w _ => newline_notMem_chars f w.toInt
  have hlays : m.Lays m.words := by
    intro a ha
    have ha' : a < m.words.length := by rwa [Memory.length_words]
    rw [List.getD_eq_getElem _ _ ha', Memory.getElem_words m ha' ha]
  have hparse := parse_textOf (words_chars f hm.words) m.length_words.le hlines (.finish hlays)
  rwa [List.append_nil] at hparse

end Program

namespace Machine

open Picture

variable {m n : Machine} {name : String} {f : Format} {v : Int} {r c : Nat}

structure Shows (text : String) (m : Machine) : Prop where
  length : (linesOf text).length = 19
  registers : ∀ l ∈ ((linesOf text).drop 1).take 5, l.length = 25
  rows : (rows text).length = 10 ∧ ∀ l ∈ rows text, l.length = 62
  accumulator : register? "accumulator" text = some m.accumulator.toInt
  ip : register? "instructionCounter" text = some (m.ip : Int)
  cells : ∀ (r c : Nat) (_ : r < 10) (_ : c < 10),
    cell? (10 * r) c text = some m.memory[10 * r + c].toInt
  image : (grid text).length = 100 ∧ Program.parse (Program.textOf (grid text)) = .ok m.memory

theorem Shows.unique {text : String} (hm : Shows text m) (hn : Shows text n) :
    n.accumulator = m.accumulator ∧ n.ip = m.ip ∧ n.memory = m.memory := by
  have hacc := hn.accumulator.symm.trans hm.accumulator
  have hip := hn.ip.symm.trans hm.ip
  have himage := hn.image.2.symm.trans hm.image.2
  rw [Option.some.injEq] at hacc hip
  exact ⟨Int32.toInt_inj.mp hacc, Int.ofNat_inj.mp hip, Except.ok.inj himage⟩

section Registers

structure Register : Type where
  name : String
  format : Format
  value : Int

def registerNames : List String :=
  ["accumulator", "instructionCounter", "instructionRegister", "operationCode", "operand"]

def registers (m : Machine) : List Register :=
  [ ⟨"accumulator", word, m.accumulator.toInt⟩,
    ⟨"instructionCounter", half, m.ip⟩,
    ⟨"instructionRegister", word, m.register.toInt⟩,
    ⟨"operationCode", half, m.register.toInt.tdiv 100⟩,
    ⟨"operand", half, m.register.toInt.tmod 100⟩ ]

namespace Register

def line (r : Register) : List Char := (registerLine r.name (r.format.print r.value)).toList

structure Fits (r : Register) : Prop where
  name_le : r.name.length ≤ 20
  name_solid : r.name.toList.all (!isBlank ·)
  value_le : (r.format.chars r.value).length ≤ 5

variable {r : Register} {rs : List Register}

theorem Fits.length_name (h : r.Fits) : (alignLeft 20 r.name).toList.length = 20 := by
  have := h.name_le
  rw [String.length_toList, length_alignLeft]
  omega

theorem Fits.length_line (h : r.Fits) : r.line.length = 25 := by
  have := h.name_le
  have := h.value_le
  rw [line, String.length_toList, registerLine, String.length_append, length_alignLeft,
    length_alignRight, Format.print, String.length_ofList]
  omega

theorem Fits.name_line (h : r.Fits) : trim (field 0 20 r.line) = r.name.toList := by
  have hsolid : ∀ x ∈ r.name.toList, isBlank x = false := by simpa using h.name_solid
  have hfield : field 0 20 r.line = (alignLeft 20 r.name).toList := by
    rw [field, List.drop_zero, line, registerLine, String.toList_append, List.take_left' h.length_name]
  rw [hfield, toList_alignLeft]
  have hblank : ∀ x ∈ List.replicate (20 - r.name.length) ' ', isBlank x :=
    fun x hx => List.eq_of_mem_replicate hx ▸ rfl
  exact trim_eq_of_trims (.of_not_blank (List.forall_mem_nil _) hblank hsolid)

theorem Fits.number_line (h : r.Fits) : number? 20 5 r.line = some r.value := by
  have := h.value_le
  have hvalue : (alignRight 5 (r.format.print r.value)).toList.length ≤ 5 := by
    rw [String.length_toList, length_alignRight, Format.print, String.length_ofList]
    omega
  rw [number?, field, line, registerLine, String.toList_append, List.drop_left' h.length_name,
    List.take_of_length_le hvalue, read?_alignRight]

theorem find?_lines (hfits : ∀ r ∈ rs, r.Fits) (hnames : (rs.map Register.name).Nodup) (hr : r ∈ rs)
    (ls : List (List Char)) :
    (rs.map line ++ ls).find? (fun l => trim (field 0 20 l) = r.name.toList) = some r.line := by
  induction rs with
  | nil => cases hr
  | cons s rs ih =>
    obtain ⟨hs, hfits⟩ := List.forall_mem_cons.mp hfits
    obtain ⟨hnew, hnames⟩ := List.nodup_cons.mp hnames
    rw [List.map_cons, List.cons_append]
    obtain rfl | hr := List.mem_cons.mp hr
    · exact List.find?_cons_of_pos (by simpa using hs.name_line)
    · have hne : s.name ≠ r.name := fun h => hnew (h ▸ List.mem_map_of_mem hr)
      rw [List.find?_cons_of_neg (by simpa [hs.name_line, String.toList_inj] using hne)]
      exact ih hfits hnames hr

end Register

end Registers

section Rows

def rowWords (m : Machine) (r : Nat) : List Word := (m.memory.words.drop (10 * r)).take 10

def block (w : Word) : List Char := ' ' :: word.chars w.toInt

theorem read?_block (w : Word) : read? (trim (block w)) = some w.toInt := by
  have hblank : ∀ x ∈ [' '], isBlank x := List.forall_mem_singleton.mpr rfl
  have hspells := word.spells_chars w.toInt
  rw [block, ← List.singleton_append]
  exact read?_blanks hblank hspells

theorem length_rowWords (m : Machine) (hr : r < 10) : (m.rowWords r).length = 10 := by
  rw [rowWords, List.length_take, List.length_drop, Memory.length_words]
  omega

theorem getElem_rowWords (m : Machine) (hr : r < 10) (hc : c < 10)
    (h : c < (m.rowWords r).length) : (m.rowWords r)[c] = m.memory[10 * r + c] := by
  simp only [rowWords, List.getElem_take, List.getElem_drop]
  exact m.memory.getElem_words _ _

theorem length_block (hm : m.memory.Sound) : ∀ w ∈ m.rowWords r, (block w).length = 6 := by
  intro w hw
  have hrange := hm.words w (List.mem_of_mem_drop (List.mem_of_mem_take hw))
  rw [block, List.length_cons, length_word hrange]

theorem toList_row (m : Machine) (r : Nat) :
    (m.row r).toList =
      (alignRight 2 (plain.print (10 * r : Nat))).toList ++ (m.rowWords r).flatMap block := by
  have hblock : ∀ w : Word, (" " ++ word.print w.toInt).toList = block w := by
    intro w
    simp only [Format.print, String.toList_append, String.toList_ofList]
    rfl
  simp only [row, rowWords, String.toList_append, String.toList_join, List.flatMap_map, hblock]

theorem length_label (hr : r < 10) :
    (alignRight 2 (plain.print (10 * r : Nat))).toList.length = 2 := by
  have hdigits : (Nat.toDigits 10 (10 * r)).length ≤ 2 :=
    Nat.toDigits_length _ _ _ (by decide) (by omega)
  have hsign : plain.sign (10 * r : Nat) = [] := if_neg (Int.not_lt.mpr (Int.natCast_nonneg _))
  have hchars : (plain.chars (10 * r : Nat)).length ≤ 2 := by
    rw [Format.length_chars, hsign, Int.natAbs_natCast]
    exact Nat.max_le.mpr ⟨Nat.zero_le 2, by simpa using hdigits⟩
  rw [String.length_toList, length_alignRight, Format.print, String.length_ofList]
  omega

theorem label_row (m : Machine) (hr : r < 10) :
    number? 0 2 (m.row r).toList = some ((10 * r : Nat) : Int) := by
  rw [number?, field, List.drop_zero, toList_row, List.take_left' (length_label hr), read?_alignRight]

theorem length_row (hm : m.memory.Sound) (hr : r < 10) : (m.row r).toList.length = 62 := by
  rw [toList_row, List.length_append, length_label hr, length_flatMap_blocks (length_block hm),
    length_rowWords m hr]

theorem field_row (hm : m.memory.Sound) (hr : r < 10) (hc : c < 10) :
    field (2 + 6 * c) 6 (m.row r).toList = block m.memory[10 * r + c] := by
  have hc' : c < (m.rowWords r).length := by rwa [length_rowWords m hr]
  rw [← getElem_rowWords m hr hc hc', ← field_flatMap (length_block hm) hc', toList_row, field,
    ← List.drop_drop, List.drop_left' (length_label hr), field]

theorem fields_row (hm : m.memory.Sound) (hr : r < 10) :
    (List.range 10).map (fun c => field (3 + 6 * c) 5 (m.row r).toList) =
      (m.rowWords r).map fun w => word.chars w.toInt := by
  apply List.ext_getElem
  · simp [length_rowWords m hr]
  · intro c hc _
    rw [List.length_map, List.length_range] at hc
    rw [List.getElem_map, List.getElem_map, List.getElem_range, getElem_rowWords m hr hc,
      show 3 + 6 * c = 2 + 6 * c + 1 by omega, field_succ, field_row hm hr hc]
    rfl

end Rows

section Lines

theorem newline_notMem_registerLine (hname : '\n' ∉ name.toList) :
    '\n' ∉ (registerLine name (f.print v)).toList := by
  rw [registerLine, String.toList_append, toList_alignLeft]
  simp only [List.mem_append, not_or]
  exact ⟨⟨hname, fun h => absurd (List.eq_of_mem_replicate h) (by decide)⟩,
    newline_notMem_alignRight 5 f v⟩

theorem newline_notMem_row (m : Machine) (r : Nat) : '\n' ∉ (m.row r).toList := by
  rw [toList_row, List.mem_append, List.mem_flatMap, not_or]
  refine ⟨newline_notMem_alignRight 2 plain _, ?_⟩
  rintro ⟨w, -, hw⟩
  obtain h | h := List.mem_cons.mp hw
  · cases h
  · exact newline_notMem_chars word w.toInt h

theorem newline_notMem_dumpLines (m : Machine) : ∀ l ∈ m.dumpLines, '\n' ∉ l.toList := by
  have hregister : ∀ name (f : Format) v, '\n' ∉ name.toList →
      '\n' ∉ (registerLine name (f.print v)).toList := fun _ _ _ => newline_notMem_registerLine
  simp only [dumpLines, List.forall_mem_append, List.forall_mem_cons, List.forall_mem_map]
  refine ⟨⟨by decide, hregister _ _ _ (by decide), hregister _ _ _ (by decide),
    hregister _ _ _ (by decide), hregister _ _ _ (by decide), hregister _ _ _ (by decide),
    by decide, by decide, by decide, nofun⟩, fun r _ => newline_notMem_row m r⟩

theorem linesOf_dump (m : Machine) : linesOf m.dump = m.dumpLines.map String.toList := by
  have hdump : m.dump = Program.textOf (m.dumpLines.map String.toList) := by
    apply String.toList_inj.mp
    rw [dump, Program.textOf, String.toList_join, String.toList_ofList, List.flatMap_map,
      List.flatMap_map]
    simp only [String.toList_append]
    rfl
  rw [linesOf, hdump]
  exact Program.lines_textOf (List.forall_mem_map.mpr (newline_notMem_dumpLines m))

theorem rows_dump (m : Machine) : rows m.dump = (List.range 10).map fun r => (m.row r).toList := by
  rw [rows, linesOf_dump, dumpLines, List.map_append, List.map_map]
  rfl

theorem Sound.register (hm : m.Sound) : Word.InRange m.register.toInt := by
  unfold Machine.register
  split
  · exact hm.memory _ _
  · exact Word.inRange_zero

theorem Sound.natAbs_ip_lt (hm : m.Sound) : (m.ip : Int).natAbs < 10 ^ 4 := by
  have := hm.ip_le
  omega

theorem name_mem_registerNames {r : Register} (hr : r ∈ m.registers) : r.name ∈ registerNames :=
  show r.name ∈ m.registers.map Register.name from List.mem_map_of_mem hr

theorem length_value_le (hm : m.Sound) :
    ∀ r ∈ m.registers, (r.format.chars r.value).length ≤ 5 := by
  have hregister : m.register.toInt.natAbs < 10 ^ 4 := by
    have := hm.register
    simp only [Word.InRange] at this
    omega
  have hcode := Nat.lt_of_le_of_lt (Int.natAbs_tdiv_le_natAbs m.register.toInt 100) hregister
  have hoperand : (m.register.toInt.tmod 100).natAbs < 10 ^ 4 := by
    rw [Int.natAbs_tmod]
    exact Nat.lt_of_le_of_lt (Nat.mod_le _ _) hregister
  simp only [registers, List.forall_mem_cons]
  exact ⟨(length_word hm.accumulator).le, length_half hm.natAbs_ip_lt, (length_word hm.register).le,
    length_half hcode, length_half hoperand, List.forall_mem_nil _⟩

theorem fits_registers (hm : m.Sound) : ∀ r ∈ m.registers, r.Fits := by
  have hnames : ∀ name ∈ registerNames, name.length ≤ 20 ∧ name.toList.all (!isBlank ·) := by decide
  intro r hr
  obtain ⟨hle, hsolid⟩ := hnames r.name (name_mem_registerNames hr)
  exact ⟨hle, hsolid, length_value_le hm r hr⟩

theorem exists_linesOf_dump (m : Machine) :
    ∃ ls, linesOf m.dump = "REGISTERS:".toList :: (m.registers.map Register.line ++ ls) :=
  ⟨_, linesOf_dump m⟩

theorem length_registers (hm : m.Sound) : ∀ l ∈ ((linesOf m.dump).drop 1).take 5, l.length = 25 := by
  obtain ⟨ls, hls⟩ := exists_linesOf_dump m
  have hfive : (m.registers.map Register.line).length = 5 := rfl
  rw [hls, List.drop_one, List.tail_cons, List.take_left' hfive, List.forall_mem_map]
  exact fun r hr => (fits_registers hm r hr).length_line

theorem register_dump (hm : m.Sound) (hr : ⟨name, f, v⟩ ∈ m.registers) :
    register? name m.dump = some v := by
  obtain ⟨ls, hls⟩ := exists_linesOf_dump m
  have htitle : trim (field 0 20 "REGISTERS:".toList) = "REGISTERS:".toList := by decide
  have hnew : "REGISTERS:" ∉ registerNames := by decide
  have hne : "REGISTERS:" ≠ name := fun h => hnew (h ▸ name_mem_registerNames hr)
  have hnames : (m.registers.map Register.name).Nodup := show registerNames.Nodup by decide
  rw [register?, hls, List.find?_cons_of_neg (by rwa [htitle, decide_eq_true_iff, String.toList_inj])]
  have hfind := Register.find?_lines (fits_registers hm) hnames hr ls
  rw [hfind, Option.bind_some]
  exact (fits_registers hm _ hr).number_line

theorem cell_dump (hm : m.memory.Sound) (hr : r < 10) (hc : c < 10) :
    cell? (10 * r) c m.dump = some m.memory[10 * r + c].toInt := by
  have hfind : (rows m.dump).find? (fun l => number? 0 2 l = some ((10 * r : Nat) : Int)) =
      some (m.row r).toList := by
    rw [rows_dump, List.find?_map, Option.map_eq_some_iff]
    refine ⟨r, List.find?_range_eq_some.mpr ⟨?_, List.mem_range.mpr hr, fun k hk => ?_⟩, rfl⟩
    · simpa using label_row m hr
    · have hne : ((10 * k : Nat) : Int) ≠ (10 * r : Nat) := by omega
      simpa [label_row m (Nat.lt_trans hk hr)] using hne
  rw [cell?, hfind, Option.bind_some, number?, field_row hm hr hc, read?_block]

theorem grid_dump (hm : m.memory.Sound) :
    grid m.dump = m.memory.words.map fun w => word.chars w.toInt := by
  calc
    grid m.dump = (List.range 10).flatMap fun r =>
        (List.range 10).map fun c => field (3 + 6 * c) 5 (m.row r).toList := by
      rw [grid, rows_dump, List.flatMap_map]
    _ = (List.range 10).flatMap fun r => (m.rowWords r).map fun w => word.chars w.toInt :=
      List.flatMap_congr fun r hr => fields_row hm (List.mem_range.mp hr)
    _ = ((List.range 10).flatMap m.rowWords).map fun w => word.chars w.toInt := by
      rw [List.map_flatMap]
    _ = m.memory.words.map fun w => word.chars w.toInt := by
      have hpieces := flatMap_range_pieces m.memory.words 10 10
      rw [List.take_of_length_le m.memory.length_words.le] at hpieces
      rw [← hpieces]
      rfl

end Lines

/-- The dump of a machine that came about shows all of it but its state and its flag. -/
theorem dump_reads_back (hm : m.Reachable) :
    Shows m.dump m ∧ ∀ n : Machine, n.Reachable → n.dump = m.dump →
      n.accumulator = m.accumulator ∧ n.ip = m.ip ∧ n.memory = m.memory := by
  have hshows : ∀ k : Machine, k.Reachable → Shows k.dump k := fun k hk => {
    length := by
      rw [linesOf_dump]
      rfl
    registers := length_registers hk.sound
    rows := by
      rw [rows_dump, List.length_map, List.length_range, List.forall_mem_map]
      exact ⟨rfl, fun r hr => length_row hk.sound.memory (List.mem_range.mp hr)⟩
    accumulator := register_dump hk.sound (.head _)
    ip := register_dump hk.sound (.tail _ (.head _))
    cells := fun r c hr hc => cell_dump hk.sound.memory hr hc
    image := by
      rw [grid_dump hk.sound.memory, List.length_map, Memory.length_words]
      exact ⟨rfl, Program.parse_words word hk.sound.memory⟩ }
  exact ⟨hshows m hm, fun n hn hdump => (hshows m hm).unique (hdump ▸ hshows n hn)⟩

theorem dump_reads_back_negative :
    let memory := Memory.blank.set 1 (by decide) (-9999)
    let m := boot memory
    m.Reachable ∧ m.row 0 = " 0 +0000 -9999 +0000 +0000 +0000 +0000 +0000 +0000 +0000 +0000" ∧
      Shows m.dump m := by
  intro memory m
  have hwrite : Memory.blank.write 1 (-9999) = .ok memory := rfl
  have hm : m.Reachable := .boot (.write .blank hwrite)
  exact ⟨hm, by decide +kernel, (dump_reads_back hm).1⟩

end Machine

end Simpletron
