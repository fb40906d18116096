import Simpletron.Program.Draft

namespace Simpletron

namespace Memory

def Sound (m : Memory) : Prop := ∀ (a : Nat) (h : a < 100), Word.InRange m[a].toInt

theorem sound_blank : blank.Sound := by
  intro a h
  rw [getElem_blank h]
  exact Word.inRange_zero

theorem Sound.set {m : Memory} (hm : m.Sound) {a : Nat} (h : a < 100) {w : Word}
    (hw : Word.InRange w.toInt) : (m.set a h w).Sound := by
  intro b hb
  by_cases hab : a = b
  · subst hab
    rw [getElem_set_self]
    exact hw
  · rw [getElem_set_ne m h w hb hab]
    exact hm b hb

theorem Sound.words {m : Memory} (hm : m.Sound) : ∀ w ∈ m.words, Word.InRange w.toInt := by
  intro w hw
  obtain ⟨a, ha, rfl⟩ := List.getElem_of_mem hw
  have ha' : a < 100 := by rwa [length_words] at ha
  rw [getElem_words m ha ha']
  exact hm a ha'

theorem write_eq_ok_iff {m n : Memory} {a : Nat} {v : Int} :
    m.write a v = .ok n ↔ Word.InRange v ∧ ∃ h : a < 100, n = m.set a h (Int32.ofInt v) := by
  by_cases ha : a < 100
  · rw [write_of_lt ha]
    by_cases hv : Word.InRange v <;> simp [hv, ha, eq_comm]
  · by_cases hv : Word.InRange v <;> simp [write, Word.check, Word.ofInt?, hv, ha]

theorem Sound.write {m n : Memory} (hm : m.Sound) {a : Nat} {v : Int} (h : m.write a v = .ok n) :
    n.Sound := by
  obtain ⟨hv, ha, rfl⟩ := write_eq_ok_iff.mp h
  apply hm.set ha
  rwa [Word.toInt_ofInt hv]

theorem Sound.writeAll {m n : Memory} (hm : m.Sound) {a : Nat} {vs : List Int}
    (h : m.writeAll a vs = .ok n) : n.Sound := by
  induction vs generalizing m a with
  | nil =>
    cases h
    exact hm
  | cons v vs ih =>
    simp only [Memory.writeAll] at h
    split at h
    · cases h
    · next hw => exact ih (hm.write hw) h

theorem sound_of_ofImage {image : List Int} {m : Memory} (h : ofImage image = .ok m) : m.Sound := by
  unfold ofImage at h
  split at h
  · cases h
  · exact sound_blank.writeAll h

theorem toInt_getElem_writeAll {m n : Memory} {a : Nat} {vs : List Int}
    (h : m.writeAll a vs = .ok n) {b : Nat} (hb : b < 100) :
    n[b].toInt = if b < a then m[b].toInt else vs.getD (b - a) m[b].toInt := by
  induction vs generalizing m a with
  | nil =>
    cases h
    simp
  | cons v vs ih =>
    simp only [Memory.writeAll] at h
    split at h
    · cases h
    · next hw =>
      obtain ⟨hv, ha, rfl⟩ := write_eq_ok_iff.mp hw
      rw [ih h]
      obtain hlt | rfl | hgt := Nat.lt_trichotomy b a
      · rw [if_pos hlt, if_pos (Nat.lt_succ_of_lt hlt), getElem_set_ne _ ha _ hb (by omega)]
      · simp [Word.toInt_ofInt hv]
      · rw [if_neg (by omega), if_neg (by omega), getElem_set_ne _ ha _ hb (by omega),
          show b - a = b - (a + 1) + 1 by omega, List.getD_cons_succ]

theorem toInt_getElem_of_ofImage {image : List Int} {m : Memory} (h : ofImage image = .ok m) {a : Nat}
    (ha : a < 100) : m[a].toInt = image.getD a 0 := by
  unfold ofImage at h
  split at h
  · cases h
  · rw [toInt_getElem_writeAll h ha, if_neg (Nat.not_lt_zero a), Nat.sub_zero, getElem_blank ha,
      Int32.toInt_zero]

theorem exists_writeAll {m : Memory} {a : Nat} {vs : List Int} (hlen : a + vs.length ≤ 100)
    (hrange : ∀ v ∈ vs, Word.InRange v) : ∃ n, m.writeAll a vs = .ok n := by
  induction vs generalizing m a with
  | nil => exact ⟨m, rfl⟩
  | cons v vs ih =>
    rw [List.length_cons] at hlen
    have hv : Word.InRange v := hrange v List.mem_cons_self
    have ha : a < 100 := by omega
    rw [Memory.writeAll, write_of_lt ha, if_pos hv]
    exact ih (by omega) fun w hw => hrange w (List.mem_cons_of_mem _ hw)

theorem exists_ofImage {image : List Int} (hlen : image.length ≤ 100)
    (hrange : ∀ v ∈ image, Word.InRange v) : ∃ m, ofImage image = .ok m := by
  rw [ofImage, if_neg (Nat.not_lt_of_le hlen)]
  exact exists_writeAll (by omega) hrange

end Memory

namespace Program

namespace Draft

/-- The drafts that lines and values make of an empty one, each line and value that was not refused. -/
inductive Obtainable : Draft → Prop
  | empty : Obtainable .empty
  | value {d e n v r} : Obtainable d → d.takeValue n v = .ok (r, e) → Obtainable e
  | text {d e n cs r} : Obtainable d → d.takeText n cs = .ok (r, e) → Obtainable e

theorem sound_of_take {d e : Draft} {n : Nat} {line : Line} {r : Receipt} (hd : d.memory.Sound)
    (h : d.take n line = .ok (r, e)) : e.memory.Sound := by
  cases line with
  | blank =>
    cases h
    exact hd
  | sentinel =>
    cases h
    exact hd
  | word w =>
    simp only [take, append] at h
    split at h
    · cases h
    · split at h
      · next hw =>
        cases h
        exact hd.write hw
      · cases h
  | unfit v => cases h
  | garbage text => cases h

theorem Obtainable.sound {d : Draft} (h : d.Obtainable) : d.toMemory.Sound := by
  induction h with
  | empty => exact Memory.sound_blank
  | value _ h ih => exact sound_of_take ih h
  | text _ h ih => exact sound_of_take ih h

theorem Obtainable.takeAll {d e : Draft} (hd : d.Obtainable) {n : Nat} {ls : List (List Char)}
    (h : d.takeAll n ls = .ok e) : e.Obtainable := by
  induction ls generalizing d n with
  | nil =>
    cases h
    exact hd
  | cons cs ls ih =>
    simp only [Draft.takeAll] at h
    split at h
    · cases h
    · next hl =>
      cases h
      exact hd.text hl
    · next hl => exact ih (hd.text hl) h

end Draft

theorem exists_draft_of_parse {source : String} {m : Memory} (h : parse source = .ok m) :
    ∃ d : Draft, d.Obtainable ∧ d.toMemory = m := by
  unfold parse at h
  cases hd : Draft.empty.takeAll 1 (Text.lines isLineEnd source.toList) with
  | error e =>
    rw [hd] at h
    cases h
  | ok d =>
    rw [hd] at h
    cases h
    exact ⟨d, Draft.Obtainable.empty.takeAll hd, rfl⟩

end Program

end Simpletron
