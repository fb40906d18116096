import Mathlib.Data.List.Induction
import Simpletron.Proofs.Reachable

namespace Simpletron.Memory

structure Write : Type where
  address : Nat
  word : Word
  deriving DecidableEq

/-- What comes of a write, and the memory after it: the one before, if the write is refused. -/
def attempt (m : Memory) (w : Write) : Except Fault Unit × Memory :=
  match m.write w.address w.word.toInt with
  | .ok n => (.ok (), n)
  | .error f => (.error f, m)

inductive Answers (m : Memory) (w : Write) : Except Fault Unit × Memory → Prop
  | accepted : Word.InRange w.word.toInt → (h : w.address < 100) →
      Answers m w (.ok (), m.set w.address h w.word)
  | unfit : ¬ Word.InRange w.word.toInt → Answers m w (.error (.unfit w.word.toInt), m)
  | outside : Word.InRange w.word.toInt → 100 ≤ w.address →
      Answers m w (.error (.outsideMemory w.address), m)

structure Log : Type where
  memory : Memory
  entries : List (Write × Except Fault Unit) := []

namespace Log

def note (g : Log) (w : Write) : Log :=
  { memory := (g.memory.attempt w).2
    entries := g.entries ++ [(w, (g.memory.attempt w).1)] }

def of (m : Memory) (ws : List Write) : Log := ws.foldl note { memory := m }

def accepted (g : Log) : List Write := (g.entries.filter fun entry => entry.2.isOk).map Prod.fst

def last? (g : Log) (a : Nat) : Option Word :=
  (g.accepted.filter (·.address = a)).getLast?.map Write.word

/-- What the writes `ws` have made of the memory `m`: those that fit were accepted, and every cell is
as it was written last. -/
structure Keeps (g : Log) (m : Memory) (ws : List Write) : Prop where
  obtainable : g.memory.Obtainable
  accepted_eq : g.accepted = ws.filter fun w => Word.InRange w.word.toInt ∧ w.address < 100
  cells : ∀ (a : Nat) (h : a < 100), g.memory[a] = (g.last? a).getD m[a]

end Log

variable {m : Memory} {w : Write} {ws : List Write} {x : Except Fault Unit × Memory} {a : Nat}

section Answers

theorem Answers.attempt_eq (h : Answers m w x) : m.attempt w = x := by
  cases h with
  | accepted hw ha =>
    have hwrite : m.write w.address w.word.toInt = .ok (m.set w.address ha w.word) := by
      rw [write_of_lt ha, if_pos hw, Int32.ofInt_toInt]
    rw [attempt, hwrite]
  | unfit hw =>
    have hcheck := Word.check_eq_error_iff.mpr ⟨hw, rfl⟩
    simp only [attempt, write, hcheck]
  | outside hw ha =>
    have hcheck := Word.check_eq_ok_iff.mpr ⟨hw, rfl⟩
    simp only [attempt, write, hcheck, dif_neg (Nat.not_lt_of_le ha)]

theorem exists_answers (m : Memory) (w : Write) : ∃ x, Answers m w x := by
  by_cases hw : Word.InRange w.word.toInt
  · obtain ha | ha := Nat.lt_or_ge w.address 100
    · exact ⟨_, .accepted hw ha⟩
    · exact ⟨_, .outside hw ha⟩
  · exact ⟨_, .unfit hw⟩

theorem answers_attempt (m : Memory) (w : Write) : Answers m w (m.attempt w) := by
  obtain ⟨x, h⟩ := exists_answers m w
  rwa [h.attempt_eq]

theorem attempt_eq_iff_answers : m.attempt w = x ↔ Answers m w x :=
  ⟨fun h => h ▸ answers_attempt m w, Answers.attempt_eq⟩

theorem isOk_attempt_iff (m : Memory) (w : Write) :
    (m.attempt w).1.isOk ↔ Word.InRange w.word.toInt ∧ w.address < 100 := by
  have hanswers := answers_attempt m w
  generalize m.attempt w = x at hanswers
  cases hanswers with
  | accepted hw ha => exact iff_of_true rfl ⟨hw, ha⟩
  | unfit hw => exact iff_of_false Bool.false_ne_true fun h => hw h.1
  | outside _ ha => exact iff_of_false Bool.false_ne_true fun h => Nat.not_lt_of_le ha h.2

theorem Obtainable.attempt (h : m.Obtainable) (w : Write) : (m.attempt w).2.Obtainable := by
  unfold Memory.attempt
  split
  · next hw => exact h.write hw
  · exact h

end Answers

theorem index?_eq (m : Memory) (a : Nat) : m.index? a = (m.read a).toOption := by
  by_cases h : a < 100
  · rw [index?_of_lt m h, read_of_lt m h]
    rfl
  · rw [index?_of_not_lt m h, read_of_not_lt m h]
    rfl

namespace Log

variable {g : Log}

theorem accepted_note (g : Log) (w : Write) :
    (g.note w).accepted = g.accepted ++ if (g.memory.attempt w).1.isOk then [w] else [] := by
  rw [accepted, note, List.filter_append, List.map_append, ← accepted]
  cases h : (g.memory.attempt w).1.isOk <;> simp [h]

theorem last?_note (g : Log) (w : Write) (a : Nat) :
    (g.note w).last? a =
      if (g.memory.attempt w).1.isOk ∧ w.address = a then some w.word else g.last? a := by
  rw [last?, accepted_note, List.filter_append]
  by_cases hok : (g.memory.attempt w).1.isOk
  · by_cases ha : w.address = a
    · simp [hok, ha]
    · simp [hok, ha, last?]
  · simp [hok, last?]

theorem Keeps.note (h : g.Keeps m ws) (w : Write) : (g.note w).Keeps m (ws ++ [w]) where
  obtainable := h.obtainable.attempt w
  accepted_eq := by
    rw [accepted_note, h.accepted_eq, List.filter_append, List.filter_cons, List.filter_nil]
    simp only [isOk_attempt_iff, decide_eq_true_eq]
  cells a ha := by
    have hanswers := answers_attempt g.memory w
    rw [last?_note]
    unfold Log.note
    generalize g.memory.attempt w = x at hanswers
    -- A write that is refused leaves both the cell and the last word for it.
    cases hanswers with
    | accepted _ hlt =>
      by_cases heq : w.address = a
      · subst heq
        rw [if_pos ⟨rfl, rfl⟩]
        exact getElem_set_self g.memory hlt w.word
      · rw [if_neg fun hand => heq hand.2, ← h.cells a ha]
        exact getElem_set_ne g.memory hlt w.word ha heq
    | unfit _ => exact h.cells a ha
    | outside _ _ => exact h.cells a ha

theorem keeps_of (h : m.Obtainable) (ws : List Write) : (of m ws).Keeps m ws := by
  induction ws using List.reverseRecOn with
  | nil => exact ⟨h, rfl, fun _ _ => rfl⟩
  | append_singleton ws w ih =>
    rw [of, List.foldl_append]
    exact ih.note w

end Log

structure Checked (m : Memory) (ws : List Write) (g : Log) : Prop where
  accepted_eq : g.accepted = ws.filter fun w => Word.InRange w.word.toInt ∧ w.address < 100
  attempt_iff : ∀ w x, g.memory.attempt w = x ↔ Answers g.memory w x
  read_inside : ∀ (a : Nat) (h : a < 100), g.memory.read a = .ok ((g.last? a).getD m[a])
  read_outside : ∀ a, 100 ≤ a → g.memory.read a = .error (.outsideMemory a)
  index?_eq : ∀ a, g.memory.index? a = (g.memory.read a).toOption
  getElem?_words : ∀ a, g.memory.words[a]? = g.memory.index? a
  length_words : g.memory.words.length = 100
  inRange : ∀ w ∈ g.memory.words, Word.InRange w.toInt

theorem checked_of_obtainable (h : m.Obtainable) (ws : List Write) : Checked m ws (.of m ws) where
  accepted_eq := (Log.keeps_of h ws).accepted_eq
  attempt_iff _ _ := attempt_eq_iff_answers
  read_inside a ha := by rw [read_of_lt _ ha, (Log.keeps_of h ws).cells a ha]
  read_outside _ ha := read_of_not_lt _ (Nat.not_lt_of_le ha)
  index?_eq := index?_eq _
  getElem?_words := getElem?_words _
  length_words := length_words _
  inRange := (Log.keeps_of h ws).obtainable.sound.words

theorem checked_of_obtainable_refusals :
    let m := (blank.set 0 (by decide) 1007).set 1 (by decide) (-3)
    let ws : List Write :=
      [⟨1, 10000⟩, ⟨1, -42⟩, ⟨100, 7⟩, ⟨1, 9999⟩, ⟨18446744073709551615, -10000⟩]
    let g := Log.of m ws
    m.Obtainable ∧ Checked m ws g ∧ g.memory.read 0 = .ok 1007 ∧ g.memory.read 1 = .ok 9999 ∧
      g.memory.index? 100 = none := by
  intro m ws g
  have hm : m.Obtainable := @Obtainable.image [1007, -3] m rfl
  have hchecked : Checked m ws g := checked_of_obtainable hm ws
  have hlast : g.last? 0 = none ∧ g.last? 1 = some 9999 := by
    rw [Log.last?, Log.last?, hchecked.accepted_eq]
    decide
  refine ⟨hm, hchecked, ?_, ?_, ?_⟩
  · rw [hchecked.read_inside 0 (by decide), hlast.1]
    rfl
  · rw [hchecked.read_inside 1 (by decide), hlast.2]
    rfl
  · rw [hchecked.index?_eq, hchecked.read_outside 100 (by decide)]
    rfl

end Simpletron.Memory
