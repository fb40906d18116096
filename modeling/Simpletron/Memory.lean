import Simpletron.Fault

namespace Simpletron

structure Memory : Type where
  cells : Vector Word 100
  deriving DecidableEq

namespace Memory

instance : GetElem Memory Nat Word fun _ a => a < 100 where
  getElem m a h := m.cells[a]

def blank : Memory := ⟨.replicate 100 0⟩

def words (m : Memory) : List Word := m.cells.toList

def set (m : Memory) (a : Nat) (h : a < 100) (w : Word) : Memory := ⟨m.cells.set a w⟩

/-- The cell that indexing gives; where there is none, it panics. -/
def index? (m : Memory) (a : Nat) : Option Word := m.cells[a]?

def read (m : Memory) (a : Nat) : Except Fault Word :=
  if h : a < 100 then .ok m[a] else .error (.outsideMemory a)

def write (m : Memory) (a : Nat) (v : Int) : Except Fault Memory :=
  match Word.check v with
  | .error f => .error f
  | .ok w => if h : a < 100 then .ok (m.set a h w) else .error (.outsideMemory a)

def writeAll (m : Memory) (a : Nat) : List Int → Except Fault Memory
  | [] => .ok m
  | v :: vs =>
    match m.write a v with
    | .error f => .error f
    | .ok m => m.writeAll (a + 1) vs

def ofImage (image : List Int) : Except Fault Memory :=
  if 100 < image.length then .error (.outsideMemory 100) else blank.writeAll 0 image

@[simp] theorem getElem_set_self (m : Memory) {a : Nat} (h : a < 100) (w : Word) :
    (m.set a h w)[a] = w :=
  Vector.getElem_set_self h

theorem getElem_set_ne (m : Memory) {a b : Nat} (h : a < 100) (w : Word) (hb : b < 100)
    (hne : a ≠ b) : (m.set a h w)[b] = m[b] :=
  Vector.getElem_set_ne h hb hne

@[simp] theorem getElem_blank {a : Nat} (h : a < 100) : blank[a] = 0 :=
  Vector.getElem_replicate h

@[simp] theorem length_words (m : Memory) : m.words.length = 100 := by
  simp [words]

theorem getElem_words (m : Memory) {a : Nat} (h : a < m.words.length) (ha : a < 100) :
    m.words[a] = m[a] :=
  Vector.getElem_toList h

@[ext] theorem ext {m n : Memory} (h : ∀ (a : Nat) (ha : a < 100), m[a] = n[a]) : m = n := by
  cases m with
  | mk c =>
    cases n with
    | mk d => exact congrArg mk (Vector.ext h)

theorem read_of_lt (m : Memory) {a : Nat} (h : a < 100) : m.read a = .ok m[a] := by
  simp [read, h]

theorem read_of_not_lt (m : Memory) {a : Nat} (h : ¬ a < 100) :
    m.read a = .error (.outsideMemory a) := by
  simp [read, h]

theorem index?_of_lt (m : Memory) {a : Nat} (h : a < 100) : m.index? a = some m[a] :=
  Vector.getElem?_eq_getElem h

theorem index?_of_not_lt (m : Memory) {a : Nat} (h : ¬ a < 100) : m.index? a = none :=
  Vector.getElem?_eq_none (Nat.le_of_not_lt h)

theorem getElem?_words (m : Memory) (a : Nat) : m.words[a]? = m.index? a :=
  Vector.getElem?_toList

theorem write_of_lt {m : Memory} {a : Nat} (h : a < 100) (v : Int) :
    m.write a v =
      if Word.InRange v then .ok (m.set a h (Int32.ofInt v)) else .error (.unfit v) := by
  by_cases hv : Word.InRange v <;> simp [write, Word.check, Word.ofInt?, hv, h]

end Memory

end Simpletron
