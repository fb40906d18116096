/-! Cutting a sequence into lines. A line ends before its end mark, the last line at the end of the
sequence; after the last end mark there is no further line. -/

namespace Simpletron.Text

variable {α : Type} (ends : α → Bool)

def firstLine? : List α → Option (List α × List α)
  | [] => none
  | c :: cs =>
    some ((c :: cs).takeWhile (!ends ·), ((c :: cs).dropWhile (!ends ·)).tail)

def consLine (c : α) (ls : List (List α)) : List (List α) :=
  if ends c then [] :: ls
  else match ls with
    | [] => [[c]]
    | l :: ls => (c :: l) :: ls

def lines (cs : List α) : List (List α) := cs.foldr (consLine ends) []

theorem length_lt_of_firstLine? {cs l rest : List α} (h : firstLine? ends cs = some (l, rest)) :
    rest.length < cs.length := by
  cases cs with
  | nil => cases h
  | cons c cs =>
    cases h
    have := (List.dropWhile_sublist (l := c :: cs) (!ends ·)).length_le
    simp only [List.length_tail, List.length_cons] at *
    omega

theorem firstLine?_cons_of_ends {c : α} (h : ends c) (cs : List α) :
    firstLine? ends (c :: cs) = some ([], cs) := by
  simp [firstLine?, h]

@[simp] theorem lines_nil : lines ends [] = [] := rfl

theorem lines_cons (c : α) (cs : List α) : lines ends (c :: cs) = consLine ends c (lines ends cs) :=
  rfl

theorem lines_eq_cons_of_firstLine? {cs l rest : List α} (h : firstLine? ends cs = some (l, rest)) :
    lines ends cs = l :: lines ends rest := by
  induction cs generalizing l rest with
  | nil => cases h
  | cons c cs ih =>
    rw [lines_cons]
    by_cases hc : ends c
    · rw [firstLine?_cons_of_ends ends hc] at h
      cases h
      simp [consLine, hc]
    · cases cs with
      | nil =>
        simp [firstLine?, hc] at h
        obtain ⟨rfl, rfl⟩ := h
        simp [consLine, hc]
      | cons d ds =>
        rw [ih rfl]
        simp [firstLine?, hc] at h
        obtain ⟨rfl, rfl⟩ := h
        simp [consLine, hc]

end Simpletron.Text
