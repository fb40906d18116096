import Mathlib.Data.List.TakeWhile
import Simpletron.Text.Lines

namespace Simpletron.Text

variable {α : Type} (ends : α → Bool) {cs l rest : List α}

theorem firstLine?_eq_none_iff : firstLine? ends cs = none ↔ cs = [] := by
  cases cs <;> simp [firstLine?]

theorem firstLine?_of_ne_nil (h : cs ≠ []) :
    firstLine? ends cs =
      some (cs.takeWhile (!ends ·), (cs.dropWhile (!ends ·)).tail) := by
  cases cs with
  | nil => exact absurd rfl h
  | cons c cs => rfl

theorem firstLine?_append {e : α} (hl : ∀ c ∈ l, ends c = false) (he : ends e = true)
    (cs : List α) : firstLine? ends (l ++ e :: cs) = some (l, cs) := by
  have hl' : ∀ c ∈ l, (!ends c) = true := fun c hc => by simp [hl c hc]
  rw [firstLine?_of_ne_nil ends (by simp), List.takeWhile_append_of_pos hl',
    List.dropWhile_append_of_pos hl']
  simp [he]

theorem firstLine?_of_forall (hl : ∀ c ∈ l, ends c = false) (hne : l ≠ []) :
    firstLine? ends l = some (l, []) := by
  have hl' : ∀ c ∈ l, (!ends c) = true := fun c hc => by simp [hl c hc]
  rw [firstLine?_of_ne_nil ends hne, List.takeWhile_eq_self_iff.mpr hl',
    List.dropWhile_eq_nil_iff.mpr hl', List.tail_nil]

theorem not_ends_of_firstLine? (h : firstLine? ends cs = some (l, rest)) :
    ∀ c ∈ l, ends c = false := by
  cases cs with
  | nil => cases h
  | cons c cs =>
    cases h
    intro x hx
    simpa using List.mem_takeWhile_imp hx

theorem parts_of_firstLine? (h : firstLine? ends cs = some (l, rest)) :
    (∃ e, ends e = true ∧ cs = l ++ e :: rest) ∨ (l ≠ [] ∧ cs = l ∧ rest = []) := by
  have hne : cs ≠ [] := by
    rintro rfl
    cases h
  have hsplit := List.takeWhile_append_dropWhile (p := (!ends ·)) (l := cs)
  rw [firstLine?_of_ne_nil ends hne] at h
  cases h
  cases hd : cs.dropWhile (!ends ·) with
  | nil =>
    rw [hd, List.append_nil] at hsplit
    exact .inr ⟨by rwa [hsplit], hsplit.symm, rfl⟩
  | cons e rest =>
    have he := List.head_dropWhile_not (!ends ·) (l := cs) (by simp [hd])
    simp only [hd, List.head_cons] at he
    rw [hd] at hsplit
    exact .inl ⟨e, by simpa using he, hsplit.symm⟩

theorem lines_append {e : α} (hl : ∀ c ∈ l, ends c = false) (he : ends e = true) (cs : List α) :
    lines ends (l ++ e :: cs) = l :: lines ends cs :=
  lines_eq_cons_of_firstLine? ends (firstLine?_append ends hl he cs)

theorem lines_of_forall (hl : ∀ c ∈ l, ends c = false) (hne : l ≠ []) : lines ends l = [l] :=
  lines_eq_cons_of_firstLine? ends (firstLine?_of_forall ends hl hne)

theorem lines_induction {motive : List α → List (List α) → Prop} (nil : motive [] [])
    (line : ∀ {cs l rest}, firstLine? ends cs = some (l, rest) → motive rest (lines ends rest) →
      motive cs (l :: lines ends rest)) (cs : List α) : motive cs (lines ends cs) := by
  match h : firstLine? ends cs with
  | none =>
    rw [firstLine?_eq_none_iff] at h
    subst h
    exact nil
  | some (l, rest) =>
    rw [lines_eq_cons_of_firstLine? ends h]
    exact line h (lines_induction nil line rest)
termination_by cs.length
decreasing_by exact length_lt_of_firstLine? ends h

theorem exists_gap_lines {e : α} (he : ends e = true) (cs ds : List α) :
    ∃ gap, (gap = [] ∨ gap = [[]]) ∧
      lines ends (cs ++ e :: ds) = lines ends cs ++ (gap ++ lines ends ds) := by
  induction cs using lines_induction ends with
  | nil => exact ⟨[[]], .inr rfl, lines_append ends (l := []) nofun he ds⟩
  | @line cs l rest hfirst ih =>
    have hl := not_ends_of_firstLine? ends hfirst
    obtain ⟨c, hc, rfl⟩ | ⟨_, rfl, rfl⟩ := parts_of_firstLine? ends hfirst
    · obtain ⟨gap, hgap, hlines⟩ := ih
      refine ⟨gap, hgap, ?_⟩
      rw [List.append_assoc, List.cons_append, lines_append ends hl hc, hlines, List.cons_append]
    · exact ⟨[], .inl rfl, lines_append ends hl he ds⟩

end Simpletron.Text
