import Mathlib.Data.List.GetD
import Simpletron.Proofs.Reachable

namespace Simpletron.Memory

inductive Loads (image : List Int) : Except Fault Memory → Prop
  | loaded {m} : image.length ≤ 100 → (∀ v ∈ image, Word.InRange v) →
      (∀ (a : Nat) (h : a < 100), m[a].toInt = image.getD a 0) → Loads image (.ok m)
  | tooLong : 100 < image.length → Loads image (.error (.outsideMemory 100))
  | unfit {before v after} : image.length ≤ 100 → image = before ++ v :: after →
      (∀ u ∈ before, Word.InRange u) → ¬ Word.InRange v → Loads image (.error (.unfit v))

def toImage (m : Memory) : List Int := m.words.map Int32.toInt

variable {m n : Memory} {image before after : List Int} {v : Int} {r : Except Fault Memory}

section Loads

theorem writeAll_eq_error {a : Nat} (hlen : a + (before ++ v :: after).length ≤ 100)
    (hbefore : ∀ u ∈ before, Word.InRange u) (hv : ¬ Word.InRange v) :
    m.writeAll a (before ++ v :: after) = .error (.unfit v) := by
  induction before generalizing m a with
  | nil =>
    rw [List.nil_append, List.length_cons] at hlen
    rw [List.nil_append, writeAll, write_of_lt (by omega), if_neg hv]
  | cons u before ih =>
    obtain ⟨hu, hbefore⟩ := List.forall_mem_cons.mp hbefore
    rw [List.cons_append, List.length_cons] at hlen
    rw [List.cons_append, writeAll, write_of_lt (by omega), if_pos hu]
    exact ih (by omega) hbefore

theorem Loads.ofImage_eq (h : Loads image r) : ofImage image = r := by
  cases h with
  | loaded hlen hrange hcells =>
    obtain ⟨m, hm⟩ := exists_ofImage hlen hrange
    rw [hm]
    congr 1
    ext a ha
    apply Int32.toInt_inj.mp
    rw [toInt_getElem_of_ofImage hm ha, hcells a ha]
  | tooLong hlen => rw [ofImage, if_pos hlen]
  | unfit hlen himage hbefore hv =>
    subst himage
    rw [ofImage, if_neg (Nat.not_lt_of_le hlen), writeAll_eq_error (by omega) hbefore hv]

theorem inRange_or_exists_first (image : List Int) :
    (∀ v ∈ image, Word.InRange v) ∨ ∃ before v after, image = before ++ v :: after ∧
      (∀ u ∈ before, Word.InRange u) ∧ ¬ Word.InRange v := by
  cases h : image.find? fun v => ¬ Word.InRange v with
  | none => exact .inl (by simpa using h)
  | some v =>
    obtain ⟨hv, before, after, himage, hbefore⟩ := List.find?_eq_some_iff_append.mp h
    exact .inr ⟨before, v, after, himage, by simpa using hbefore, by simpa using hv⟩

theorem exists_loads (image : List Int) : ∃ r, Loads image r := by
  by_cases hlen : image.length ≤ 100
  · obtain hrange | ⟨before, v, after, himage, hbefore, hv⟩ := inRange_or_exists_first image
    · obtain ⟨m, hm⟩ := exists_ofImage hlen hrange
      exact ⟨_, .loaded hlen hrange fun _ => toInt_getElem_of_ofImage hm⟩
    · exact ⟨_, .unfit hlen himage hbefore hv⟩
  · exact ⟨_, .tooLong (Nat.lt_of_not_le hlen)⟩

theorem ofImage_eq_iff_loads : ofImage image = r ↔ Loads image r := by
  constructor
  · rintro rfl
    obtain ⟨r, h⟩ := exists_loads image
    rwa [h.ofImage_eq]
  · exact Loads.ofImage_eq

theorem exists_ofImage_iff :
    (∃ m, ofImage image = .ok m) ↔ image.length ≤ 100 ∧ ∀ v ∈ image, Word.InRange v := by
  constructor
  · rintro ⟨m, hm⟩
    cases ofImage_eq_iff_loads.mp hm with
    | loaded hlen hrange _ => exact ⟨hlen, hrange⟩
  · rintro ⟨hlen, hrange⟩
    exact exists_ofImage hlen hrange

end Loads

section ToImage

theorem length_toImage (m : Memory) : m.toImage.length = 100 := by
  rw [toImage, List.length_map, length_words]

theorem getD_toImage (m : Memory) {a : Nat} (ha : a < 100) : m.toImage.getD a 0 = m[a].toInt := by
  have hlen : a < m.toImage.length := by rwa [length_toImage]
  rw [List.getD_eq_getElem _ _ hlen]
  simp only [toImage, List.getElem_map, getElem_words m _ ha]

theorem Sound.ofImage_toImage (h : m.Sound) : ofImage m.toImage = .ok m :=
  Loads.ofImage_eq (.loaded (length_toImage m).le (List.forall_mem_map.mpr h.words)
    fun _ ha => (getD_toImage m ha).symm)

theorem toImage_injective (h : m.toImage = n.toImage) : m = n := by
  ext a ha
  apply Int32.toInt_inj.mp
  rw [← getD_toImage m ha, ← getD_toImage n ha, h]

theorem getD_rightpad (image : List Int) (k a : Nat) :
    (image.rightpad k 0).getD a 0 = image.getD a 0 := by
  obtain h | h := Nat.lt_or_ge a image.length
  · exact List.getD_append _ _ _ _ h
  · rw [List.rightpad, List.getD_append_right _ _ _ _ h, List.getD_eq_default _ _ h,
      List.getD_eq_getElem?_getD, List.getElem?_getD_replicate_default_eq]

theorem toImage_of_ofImage (h : ofImage image = .ok m) : m.toImage = image.rightpad 100 0 := by
  obtain ⟨hlen, -⟩ := exists_ofImage_iff.mp ⟨m, h⟩
  have hlen' : (image.rightpad 100 0).length = 100 := by
    rw [List.length_rightpad, Nat.max_eq_left hlen]
  apply List.ext_getElem ((length_toImage m).trans hlen'.symm)
  intro a hm hpad
  have ha : a < 100 := by rwa [length_toImage] at hm
  calc
    m.toImage[a] = m.toImage.getD a 0 := (List.getD_eq_getElem _ 0 hm).symm
    _ = image.getD a 0 := by rw [getD_toImage m ha, toInt_getElem_of_ofImage h ha]
    _ = (image.rightpad 100 0).getD a 0 := (getD_rightpad image 100 a).symm
    _ = (image.rightpad 100 0)[a] := List.getD_eq_getElem _ 0 hpad

end ToImage

theorem ofImage_faithful :
    (∀ image, (∃ m, ofImage image = .ok m) ↔
      image.length ≤ 100 ∧ ∀ v ∈ image, Word.InRange v) ∧
      (∀ image r, ofImage image = r ↔ Loads image r) ∧
      (∀ m : Memory, m.Obtainable → ofImage m.toImage = .ok m) ∧
      ∀ image image' m m', ofImage image = .ok m → ofImage image' = .ok m' →
        (m = m' ↔ image.rightpad 100 0 = image'.rightpad 100 0) := by
  refine ⟨fun _ => exists_ofImage_iff, fun _ _ => ofImage_eq_iff_loads,
    fun m h => h.sound.ofImage_toImage, ?_⟩
  intro image image' m m' h h'
  rw [← toImage_of_ofImage h, ← toImage_of_ofImage h']
  exact ⟨congrArg toImage, toImage_injective⟩

example : ofImage (10000 :: List.replicate 100 0) = .error (.outsideMemory 100) := rfl

end Simpletron.Memory
