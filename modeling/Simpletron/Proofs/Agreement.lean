import Simpletron.Proofs.Asking
import Simpletron.Proofs.Scan

/-! One line for two readers. A console takes a line for a word when a program would, and for the same
word, but for comments, which a console knows nothing of. -/

namespace Simpletron

open Text
open Program (Draft Line)
open Simpletron.Stream (Leads)

variable {l : List Char} {w : Word}

theorem Memory.set_injective {m : Memory} {a : Nat} (ha : a < 100) {u : Word}
    (h : m.set a ha u = m.set a ha w) : u = w := by
  rw [← getElem_set_self m ha u, h, getElem_set_self]

namespace Program.Draft

theorem takeText_eq_stored_iff {d : Draft} {n : Nat} (hroom : d.location < 100) :
    d.takeText n l =
        .ok (.stored (d.location + 1), ⟨d.memory.set d.location hroom w, d.location + 1⟩) ↔
      Line.ofText l = .word w := by
  rw [takeText]
  cases hline : Line.ofText l with
  | word u =>
    have hu := (Line.ofText_eq_iff_says.mp hline).inRange
    rw [take, append_of_lt hroom hu]
    simp only [Except.ok.injEq, Prod.mk.injEq, Draft.mk.injEq, Line.word.injEq, true_and, and_true]
    exact ⟨Memory.set_injective hroom, fun h => h ▸ rfl⟩
  | _ => simp [take]

end Program.Draft

namespace Console

variable {c d : Console} {rest : List UInt8}

theorem length_lt_of_read (h : c.read = (.ok w, d)) : d.input.length < c.input.length := by
  fun_induction read c with
  | case1 => cases h
  | case2 c u e hask =>
    cases h
    exact length_lt_of_ask hask
  | case3 c e hask ih => exact Nat.lt_trans (ih h) (length_lt_of_ask hask)

theorem read_eq_iff_enters (hlead : Leads c.input (utf8 l) rest) (hfits : c.output.Fits prompt) :
    c.read = (.ok w, ⟨rest, c.output.send prompt⟩) ↔ Enters l w := by
  obtain ⟨input, out⟩ := c
  have hfirst := Stream.leads_iff_firstLine?.mp hlead
  have hjudge := judge_utf8 l
  rw [← word?_eq_some_iff]
  cases hl : word? l with
  | some u =>
    rw [hl] at hjudge
    rw [read_of_ask_word (ask_of_some hfirst hfits hjudge)]
    simp
  | none =>
    rw [hl] at hjudge
    refine iff_of_false (fun h => ?_) nofun
    -- Whatever word comes of the read after all, it was on a later line.
    by_cases hr : (out.send prompt).Fits rejection
    · rw [read_of_ask_again (ask_of_none hfirst hfits hr hjudge)] at h
      exact absurd (length_lt_of_read h) (Nat.lt_irrefl _)
    · rw [read_of_ask_error (ask_of_none_of_not_fits hfirst hfits hr hjudge)] at h
      cases h

theorem enters_iff_ofText : Enters l w ↔ '#' ∉ l ∧ Line.ofText l = .word w := by
  rw [Line.ofText_eq_iff_says]
  constructor
  · rintro ⟨c, htrims, hv, hrange⟩
    have hl := htrims.not_comment hv.not_comment
    exact ⟨hl, .word ((Line.core_iff_trims hl).mpr htrims) hv hrange⟩
  · rintro ⟨hl, hsays⟩
    cases hsays with
    | word hcore hv hrange => exact ⟨_, (Line.core_iff_trims hl).mp hcore, hv, hrange⟩

example : Line.ofText "-99999".toList = .sentinel ∧ word? "-99999".toList = none := by decide

/-- The word is read off the line, with nothing asked again, just when a draft with room left stores
it from that line. -/
theorem read_eq_iff_takeText_eq {d : Draft} (hlead : Leads c.input (utf8 l) rest)
    (hfits : c.output.Fits prompt) (hroom : d.location < 100) (n : Nat) (w : Word) :
    c.read = (.ok w, ⟨rest, c.output.send prompt⟩) ↔
      '#' ∉ l ∧ d.takeText n l =
        .ok (.stored (d.location + 1), ⟨d.memory.set d.location hroom w, d.location + 1⟩) := by
  rw [read_eq_iff_enters hlead hfits, enters_iff_ofText, Draft.takeText_eq_stored_iff hroom]

theorem read_eq_iff_takeText_eq_padded :
    let l := "\t+00000000000000000000042 ".toList
    let c : Console := { input := utf8 l, output := { room := some 18 } }
    let d : Draft := { location := 99 }
    Leads c.input (utf8 l) [] ∧ c.output.Fits prompt ∧ d.location < 100 ∧
      c.read = (.ok 42, ⟨[], c.output.send prompt⟩) := by
  intro l c d
  have hlead : Leads c.input (utf8 l) [] := Stream.leads_iff_firstLine?.mpr (by decide)
  have hfits : c.output.Fits prompt := by decide
  have hroom : d.location < 100 := by decide
  have hstored := (Draft.takeText_eq_stored_iff (n := 1) (w := 42) hroom).mpr
    (show Line.ofText l = .word 42 by decide)
  exact ⟨hlead, hfits, hroom,
    (read_eq_iff_takeText_eq hlead hfits hroom 1 42).mpr ⟨by decide, hstored⟩⟩

end Console

end Simpletron
