import Simpletron.Proofs.Scan

namespace Simpletron.Program

namespace Draft

variable {l : List Char} {d : Draft} {n : Nat}

theorem takeAll_sentinel (h : Line.Says l .sentinel) (rest : List (List Char)) :
    d.takeAll n (l :: rest) = .ok d := by
  simp only [takeAll, takeText, h.ofText_eq, take]

theorem takeAll_append_congr {ks ks' : List (List Char)}
    (h : ∀ (d : Draft) (n : Nat), d.takeAll n ks = d.takeAll n ks') (ls : List (List Char)) :
    d.takeAll n (ls ++ ks) = d.takeAll n (ls ++ ks') := by
  induction ls generalizing d n with
  | nil => exact h d n
  | cons l ls ih =>
    simp only [List.cons_append, takeAll]
    cases d.takeText n l with
    | error e => rfl
    | ok taken =>
      obtain ⟨r, d'⟩ := taken
      cases r with
      | done => rfl
      | blank => exact ih
      | stored a => exact ih

end Draft

theorem parse_append_sentinel (s t : String) : parse (s ++ "\n-99999\n" ++ t) = parse s := by
  have hjoin : (s ++ "\n-99999\n" ++ t).toList =
      s.toList ++ '\n' :: ("-99999".toList ++ '\n' :: t.toList) := by
    rw [String.toList_append, String.toList_append, List.append_assoc]
    rfl
  have hline : Text.lines isLineEnd ("-99999".toList ++ '\n' :: t.toList) =
      "-99999".toList :: Text.lines isLineEnd t.toList :=
    Text.lines_append isLineEnd (by simp [isLineEnd]) rfl t.toList
  have hblank : Line.Says [] .blank := Line.says_ofText []
  have hsentinel : Line.Says "-99999".toList .sentinel := Line.says_ofText _
  obtain ⟨gap, hgap, hlines⟩ := Text.exists_gap_lines isLineEnd (e := '\n') rfl s.toList
    ("-99999".toList ++ '\n' :: t.toList)
  -- Where the join leaves an empty line, that is a blank one more before the sentinel.
  have hend : ∀ (d : Draft) (n : Nat),
      d.takeAll n (gap ++ "-99999".toList :: Text.lines isLineEnd t.toList) = d.takeAll n [] := by
    intro d n
    obtain rfl | rfl := hgap
    · exact Draft.takeAll_sentinel hsentinel _
    · exact (Draft.takeAll_blank hblank).trans (Draft.takeAll_sentinel hsentinel _)
  rw [parse, parse, hjoin, hlines, hline, Draft.takeAll_append_congr hend, List.append_nil]

example : parse ("1002 # in" ++ "\n-99999\n" ++ "9999999999\nnone") =
    .ok (Memory.blank.set 0 (by decide) 1002) := by
  decide +kernel

end Simpletron.Program
