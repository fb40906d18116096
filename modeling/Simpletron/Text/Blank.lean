/-! Blanks around a text: those taken off it, which are the characters of Unicode's `White_Space`
property, and those put there to fill a column. -/

namespace Simpletron.Text

def blankRanges : List (Nat × Nat) :=
  [(0x09, 0x0D), (0x20, 0x20), (0x85, 0x85), (0xA0, 0xA0), (0x1680, 0x1680), (0x2000, 0x200A),
    (0x2028, 0x2029), (0x202F, 0x202F), (0x205F, 0x205F), (0x3000, 0x3000)]

def isBlank (c : Char) : Bool :=
  blankRanges.any fun r => r.1 ≤ c.toNat && c.toNat ≤ r.2

def trimLeft (cs : List Char) : List Char := cs.dropWhile isBlank

def trimRight (cs : List Char) : List Char := (trimLeft cs.reverse).reverse

def trim (cs : List Char) : List Char := trimRight (trimLeft cs)

def alignRight (width : Nat) (text : String) : String :=
  String.ofList (text.toList.leftpad width ' ')

def alignLeft (width : Nat) (text : String) : String :=
  String.ofList (text.toList.rightpad width ' ')

theorem toList_alignRight (width : Nat) (text : String) :
    (alignRight width text).toList =
      List.replicate (width - text.length) ' ' ++ text.toList := by
  rw [alignRight, String.toList_ofList, List.leftpad, String.length_toList]

theorem toList_alignLeft (width : Nat) (text : String) :
    (alignLeft width text).toList =
      text.toList ++ List.replicate (width - text.length) ' ' := by
  rw [alignLeft, String.toList_ofList, List.rightpad, String.length_toList]

theorem length_alignRight (width : Nat) (text : String) :
    (alignRight width text).length = max width text.length := by
  have := String.length_toList (s := text)
  simp [alignRight, List.leftpad]
  omega

theorem length_alignLeft (width : Nat) (text : String) :
    (alignLeft width text).length = max width text.length := by
  have := String.length_toList (s := text)
  simp [alignLeft, List.rightpad]
  omega

end Simpletron.Text
