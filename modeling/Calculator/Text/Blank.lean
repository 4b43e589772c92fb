/-!
White space, as the Unicode property `White_Space` defines it. Blanks carry no
meaning in an expression and are removed before it is read.
-/

namespace Calculator

/-- The code points with the property `White_Space`, as inclusive ranges. -/
def blankRanges : List (Nat × Nat) :=
  [(0x9, 0xD), (0x20, 0x20), (0x85, 0x85), (0xA0, 0xA0), (0x1680, 0x1680), (0x2000, 0x200A),
    (0x2028, 0x2029), (0x202F, 0x202F), (0x205F, 0x205F), (0x3000, 0x3000)]

def isBlank (c : Char) : Bool :=
  blankRanges.any fun (first, last) => first ≤ c.toNat && c.toNat ≤ last

def withoutBlanks (text : String) : String :=
  String.ofList (text.toList.filter fun c => !isBlank c)

theorem toList_withoutBlanks (text : String) :
    (withoutBlanks text).toList = text.toList.filter fun c => !isBlank c := by
  simp [withoutBlanks]

end Calculator
