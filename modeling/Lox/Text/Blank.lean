/-!
# Blank text

The characters with the Unicode property `White_Space`, as ranges of code points. A text is blank
if it has no others.
-/

namespace Lox.Text

def whiteSpace : List (Nat × Nat) :=
  [(0x9, 0xD), (0x20, 0x20), (0x85, 0x85), (0xA0, 0xA0), (0x1680, 0x1680), (0x2000, 0x200A),
    (0x2028, 0x2029), (0x202F, 0x202F), (0x205F, 0x205F), (0x3000, 0x3000)]

def isWhiteSpace (c : Char) : Bool :=
  whiteSpace.any fun (first, last) => first ≤ c.toNat && c.toNat ≤ last

def isBlank (text : String) : Bool := text.toList.all isWhiteSpace

end Lox.Text
