/-
  PatchPresence.Text.Blank — white space of Unicode, and trimming by it.
-/
namespace PatchPresence.Text

/-- Whether a character has the Unicode property White_Space. -/
def isBlank (c : Char) : Bool :=
  let code := c.toNat
  (9 ≤ code && code ≤ 13) || code == 0x20 || code == 0x85 || code == 0xA0 || code == 0x1680 ||
    (0x2000 ≤ code && code ≤ 0x200A) || code == 0x2028 || code == 0x2029 || code == 0x202F ||
    code == 0x205F || code == 0x3000

/-- Text without the white space at its start. -/
def trimStart (text : List Char) : List Char := text.dropWhile isBlank

/-- Text without the white space at its end. -/
def trimEnd (text : List Char) : List Char := (text.reverse.dropWhile isBlank).reverse

/-- Text without the white space at both ends. -/
def trim (text : List Char) : List Char := trimEnd (trimStart text)

/-- First maximal run of characters that are no white space; empty when there is none. -/
def firstWord (text : List Char) : List Char :=
  (trimStart text).takeWhile fun c => !isBlank c

end PatchPresence.Text
