/-! # Blank characters

The characters with the Unicode property `White_Space`: more than core's `Char.isWhitespace`, and
not the byte order mark.
-/
namespace TypeErasure.Text

def isBlank (c : Char) : Bool :=
  c.isWhitespace || c ∈ ['\x0b', '\x0c', '\u0085', '\u00a0', '\u1680', '\u2028', '\u2029', '\u202f',
    '\u205f', '\u3000'] || ('\u2000' ≤ c && c ≤ '\u200a')

/-- Drops leading blanks. -/
def dropBlanks (cs : List Char) : List Char := cs.dropWhile isBlank

end TypeErasure.Text
