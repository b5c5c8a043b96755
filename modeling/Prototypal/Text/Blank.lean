/-!
# Prototypal — Text — Blank

White space in the sense of the Unicode property White_Space (`Text.isBlank`), and words freed of it
and of letter case (`Text.keyword`).
-/

namespace Prototypal.Text

/-- Whether a character has the property White_Space. -/
def isBlank (c : Char) : Bool :=
  let n := c.toNat
  (9 ≤ n && n ≤ 13) || n == 0x20 || n == 0x85 || n == 0xA0 || n == 0x1680 ||
    (0x2000 ≤ n && n ≤ 0x200A) || n == 0x2028 || n == 0x2029 || n == 0x202F || n == 0x205F ||
    n == 0x3000

/-- The characters between leading and trailing white space. -/
def trimmed (cs : List Char) : List Char :=
  ((cs.dropWhile isBlank).reverse.dropWhile isBlank).reverse

/-- A word by which something is asked for: without surrounding white space, the letters A to Z as
small ones. -/
def keyword (s : String) : String := String.ofList ((trimmed s.toList).map Char.toLower)

end Prototypal.Text
