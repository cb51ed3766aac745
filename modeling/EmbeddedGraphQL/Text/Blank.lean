/-!
Blank characters. The wide class is the one of Unicode text processing: the White_Space property
together with the four ASCII separators U+001C to U+001F. Case folding plays no part here.
-/
namespace EmbeddedGraphQL.Text

/-- Characters with the Unicode property White_Space. -/
def isWhiteSpace (c : Char) : Bool :=
  let n := c.val.toNat
  (9 ≤ n && n ≤ 13) || n == 0x20 || n == 0x85 || n == 0xA0 || n == 0x1680 ||
    (0x2000 ≤ n && n ≤ 0x200A) || n == 0x2028 || n == 0x2029 || n == 0x202F || n == 0x205F ||
    n == 0x3000

/-- White space and the four ASCII information separators. -/
def isBlank (c : Char) : Bool :=
  isWhiteSpace c || (0x1C ≤ c.val.toNat && c.val.toNat ≤ 0x1F)

/-- Drops the characters of a class from both ends. -/
def strip (class? : Char → Bool) (text : List Char) : List Char :=
  ((text.dropWhile class?).reverse.dropWhile class?).reverse

end EmbeddedGraphQL.Text
