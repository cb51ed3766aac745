import EmbeddedGraphQL.Text.CodePoint

/-!
Reading UTF-8. A sequence of bytes is read strictly, or with U+FFFD in place of every longest part
that starts a character and cannot be completed, or with the surrogates that it writes.
-/
namespace EmbeddedGraphQL.Utf8

abbrev Bytes := List UInt8

/-- What the first byte of a character asks of the ones that follow: how many there are, the range
of the next one, and the bits of the first. -/
structure Lead where
  following : Nat
  low : Nat
  high : Nat
  bits : Nat

def lead? (byte : Nat) : Option Lead :=
  if byte < 0x80 then some ⟨0, 0x80, 0xBF, byte⟩
  else if byte < 0xC2 then none
  else if byte < 0xE0 then some ⟨1, 0x80, 0xBF, byte - 0xC0⟩
  else if byte = 0xE0 then some ⟨2, 0xA0, 0xBF, 0⟩
  else if byte = 0xED then some ⟨2, 0x80, 0x9F, 0xD⟩
  else if byte < 0xF0 then some ⟨2, 0x80, 0xBF, byte - 0xE0⟩
  else if byte = 0xF0 then some ⟨3, 0x90, 0xBF, 0⟩
  else if byte < 0xF4 then some ⟨3, 0x80, 0xBF, byte - 0xF0⟩
  else if byte = 0xF4 then some ⟨3, 0x80, 0x8F, 4⟩
  else none

/-- Reads the following bytes of a character. Gives its code point, or none if they break off, and
how many of them belong to it. -/
def continuation (value low high : Nat) : Nat → Bytes → Option Nat × Nat
  | 0, _ => (some value, 0)
  | _ + 1, [] => (none, 0)
  | n + 1, byte :: rest =>
    let b := byte.toNat
    if low ≤ b ∧ b ≤ high then
      let (found, taken) := continuation (64 * value + (b - 0x80)) 0x80 0xBF n rest
      (found, taken + 1)
    else (none, 0)

/-- The first character of nonempty bytes, if they start with one, and the count of bytes after the
first that belong to it. -/
def first (byte : UInt8) (rest : Bytes) : Option Char × Nat :=
  match lead? byte.toNat with
  | none => (none, 0)
  | some lead =>
    let (value, taken) := continuation lead.bits lead.low lead.high lead.following rest
    (value.map Char.ofNat, taken)

/-- The text of well-formed bytes. -/
def decode? : Bytes → Option (List Char)
  | [] => some []
  | byte :: rest =>
    match first byte rest with
    | (some c, taken) => (decode? (rest.drop taken)).map (c :: ·)
    | (none, _) => none
termination_by bytes => bytes.length
decreasing_by simp only [List.length_cons, List.length_drop]; omega

/-- The text of any bytes. -/
def decodeLossy : Bytes → List Char
  | [] => []
  | byte :: rest =>
    let (c, taken) := first byte rest
    c.getD '\ufffd' :: decodeLossy (rest.drop taken)
termination_by bytes => bytes.length
decreasing_by simp only [List.length_cons, List.length_drop]; omega

/-- The surrogate that three bytes write. -/
def surrogate? : Bytes → Option CodePoint
  | 0xED :: b :: c :: _ =>
    if 0xA0 ≤ b ∧ b ≤ 0xBF ∧ 0x80 ≤ c ∧ c ≤ 0xBF then
      some (.ofUnit (0xD000 + (b.toNat - 0x80) * 64 + (c.toNat - 0x80)))
    else none
  | _ => none

/-- The text of bytes that are well formed but for surrogates. -/
def decodePassing? : Bytes → Option (List CodePoint)
  | [] => some []
  | byte :: rest =>
    match surrogate? (byte :: rest), first byte rest with
    | some point, _ => (decodePassing? (rest.drop 2)).map (point :: ·)
    | none, (some c, taken) => (decodePassing? (rest.drop taken)).map (.char c :: ·)
    | none, (none, _) => none
termination_by bytes => bytes.length
decreasing_by all_goals simp only [List.length_cons, List.length_drop]; omega

def encodeChar (c : Char) : Bytes := (String.singleton c).toUTF8.toList

def encode (text : List Char) : Bytes := text.flatMap encodeChar

end EmbeddedGraphQL.Utf8
