import EmbeddedGraphQL.Json.Reader
import EmbeddedGraphQL.Text.Utf8

/-!
JSON in bytes. The encoding is told by a byte order mark, or else by where the first four bytes are
zero, since the first two characters of JSON text are ASCII. Surrogates that stand alone are let
through in every encoding.
-/
namespace EmbeddedGraphQL.Json

inductive Encoding where
  | utf8
  | utf8Marked
  | utf16 (littleEndian : Bool)
  | utf16Marked
  | utf32 (littleEndian : Bool)
  | utf32Marked
  deriving DecidableEq, Repr

namespace Encoding

/-- The encoding that the first bytes of a text tell. -/
def detect : Utf8.Bytes → Encoding
  | 0 :: 0 :: 0xFE :: 0xFF :: _ => utf32Marked
  | 0xFF :: 0xFE :: 0 :: 0 :: _ => utf32Marked
  | 0xFE :: 0xFF :: _ => utf16Marked
  | 0xFF :: 0xFE :: _ => utf16Marked
  | 0xEF :: 0xBB :: 0xBF :: _ => utf8Marked
  | a :: b :: c :: d :: _ =>
    if a = 0 then if b = 0 then utf32 false else utf16 false
    else if b = 0 then if c = 0 ∧ d = 0 then utf32 true else utf16 true
    else utf8
  | [a, b] => if a = 0 then utf16 false else if b = 0 then utf16 true else utf8
  | _ => utf8

end Encoding

private def byteValue (littleEndian : Bool) (bytes : List UInt8) : Nat :=
  let ordered := if littleEndian then bytes.reverse else bytes
  ordered.foldl (fun value byte => 256 * value + byte.toNat) 0

private def chunks (size : Nat) : Nat → Utf8.Bytes → Option (List Utf8.Bytes)
  | 0, bytes => if bytes.isEmpty then some [] else none
  | fuel + 1, bytes =>
    if bytes.isEmpty then some []
    else if bytes.length < size then none
    else (chunks size fuel (bytes.drop size)).map (bytes.take size :: ·)

/-- Code points of 16-bit units; pairs of surrogates are one character. -/
def ofUnits : List Nat → List CodePoint
  | [] => []
  | [unit] => [.ofUnit unit]
  | high :: low :: rest =>
    match CodePoint.ofPair? high low with
    | some point => point :: ofUnits rest
    | none => .ofUnit high :: ofUnits (low :: rest)

private def utf16Text (littleEndian : Bool) (bytes : Utf8.Bytes) : Option (List CodePoint) :=
  (chunks 2 bytes.length bytes).map fun units => ofUnits (units.map (byteValue littleEndian))

private def utf32Text (littleEndian : Bool) (bytes : Utf8.Bytes) : Option (List CodePoint) :=
  (chunks 4 bytes.length bytes).bind fun units => units.mapM fun unit =>
    let n := byteValue littleEndian unit
    if n.isValidChar then some (.char (Char.ofNat n))
    else if n < 0x10000 then some (.ofUnit n)
    else none

/-- The text of bytes in an encoding; a byte order mark is no part of it. -/
def Encoding.text? (bytes : Utf8.Bytes) : Encoding → Option (List CodePoint)
  | utf8 => Utf8.decodePassing? bytes
  | utf8Marked => Utf8.decodePassing? (bytes.drop 3)
  | utf16 littleEndian => utf16Text littleEndian bytes
  | utf16Marked => utf16Text (bytes.head? == some 0xFF) (bytes.drop 2)
  | utf32 littleEndian => utf32Text littleEndian bytes
  | utf32Marked => utf32Text (bytes.head? == some 0xFF) (bytes.drop 4)

/-- The value that bytes write in any encoding. -/
def ofBytes? (bytes : Utf8.Bytes) : Option Json :=
  ((Encoding.detect bytes).text? bytes).bind ofText?

end EmbeddedGraphQL.Json
