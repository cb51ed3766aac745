import EmbeddedGraphQL.Json.Reader
import EmbeddedGraphQL.Text.Utf8

/-!
Query strings: pairs of names and values, joined by ampersands, in which a plus stands for a space
and percent signs introduce bytes of UTF-8.
-/
namespace EmbeddedGraphQL.Query

def percent : UInt8 := 0x25

def byteHex? (byte : UInt8) : Option Nat := Json.hexValue? (Char.ofNat byte.toNat)

/-- Percent signs that no two hexadecimal digits follow stand for themselves. -/
def percentDecode : Utf8.Bytes → Utf8.Bytes
  | [] => []
  | [a] => [a]
  | [a, b] => [a, b]
  | a :: b :: c :: rest =>
    if a = percent then
      match byteHex? b, byteHex? c with
      | some high, some low => UInt8.ofNat (16 * high + low) :: percentDecode rest
      | _, _ => a :: percentDecode (b :: c :: rest)
    else a :: percentDecode (b :: c :: rest)

/-- A plus written as such is a space, one written as a byte is a plus. -/
def plusToSpace (bytes : Utf8.Bytes) : Utf8.Bytes :=
  bytes.map fun byte => if byte = 0x2B then 0x20 else byte

def decoded (bytes : Utf8.Bytes) : String :=
  String.ofList (Utf8.decodeLossy (percentDecode (plusToSpace bytes)))

/-- The parts of a list between the occurrences of a separator. -/
def splitAt (separator : UInt8) : Utf8.Bytes → List Utf8.Bytes
  | [] => [[]]
  | byte :: rest =>
    if byte = separator then [] :: splitAt separator rest
    else match splitAt separator rest with
      | part :: parts => (byte :: part) :: parts
      | [] => [[byte]]

/-- The name and the value of a pair; without an equals sign the value is empty. -/
def pair (part : Utf8.Bytes) : String × String :=
  let name := part.takeWhile (· != 0x3D)
  (decoded name, decoded (part.drop (name.length + 1)))

/-- The pairs of a query string in order. -/
def pairs (query : String) : List (String × String) :=
  ((splitAt 0x26 (Utf8.encode query.toList)).filter (!·.isEmpty)).map pair

/-- The last value of every name. -/
def members (query : String) : List (String × Json) :=
  Json.ofMembers ((pairs query).map fun (name, value) => (name, .str value))

end EmbeddedGraphQL.Query
