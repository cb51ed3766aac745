import EmbeddedGraphQL.Json.Writer

/-!
Texts in quotes for messages: single quotes, unless the text has single quotes and no double ones.
Control characters and surrogates are escaped.
-/
namespace EmbeddedGraphQL.Text

def isControl (c : Char) : Bool :=
  let n := c.val.toNat
  n < 0x20 || (0x7F ≤ n && n ≤ 0xA0) || n == 0xAD

def quotedChar (mark c : Char) : List Char :=
  if c = mark ∨ c = '\\' then ['\\', c]
  else if c = '\n' then ['\\', 'n']
  else if c = '\r' then ['\\', 'r']
  else if c = '\t' then ['\\', 't']
  else if isControl c then
    ['\\', 'x', Json.hexDigit (c.val.toNat / 16), Json.hexDigit (c.val.toNat % 16)]
  else [c]

def quotedPoint (mark : Char) : CodePoint → List Char
  | .char c => quotedChar mark c
  | .surrogate place => Json.escapeUnit (0xD800 + place)

/-- A text that need not be well formed in quotes. -/
def quotedPoints (points : List CodePoint) : String :=
  let mark :=
    if points.contains (.char '\'') && !points.contains (.char '"') then '"' else '\''
  String.ofList (mark :: (points.flatMap (quotedPoint mark) ++ [mark]))

def quoted (text : String) : String := quotedPoints (text.toList.map .char)

end EmbeddedGraphQL.Text
