import EmbeddedGraphQL.Text.Position

/-!
Lexemes of a half-typed GraphQL document. Every text splits into lexemes without a rest: a
character that starts nothing else is a stray lexeme of its own, an unclosed string ends at the
line break, and an unclosed block string at the end of the text.
-/
namespace EmbeddedGraphQL

/-- What a lexeme is. -/
inductive LexemeKind where
  | lineBreak
  | space
  | comma
  | comment
  | blockString
  | quotedString
  | spread
  | variable
  | directive
  | punctuator
  | number
  | name
  | stray
  deriving DecidableEq, Repr, Inhabited

structure Lexeme where
  kind : LexemeKind
  text : List Char
  deriving DecidableEq, Repr, Inhabited

namespace Lexeme

def isSpace (c : Char) : Bool := c == ' ' || c == '\t' || c == '\r' || c == '\uFEFF'

def isNameStart (c : Char) : Bool := c.isAlpha || c == '_'

def isPunctuator (c : Char) : Bool :=
  c == '!' || c == '(' || c == ')' || c == ':' || c == '=' || c == '[' || c == ']' ||
    c == '{' || c == '}' || c == '|' || c == '&'

/-- The characters of a name at the start of a text, none if no name starts there. -/
def nameAt : List Char → List Char
  | [] => []
  | c :: rest => if isNameStart c then c :: rest.takeWhile Text.isNameChar else []

/-- The rest of a block string after its opening quotes, through the next three quotes. -/
def blockBody : List Char → List Char
  | '"' :: '"' :: '"' :: _ => ['"', '"', '"']
  | c :: rest => c :: blockBody rest
  | [] => []

/-- The rest of a string after its opening quote. A backslash takes any character along. -/
def quotedBody : List Char → List Char
  | [] => []
  | ['\\'] => ['\\']
  | '\\' :: c :: rest => '\\' :: c :: quotedBody rest
  | c :: rest =>
    if c = '"' then ['"'] else if c = '\n' then [] else c :: quotedBody rest

/-- Digits after a point, with the point, if both are there. -/
def fraction : List Char → List Char
  | '.' :: rest =>
    let digits := rest.takeWhile Char.isDigit
    if digits.isEmpty then [] else '.' :: digits
  | _ => []

/-- The mark, the sign and the digits of an exponent, if mark and digits are there. -/
def exponent : List Char → List Char
  | mark :: rest =>
    if mark = 'e' ∨ mark = 'E' then
      let sign := match rest with
        | '+' :: _ => ['+']
        | '-' :: _ => ['-']
        | _ => []
      let digits := (rest.drop sign.length).takeWhile Char.isDigit
      if digits.isEmpty then [] else mark :: (sign ++ digits)
    else []
  | [] => []

/-- A number without a sign at the start of a text, empty if none starts there. -/
def unsigned (text : List Char) : List Char :=
  let whole := match text with
    | '0' :: _ => ['0']
    | _ => text.takeWhile Char.isDigit
  if whole.isEmpty then []
  else
    let afterWhole := text.drop whole.length
    let part := fraction afterWhole
    whole ++ part ++ exponent (afterWhole.drop part.length)

/-- The kind of the lexeme that starts with `c`, and what it takes of the rest of the text. -/
def munch (c : Char) (rest : List Char) : LexemeKind × List Char :=
  if c = '\n' then (.lineBreak, [])
  else if isSpace c then (.space, rest.takeWhile isSpace)
  else if c = ',' then (.comma, [])
  else if c = '#' then (.comment, rest.takeWhile (· ≠ '\n'))
  else if c = '"' then
    match rest with
    | '"' :: '"' :: body => (.blockString, '"' :: '"' :: blockBody body)
    | _ => (.quotedString, quotedBody rest)
  else if c = '.' ∧ ['.', '.'].isPrefixOf rest then (.spread, ['.', '.'])
  else if c = '$' then (.variable, nameAt rest)
  else if c = '@' then (.directive, nameAt rest)
  else if isPunctuator c then (.punctuator, [])
  else if c = '-' then
    let digits := unsigned rest
    if digits.isEmpty then (.stray, []) else (.number, digits)
  else if c.isDigit then (.number, (unsigned (c :: rest)).tail)
  else if isNameStart c then (.name, rest.takeWhile Text.isNameChar)
  else (.stray, [])

/-- The lexemes of a text, each with the text that follows it. -/
def split (text : List Char) : List (Lexeme × List Char) :=
  match text with
  | [] => []
  | c :: rest =>
    let (kind, taken) := munch c rest
    let after := rest.drop taken.length
    (⟨kind, c :: taken⟩, after) :: split after
termination_by text.length
decreasing_by
  simp only [List.length_drop, List.length_cons]
  omega

/-- Whether a lexeme means nothing to the grammar. -/
def isIgnored (l : Lexeme) : Bool :=
  l.kind == .lineBreak || l.kind == .space || l.kind == .comma || l.kind == .comment

/-- The first character of a text that is no blank, looked for among the first 256. -/
def ahead (text : List Char) : Option Char :=
  (text.take 256).find? fun c => !(c == ' ' || c == '\t' || c == '\r' || c == '\n')

end Lexeme
end EmbeddedGraphQL
