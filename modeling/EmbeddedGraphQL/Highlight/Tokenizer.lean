import EmbeddedGraphQL.Highlight.Grammar

/-!
Tokens of a buffer. They cover it without gaps or overlaps; a quoted string is given as its opening
quote, its content and its closing quote.
-/
namespace EmbeddedGraphQL.Highlight

/-- Whether the last quote of a quoted string closes it: it is not the first one, and no backslash
stands right before it. -/
def isClosed (text : List Char) : Bool :=
  match text.reverse with
  | '"' :: '\\' :: _ => false
  | '"' :: _ :: _ => true
  | _ => false

/-- The tokens of a quoted string. -/
def splitQuoted (token : Token) : List Token :=
  let closed := isClosed token.text
  let content := if closed then token.text.tail.dropLast else token.text.tail
  let contentStop := if closed then token.stop - 1 else token.stop
  let opening := { token with style := .openQuote, text := ['"'], stop := token.start + 1 }
  let middle :=
    if token.start + 1 < contentStop then
      [{ token with text := content, start := token.start + 1, stop := contentStop }]
    else []
  let closing :=
    if closed then [{ token with style := .closeQuote, text := ['"'], start := token.stop - 1 }]
    else []
  opening :: (middle ++ closing)

/-- The tokens of one lexeme that starts at `start`, in the state after it. -/
def lexemeTokens (state : GrammarState) (style : Style) (start : Nat) (l : Lexeme) : List Token :=
  let stop : Nat := start + l.text.length
  if l.kind = .lineBreak then [⟨l.text, style, start, stop, none, none⟩]
  else
    let token : Token := ⟨l.text, style, start, stop, some state.scope, some state.kindName⟩
    if l.kind = .quotedString then splitQuoted token else [token]

/-- The tokens of a sequence of lexemes that starts at `start`. -/
def tokensFrom (state : GrammarState) (start : Nat) :
    List (Lexeme × List Char) → List Token
  | [] => []
  | (l, after) :: rest =>
    let (next, style) := state.read l (Lexeme.ahead after)
    lexemeTokens next style start l ++ tokensFrom next (start + l.text.length) rest

/-- The tokens of a buffer. -/
def tokenize (buffer : List Char) : List Token :=
  tokensFrom .initial 0 (Lexeme.split buffer)

end EmbeddedGraphQL.Highlight
