import EmbeddedGraphQL.Embedding.Extraction
import EmbeddedGraphQL.Highlight.Token
import EmbeddedGraphQL.Text.Slice

/-!
Moving the tokens of an extracted document back to the buffer it came from. Inserted text is dropped
first and the rest is moved left; then every template expression gets its own text back as a token;
last, overlaps are trimmed and gaps filled so that the tokens form one chain over the buffer.
-/
namespace EmbeddedGraphQL.Restoration

/-- Something that is wrong with restored tokens and that no real run of the tools produces. -/
inductive Fault where
  | templateMoved (start : Int)
  | textsDiffer
  deriving DecidableEq, Repr

/-- A walk over tokens from left to right: what is left of the ledger, the length of the insertions
passed so far and the last one of them. -/
structure Walk where
  ledger : Ledger
  delta : Int
  active : Option Insertion

namespace Walk

/-- Passes every insertion at or before the start of a token. -/
def pass (walk : Walk) (token : Token) : Walk :=
  let (passed, ledger) := walk.ledger.consumeBefore (token.start + 1)
  { ledger
    delta := walk.delta + Insertion.total passed
    active := passed.getLast?.or walk.active }

/-- Cuts from the front of a token what lies in the insertion passed last; nothing is left of a
token that lies inside it. -/
def trimFront? (walk : Walk) (token : Token) : Option Token :=
  match walk.active with
  | some i =>
    if token.start < i.stop then
      if token.stop ≤ i.stop then none
      else
        some { token with
          text := token.text.drop (i.stop - token.start).toNat
          start := i.stop }
    else some token
  | none => some token

/-- Cuts from the end of a token what follows the start of the next insertion. -/
def trimBack (walk : Walk) (token : Token) : Token :=
  match walk.ledger.peek with
  | some i =>
    if token.start < i.position ∧ i.position < token.stop then
      { token with
        text := token.text.take (i.position - token.start).toNat
        stop := i.position }
    else token
  | none => token

end Walk

/-- Drops inserted text and moves the rest left, token by token. -/
def unshiftFrom (walk : Walk) : List Token → List Token
  | [] => []
  | token :: rest =>
    let walk := walk.pass token
    match walk.trimFront? token with
    | none => unshiftFrom walk rest
    | some token =>
      let token := walk.trimBack token
      { token with start := token.start - walk.delta, stop := token.stop - walk.delta } ::
        unshiftFrom walk rest

/-- The tokens in the places of the buffer before insertions. -/
def unshift (ledger : Ledger) (tokens : List Token) : List Token :=
  if ledger.insertions.isEmpty then tokens
  else unshiftFrom ⟨ledger.reset, 0, none⟩ tokens

/-- The part of a token between two offsets of the buffer. -/
def piece (buffer : List Char) (token : Token) (start stop : Int) : Token :=
  { token with text := Text.slice buffer start stop, start, stop }

/-- A token that starts where a template expression does becomes that expression. -/
def asTemplate (token : Token) (t : Template) : Token :=
  { token with text := t.text, style := .template, stop := token.start + t.text.length }

/-- Splits a token at the template expressions that start in it and gives them their text back.
The expressions are those not passed yet, in their order. -/
def withTemplates (buffer : List Char) : List Template → Token → List Token
  | [], token => [token]
  | t :: rest, token =>
    let opened (token : Token) : List Token :=
      if token.stop ≤ t.stop then [asTemplate token t]
      else
        asTemplate (piece buffer token token.start t.stop) t ::
          withTemplates buffer rest (piece buffer token t.stop token.stop)
    if (t.start : Int) < token.start then withTemplates buffer rest token
    else if (t.start : Int) = token.start then opened token
    else if (t.start : Int) < token.stop then
      piece buffer token token.start t.start :: opened (piece buffer token t.start token.stop)
    else [token]

/-- Text between tokens, in the scope of the token before it. Commas are punctuation. -/
def gap (buffer : List Char) (start stop : Int) (last : Option Token) : Token :=
  let text := Text.slice buffer start stop
  { text
    style := if text.contains ',' then .punctuation else .blank
    start, stop
    scope := last.bind (·.scope)
    kind := last.bind (·.kind) }

/-- Draws the dots of a spread again at the end of a run of blanks that stops where they did. -/
def withDots (ends : List Nat) (token : Token) : List Token :=
  let width := spreadDots.length
  if token.style ≠ .blank ∨ ¬ ends.any (fun e => (e : Int) == token.stop) ∨
      token.text.length < width then [token]
  else if token.text.length = width then [{ token with text := spreadDots, style := .keyword }]
  else
    let split := token.stop - width
    [{ token with text := token.text.take (token.text.length - width), stop := split },
      { token with text := spreadDots, style := .keyword, start := split }]

/-- A finished token: blanked text gets its own text back, and dots are drawn again. -/
def finish (r : Extraction) (token : Token) : List Token :=
  let token :=
    if r.scan.isBlanked token.start token.stop then
      { token with text := Text.slice r.buffer token.start token.stop }
    else token
  withDots r.scan.spreadEnds token

/-- Chains tokens from `lastStop` on: empty and covered tokens are dropped, overlaps trimmed and
gaps filled. `last` is the token that ends at `lastStop`. -/
def chainFrom (r : Extraction) (last : Option Token) (lastStop : Int) : List Token → List Token
  | [] =>
    if lastStop < r.buffer.length then
      finish r (gap r.buffer lastStop r.buffer.length last)
    else []
  | token :: rest =>
    if token.stop ≤ token.start then chainFrom r last lastStop rest
    else if token.start < lastStop ∧ token.stop ≤ lastStop then chainFrom r last lastStop rest
    else
      let token :=
        if token.start < lastStop then
          { token with text := Text.slice r.buffer lastStop token.stop, start := lastStop }
        else token
      let before :=
        if lastStop < token.start then finish r (gap r.buffer lastStop token.start last) else []
      let done := finish r token
      let last := done.getLast?
      before ++ done ++ chainFrom r last ((last.map (·.stop)).getD token.stop) rest

/-- The tokens of the extracted document as tokens of the buffer. -/
def restore (r : Extraction) (tokens : List Token) : List Token :=
  match tokens with
  | [] =>
    if r.buffer.isEmpty then [] else [gap r.buffer 0 r.buffer.length none]
  | _ =>
    chainFrom r none 0
      ((unshift r.ledger tokens).flatMap (withTemplates r.buffer r.scan.templates))

/-- What is wrong with restored tokens: a template whose text is not the one at its place, or texts
that do not make up the buffer. -/
def faults (r : Extraction) (tokens : List Token) : List Fault :=
  if tokens.isEmpty then []
  else
    let moved := (r.scan.templates.filter fun t =>
      Text.slice r.buffer t.start t.stop != t.text).map fun t => .templateMoved t.start
    if (restore r tokens).flatMap (·.text) = r.buffer then moved else moved ++ [.textsDiffer]

end EmbeddedGraphQL.Restoration
