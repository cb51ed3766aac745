import EmbeddedGraphQL.Json.Reader

/-!
Tokens of YAML text. Indentation opens and closes blocks. That a scalar is a key shows only at the
colon after it, so the places of possible keys are kept until then, and tokens are given out only
when no possible key stands before them any more.
-/
namespace EmbeddedGraphQL.Yaml

inductive Token where
  | streamEnd
  | documentStart
  | documentEnd
  | sequenceStart
  | mappingStart
  | blockEnd
  | flowSequenceStart
  | flowSequenceEnd
  | flowMappingStart
  | flowMappingEnd
  | blockEntry
  | flowEntry
  | key
  | value
  | scalar (text : String) (isPlain : Bool)
  deriving DecidableEq, Repr

/-- Why a text has no tokens. -/
inductive TokenFault where
  | unexpectedCharacter
  | keyWithoutValue
  | misplacedEntry
  | misplacedKey
  | misplacedValue
  | unfinishedQuote
  | separatorInQuote
  | unknownEscape
  | blockHeader
  | unsupported
  deriving DecidableEq, Repr

def isBreak (c : Char) : Bool :=
  c == '\n' || c == '\r' || c == '\x85' || c == '\u2028' || c == '\u2029'

/-- Blanks, line breaks, and the end of the text. -/
def isGap : Option Char → Bool
  | none => true
  | some c => c == ' ' || c == '\t' || isBreak c

/-- A place in the text, with what is still to be read. -/
structure Reader where
  rest : List Char
  index : Nat
  line : Nat
  column : Nat

namespace Reader

def peek (r : Reader) (n : Nat) : Option Char := r.rest[n]?

/-- Reads one character. -/
def next (r : Reader) : Reader :=
  match r.rest with
  | [] => r
  | c :: rest =>
    if isBreak c && !(c == '\r' && rest.head? == some '\n') then ⟨rest, r.index + 1, r.line + 1, 0⟩
    else ⟨rest, r.index + 1, r.line, if c == '\ufeff' then r.column else r.column + 1⟩

def advance (r : Reader) : Nat → Reader
  | 0 => r
  | n + 1 => r.next.advance n

/-- Reads a line break and gives the characters that it stands for; none if there is no break. -/
def lineBreak (r : Reader) : List Char × Reader :=
  match r.rest with
  | '\r' :: '\n' :: _ => (['\n'], r.advance 2)
  | c :: _ =>
    if !isBreak c then ([], r)
    else (if c == '\u2028' || c == '\u2029' then [c] else ['\n'], r.next)
  | [] => ([], r)

/-- Whether a document marker starts here. -/
def isMarker (r : Reader) (mark : Char) : Bool :=
  r.rest.take 3 == [mark, mark, mark] && isGap (r.peek 3)

def isSeparator (r : Reader) : Bool := r.isMarker '-' || r.isMarker '.'

def skip (r : Reader) (p : Char → Bool) : Reader := r.advance (r.rest.takeWhile p).length

end Reader

/-- A place where a key would go if a colon follows. -/
structure PossibleKey where
  number : Nat
  required : Bool
  index : Nat
  line : Nat
  column : Nat

structure Scanner where
  at_ : Reader
  flowLevel : Int
  indent : Int
  indents : List Int
  allowKey : Bool
  keys : List (Int × PossibleKey)
  queue : List Token
  taken : Nat
  finished : Bool

namespace Scanner

abbrev Outcome := Except TokenFault

def start (text : List Char) : Scanner :=
  ⟨⟨text, 0, 0, 0⟩, 0, -1, [], true, [], [], 0, false⟩

def inFlow (s : Scanner) : Bool := s.flowLevel != 0

def emit (s : Scanner) (t : Token) : Scanner := { s with queue := s.queue ++ [t] }

def move (s : Scanner) (n : Nat) : Scanner := { s with at_ := s.at_.advance n }

/-- Puts a token before the one with a number. -/
def emitAt (s : Scanner) (number : Nat) (t : Token) : Scanner :=
  let n := number - s.taken
  { s with queue := s.queue.take n ++ t :: s.queue.drop n }

/-- Gives up possible keys that a colon can no longer follow. -/
def dropStaleKeys (s : Scanner) : Outcome Scanner :=
  let isStale (k : PossibleKey) : Bool :=
    k.line != s.at_.line || s.at_.index - k.index > 1024
  if s.keys.any fun (_, k) => isStale k && k.required then .error .keyWithoutValue
  else .ok { s with keys := s.keys.filter fun (_, k) => !isStale k }

/-- Gives up the possible key of the current level. -/
def dropKey (s : Scanner) : Outcome Scanner :=
  if s.keys.any fun (level, k) => level == s.flowLevel && k.required then .error .keyWithoutValue
  else .ok { s with keys := s.keys.filter (·.1 != s.flowLevel) }

/-- Remembers that the next token may be a key. -/
def saveKey (s : Scanner) : Outcome Scanner :=
  let required := !s.inFlow && s.indent == s.at_.column
  if s.allowKey then do
    let s ← s.dropKey
    return { s with
      keys := s.keys ++ [(s.flowLevel, ⟨s.taken + s.queue.length, required, s.at_.index,
        s.at_.line, s.at_.column⟩)] }
  else .ok s

private def unwindFrom (s : Scanner) (column : Int) : List Int → Scanner
  | [] => s
  | outer :: rest =>
    if column < s.indent then
      unwindFrom { s.emit .blockEnd with indent := outer, indents := rest } column rest
    else s

/-- Closes the blocks that are indented further than a column. -/
def unwind (s : Scanner) (column : Int) : Scanner :=
  if s.inFlow then s else unwindFrom s column s.indents

/-- Opens a block if a column is indented further, and tells whether it did. -/
def indentTo (s : Scanner) (column : Nat) : Bool × Scanner :=
  if s.indent < column then (true, { s with indent := column, indents := s.indent :: s.indents })
  else (false, s)

private def skipFrom (s : Scanner) : Nat → Scanner
  | 0 => s
  | fuel + 1 =>
    let r := s.at_.skip (· == ' ')
    let r := if r.peek 0 == some '#' then r.skip fun c => !isBreak c else r
    let (broken, r) := r.lineBreak
    if broken.isEmpty then { s with at_ := r }
    else skipFrom { s with at_ := r, allowKey := s.allowKey || !s.inFlow } fuel

/-- Skips blanks, comments and line breaks; a new line outside of brackets may start with a key. -/
def skipToToken (s : Scanner) : Scanner :=
  let r := if s.at_.index = 0 && s.at_.peek 0 == some '\ufeff' then s.at_.next else s.at_
  skipFrom { s with at_ := r } (r.rest.length + 1)

def finish (s : Scanner) : Outcome Scanner := do
  let s ← (s.unwind (-1)).dropKey
  return { s.emit .streamEnd with allowKey := false, keys := [], finished := true }

def documentMarker (s : Scanner) (t : Token) : Outcome Scanner := do
  let s ← (s.unwind (-1)).dropKey
  return { (s.emit t).move 3 with allowKey := false }

def openFlow (s : Scanner) (t : Token) : Outcome Scanner := do
  let s ← s.saveKey
  return { (s.emit t).move 1 with flowLevel := s.flowLevel + 1, allowKey := true }

def closeFlow (s : Scanner) (t : Token) : Outcome Scanner := do
  let s ← s.dropKey
  return { (s.emit t).move 1 with flowLevel := s.flowLevel - 1, allowKey := false }

def flowEntry (s : Scanner) : Outcome Scanner := do
  let s ← s.dropKey
  return { (s.emit .flowEntry).move 1 with allowKey := true }

/-- Opens a block for an entry, a key or a value that needs one. -/
def openBlock (s : Scanner) (t : Token) (fault : TokenFault) : Outcome Scanner :=
  if s.inFlow then .ok s
  else if !s.allowKey then .error fault
  else
    let (opened, s) := s.indentTo s.at_.column
    .ok (if opened then s.emit t else s)

def blockEntry (s : Scanner) : Outcome Scanner := do
  let s ← s.openBlock .sequenceStart .misplacedEntry
  let s ← { s with allowKey := true }.dropKey
  return (s.emit .blockEntry).move 1

def explicitKey (s : Scanner) : Outcome Scanner := do
  let s ← s.openBlock .mappingStart .misplacedKey
  let s ← { s with allowKey := !s.inFlow }.dropKey
  return (s.emit .key).move 1

def value (s : Scanner) : Outcome Scanner :=
  match s.keys.lookup s.flowLevel with
  | some k =>
    let s := { s with keys := s.keys.filter (·.1 != s.flowLevel) }.emitAt k.number .key
    let (opened, s) := if s.inFlow then (false, s) else s.indentTo k.column
    let s := if opened then s.emitAt k.number .mappingStart else s
    .ok ({ s with allowKey := false }.emit .value |>.move 1)
  | none => do
    let s ← s.openBlock .mappingStart .misplacedValue
    let s ← { s with allowKey := !s.inFlow }.dropKey
    return (s.emit .value).move 1

/-! Plain scalars -/

private def foldBreaks (r : Reader) (breaks : List Char) : Nat → Option (List Char × Reader)
  | 0 => some (breaks, r)
  | fuel + 1 =>
    if r.peek 0 == some ' ' then foldBreaks r.next breaks fuel
    else
      let (broken, after) := r.lineBreak
      if broken.isEmpty then some (breaks, r)
      else if after.isSeparator then none
      else foldBreaks after (breaks ++ broken) fuel

/-- The blanks inside of a plain scalar, where single line breaks become blanks. Gives the blanks,
none if the scalar ends here, and whether a line ended. -/
private def plainSpaces (r : Reader) : List Char × Bool × Reader :=
  let spaces := r.rest.takeWhile (· == ' ')
  let r := r.advance spaces.length
  let (broken, after) := r.lineBreak
  if broken.isEmpty then (spaces, false, r)
  else if after.isSeparator then ([], true, after)
  else match foldBreaks after [] (after.rest.length + 1) with
    | none => ([], true, after)
    | some (breaks, r) =>
      let first := if broken != ['\n'] then broken else if breaks.isEmpty then [' '] else []
      (first ++ breaks, true, r)

private def isFlowMark (c : Char) : Bool :=
  c == ',' || c == '[' || c == ']' || c == '\x7b' || c == '\x7d'

/-- The characters of a plain scalar up to a blank, a colon before a blank, or a mark. -/
private def plainWord (inFlow : Bool) : List Char → List Char
  | [] => []
  | c :: rest =>
    let colonEnds := c == ':' && (isGap rest.head? || (inFlow && rest.head?.any isFlowMark))
    if isGap (some c) || colonEnds || (inFlow && (isFlowMark c || c == '?')) then []
    else c :: plainWord inFlow rest

private def plainFrom (s : Scanner) (indent : Int) (read spaces : List Char) :
    Nat → List Char × Scanner
  | 0 => (read, s)
  | fuel + 1 =>
    let word := if s.at_.peek 0 == some '#' then [] else plainWord s.inFlow s.at_.rest
    if word.isEmpty then (read, s)
    else
      let read := read ++ spaces ++ word
      let (spaces, broken, r) := plainSpaces (s.at_.advance word.length)
      let s := { s with at_ := r, allowKey := broken }
      if spaces.isEmpty || r.peek 0 == some '#' || (!s.inFlow && (r.column : Int) < indent) then
        (read, s)
      else plainFrom s indent read spaces fuel

def plain (s : Scanner) : Outcome Scanner := do
  let s ← s.saveKey
  let (read, s) := plainFrom { s with allowKey := false } (s.indent + 1) [] []
    (s.at_.rest.length + 1)
  return s.emit (.scalar (String.ofList read) true)

/-! Quoted scalars -/

private def simpleEscape? (c : Char) : Option Char :=
  [('0', '\x00'), ('a', '\x07'), ('b', '\x08'), ('t', '\t'), ('\t', '\t'), ('n', '\n'),
    ('v', '\x0b'), ('f', '\x0c'), ('r', '\r'), ('e', '\x1b'), (' ', ' '), ('"', '"'),
    ('\\', '\\'), ('/', '/'), ('N', '\x85'), ('_', '\xa0'), ('L', '\u2028'),
    ('P', '\u2029')].lookup c

private def escapeLength? (c : Char) : Option Nat := [('x', 2), ('u', 4), ('U', 8)].lookup c

/-- Blank lines inside of a quoted scalar. -/
private def quotedBreaks (r : Reader) (breaks : List Char) :
    Nat → Outcome (List Char × Reader)
  | 0 => .ok (breaks, r)
  | fuel + 1 =>
    if r.isSeparator then .error .separatorInQuote
    else
      let r := r.skip fun c => c == ' ' || c == '\t'
      let (broken, after) := r.lineBreak
      if broken.isEmpty then .ok (breaks, r) else quotedBreaks after (breaks ++ broken) fuel

private def quotedSpaces (r : Reader) : Outcome (List Char × Reader) := do
  let spaces := r.rest.takeWhile fun c => c == ' ' || c == '\t'
  let r := r.advance spaces.length
  if r.rest.isEmpty then throw .unfinishedQuote
  let (broken, after) := r.lineBreak
  if broken.isEmpty then return (spaces, r)
  let (breaks, r) ← quotedBreaks after [] (after.rest.length + 1)
  let first := if broken != ['\n'] then broken else if breaks.isEmpty then [' '] else []
  return (first ++ breaks, r)

/-- What an escape stands for, after its backslash. -/
private def quotedEscape (r : Reader) : Outcome (List Char × Reader) :=
  match r.rest with
  | [] => .error .unknownEscape
  | c :: _ =>
    match simpleEscape? c, escapeLength? c with
    | some read, _ => .ok ([read], r.next)
    | none, some length =>
      let digits := (r.rest.drop 1).take length
      let code := (digits.filterMap Json.hexValue?).foldl (fun n d => 16 * n + d) 0
      if digits.length < length || digits.any (fun d => (Json.hexValue? d).isNone) then
        .error .unknownEscape
      else .ok ([Char.ofNat code], r.advance (length + 1))
    | none, none =>
      if isBreak c then
        let (_, after) := r.lineBreak
        quotedBreaks after [] (after.rest.length + 1)
      else .error .unknownEscape

/-- The rest of a quoted scalar after its opening mark. -/
private def quotedFrom (mark : Char) (r : Reader) (read : List Char) :
    Nat → Outcome (List Char × Reader)
  | 0 => .error .unfinishedQuote
  | fuel + 1 =>
    match r.rest with
    | [] => .error .unfinishedQuote
    | c :: after =>
      if c = mark then
        if mark = '\'' ∧ after.head? = some '\'' then
          quotedFrom mark (r.advance 2) (read ++ ['\'']) fuel
        else .ok (read, r.next)
      else if c = '\\' ∧ mark = '"' then do
        let (found, r) ← quotedEscape r.next
        quotedFrom mark r (read ++ found) fuel
      else if isGap (some c) then do
        let (found, r) ← quotedSpaces r
        quotedFrom mark r (read ++ found) fuel
      else quotedFrom mark r.next (read ++ [c]) fuel

def quoted (s : Scanner) (mark : Char) : Outcome Scanner := do
  let s ← s.saveKey
  let r := s.at_.next
  let (read, r) ← quotedFrom mark r [] (r.rest.length + 1)
  return { s with at_ := r, allowKey := false }.emit (.scalar (String.ofList read) false)

/-! Block scalars -/

/-- What becomes of the line breaks at the end of a block scalar. -/
inductive Chomping where
  | clip
  | strip
  | keep
  deriving DecidableEq, Repr

/-- The indicators in the first line of a block scalar. -/
private def blockIndicators (chomping : Chomping) (width : Option Nat) (r : Reader) :
    Nat → Outcome (Chomping × Option Nat × Reader)
  | 0 => .ok (chomping, width, r)
  | fuel + 1 =>
    match r.peek 0 with
    | some '+' => blockIndicators .keep width r.next fuel
    | some '-' => blockIndicators .strip width r.next fuel
    | some c =>
      if c = '0' then .error .blockHeader
      else if c.isDigit then blockIndicators chomping (some (c.toNat - 48)) r.next fuel
      else .ok (chomping, width, r)
    | none => .ok (chomping, width, r)

private def blockHeader (r : Reader) : Outcome (Chomping × Option Nat × Reader) := do
  let (chomping, width, r) ← blockIndicators .clip none r 2
  let r := r.skip (· == ' ')
  let r := if r.peek 0 == some '#' then r.skip fun c => !isBreak c else r
  if r.rest.isEmpty then return (chomping, width, r)
  let (broken, after) := r.lineBreak
  if broken.isEmpty then throw .blockHeader
  return (chomping, width, after)

/-- Blank lines that are indented up to a column. -/
private def blockBreaks (indent : Nat) (r : Reader) (breaks : List Char) :
    Nat → List Char × Reader
  | 0 => (breaks, r)
  | fuel + 1 =>
    let r := r.advance (min (r.rest.takeWhile (· == ' ')).length (indent - r.column))
    let (broken, after) := r.lineBreak
    if broken.isEmpty then (breaks, r) else blockBreaks indent after (breaks ++ broken) fuel

/-- Blank lines before the first text, and the furthest column that they reach. -/
private def blockLead (furthest : Nat) (r : Reader) (breaks : List Char) :
    Nat → List Char × Nat × Reader
  | 0 => (breaks, furthest, r)
  | fuel + 1 =>
    let r := r.skip (· == ' ')
    let furthest := max furthest r.column
    let (broken, after) := r.lineBreak
    if broken.isEmpty then (breaks, furthest, r)
    else blockLead furthest after (breaks ++ broken) fuel

private def blockLines (folded : Bool) (indent : Nat) (r : Reader)
    (read broken breaks : List Char) : Nat → List Char × List Char × List Char × Reader
  | 0 => (read, broken, breaks, r)
  | fuel + 1 =>
    if r.column != indent || r.rest.isEmpty then (read, broken, breaks, r)
    else
      let isText (r : Reader) : Bool := !(r.peek 0 == some ' ' || r.peek 0 == some '\t')
      let read := read ++ breaks
      let leading := isText r
      let line := r.rest.takeWhile fun c => !isBreak c
      let read := read ++ line
      let (broken, r) := (r.advance line.length).lineBreak
      let (breaks, r) := blockBreaks indent r [] (r.rest.length + 1)
      if r.column == indent && !r.rest.isEmpty then
        let between :=
          if folded && broken == ['\n'] && leading && isText r then
            if breaks.isEmpty then [' '] else []
          else broken
        blockLines folded indent r (read ++ between) broken breaks fuel
      else (read, broken, breaks, r)

def blockScalar (s : Scanner) (folded : Bool) : Outcome Scanner := do
  let s ← { s with allowKey := true }.dropKey
  let (chomping, width, r) ← blockHeader s.at_.next
  let least := (max 1 (s.indent + 1)).toNat
  let fuel := r.rest.length + 1
  let (breaks, indent, r) := match width with
    | some width =>
      let indent := least + width - 1
      let (breaks, r) := blockBreaks indent r [] fuel
      (breaks, indent, r)
    | none =>
      let (breaks, furthest, r) := blockLead 0 r [] fuel
      (breaks, max least furthest, r)
  let (read, broken, breaks, r) := blockLines folded indent r [] [] breaks fuel
  let read := if chomping = .strip then read else read ++ broken
  let read := if chomping = .keep then read ++ breaks else read
  return { s with at_ := r }.emit (.scalar (String.ofList read) false)

/-! One step -/

def plainStops : List Char := "-?:,[]\x7b\x7d#&*!|>'\"%@`".toList

/-- Whether a plain scalar can start with a character before another. -/
def startsPlain (s : Scanner) (c : Char) (after : Option Char) : Bool :=
  (!isGap (some c) && !plainStops.contains c) ||
    (!isGap after && (c == '-' || (!s.inFlow && (c == '?' || c == ':'))))

/-- Reads the next token. -/
def fetch (s : Scanner) : Outcome Scanner := do
  let s ← s.skipToToken.dropStaleKeys
  let s := s.unwind s.at_.column
  let after := s.at_.peek 1
  match s.at_.peek 0 with
  | none => s.finish
  | some c =>
    if s.at_.column = 0 && c == '%' then throw .unsupported
    else if s.at_.column = 0 && s.at_.isMarker '-' then s.documentMarker .documentStart
    else if s.at_.column = 0 && s.at_.isMarker '.' then s.documentMarker .documentEnd
    else if c == '[' then s.openFlow .flowSequenceStart
    else if c == '\x7b' then s.openFlow .flowMappingStart
    else if c == ']' then s.closeFlow .flowSequenceEnd
    else if c == '\x7d' then s.closeFlow .flowMappingEnd
    else if c == ',' then s.flowEntry
    else if c == '-' && isGap after then s.blockEntry
    else if c == '?' && (s.inFlow || isGap after) then s.explicitKey
    else if c == ':' && (s.inFlow || isGap after) then s.value
    else if c == '*' || c == '&' || c == '!' then throw .unsupported
    else if c == '|' && !s.inFlow then s.blockScalar false
    else if c == '>' && !s.inFlow then s.blockScalar true
    else if c == '\'' || c == '"' then s.quoted c
    else if s.startsPlain c after then s.plain
    else throw .unexpectedCharacter

private def fillFrom (s : Scanner) : Nat → Outcome Scanner
  | 0 => .ok s
  | fuel + 1 =>
    if s.finished then .ok s
    else if s.queue.isEmpty then do fillFrom (← s.fetch) fuel
    else do
      let s ← s.dropStaleKeys
      if s.keys.any fun (_, k) => k.number == s.taken then fillFrom (← s.fetch) fuel
      else return s

/-- Reads on until the next token is certain. Every token but the last takes at least one character,
so what is left of the text bounds the number of rounds. -/
def fill (s : Scanner) : Outcome Scanner := fillFrom s (s.at_.rest.length + 2)

/-- The next token; after the last one it comes again and again. -/
def peek (s : Scanner) : Outcome (Token × Scanner) := do
  let s ← s.fill
  return (s.queue.head?.getD .streamEnd, s)

/-- Takes the token that has been looked at. -/
def take (s : Scanner) : Scanner :=
  { s with queue := s.queue.drop 1, taken := s.taken + 1 }

end Scanner
end EmbeddedGraphQL.Yaml
