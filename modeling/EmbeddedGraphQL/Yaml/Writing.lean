import EmbeddedGraphQL.Yaml.Plain
import EmbeddedGraphQL.Yaml.Token
import EmbeddedGraphQL.Decimal.Shortest

/-!
Values as YAML blocks in ASCII. A text is written plainly if it reads back as that text, else in
single quotes, or in double quotes if it has characters that must be escaped. Long texts are folded
at blanks.
-/
namespace EmbeddedGraphQL.Yaml

/-- A text longer than this is folded at the next blank. -/
def lineWidth : Nat := 80

def spaces (n : Nat) : List Char := List.replicate n ' '

def newLine (indent : Nat) : List Char := '\n' :: spaces indent

/-- Which ways of writing a text keep it. -/
structure TextStyle where
  plain : Bool
  singleQuoted : Bool
  multiline : Bool
  deriving DecidableEq, Repr

namespace TextStyle

def isSpecial (c : Char) : Bool := !(c == '\n' || (' ' ≤ c && c ≤ '~'))

def initialMarks : List Char := "#,[]\x7b\x7d&*!|>'\"%@`".toList

/-- Whether a character has a meaning of its own between its neighbours. -/
def isIndicator (before : Option Char) (c : Char) (after : Option Char) : Bool :=
  match before with
  | none =>
    initialMarks.contains c || ((c == '?' || c == ':' || c == '-') && isGap after)
  | some _ => (c == ':' && isGap after) || (c == '#' && isGap before)

def hasIndicator (before : Option Char) : List Char → Bool
  | [] => false
  | c :: rest => isIndicator before c rest.head? || hasIndicator (some c) rest

/-- Whether somewhere in a text one character stands directly before another. -/
def hasPair (a b : Char) (text : List Char) : Bool :=
  (text.zip (text.drop 1)).any fun (x, y) => x == a && y == b

/-- The ways of writing a text. A blank beside a line break is lost in single quotes. -/
def of (text : List Char) : TextStyle :=
  let isEdge (c : Option Char) : Bool := c == some ' ' || c == some '\n'
  let start := String.ofList (text.take 3)
  let special := text.any isSpecial || hasPair ' ' '\n' text
  let multiline := text.any isBreak
  { plain := !special && !hasPair '\n' ' ' text && !multiline && !isEdge text.head? &&
      !isEdge text.getLast? && start != "---" && start != "..." && !hasIndicator none text
    singleQuoted := !special && !hasPair '\n' ' ' text
    multiline }

end TextStyle

/-- Text that has been written, with the column that it reaches. -/
structure Written where
  text : List Char
  column : Nat

namespace Written

def add (w : Written) (text : List Char) : Written := ⟨w.text ++ text, w.column + text.length⟩

def wrap (w : Written) (indent : Nat) : Written := ⟨w.text ++ newLine indent, indent⟩

end Written

/-- Words and the runs of blanks between them. -/
private def blankRuns (text : List Char) : List (List Char) :=
  text.splitBy fun a b => (a == ' ') == (b == ' ')

private def writePlain (fold : Bool) (indent : Nat) (w : Written) (text : List Char) : Written :=
  (blankRuns text).foldl (fun w run =>
    if run == [' '] && lineWidth < w.column && fold then w.wrap indent else w.add run) w

/-- The kinds of characters in single quotes. -/
private def quoteClass (c : Char) : Nat :=
  if c = ' ' then 0 else if c = '\n' then 1 else if c = '\'' then 2 else 3

private def writeSingle (fold : Bool) (indent : Nat) (w : Written) (text : List Char) : Written :=
  let runs := text.splitBy fun a b => quoteClass a == quoteClass b
  let count := runs.length
  let body := (runs.zipIdx).foldl (fun (w : Written) (run, n) =>
    match run.head? with
    | some ' ' =>
      if run.length = 1 && lineWidth < w.column && fold && n != 0 && n + 1 != count then
        w.wrap indent
      else w.add run
    | some '\n' => ⟨w.text ++ '\n' :: run ++ spaces indent, indent⟩
    | some '\'' => w.add (run ++ run)
    | _ => w.add run) (w.add ['\''])
  body.add ['\'']

private def shortEscapes : List (Char × Char) :=
  [('\x00', '0'), ('\x07', 'a'), ('\x08', 'b'), ('\t', 't'), ('\n', 'n'), ('\x0b', 'v'),
    ('\x0c', 'f'), ('\r', 'r'), ('\x1b', 'e'), ('"', '"'), ('\\', '\\'), ('\x85', 'N'),
    ('\xa0', '_'), ('\u2028', 'L'), ('\u2029', 'P')]

private def hexDigits (width n : Nat) : List Char :=
  let digits := Nat.toDigits 16 n
  List.replicate (width - digits.length) '0' ++ digits.map Char.toUpper

/-- The escape of a character. -/
def escape (c : Char) : List Char :=
  let n := c.val.toNat
  match shortEscapes.lookup c with
  | some e => ['\\', e]
  | none =>
    if n ≤ 0xFF then '\\' :: 'x' :: hexDigits 2 n
    else if n ≤ 0xFFFF then '\\' :: 'u' :: hexDigits 4 n
    else '\\' :: 'U' :: hexDigits 8 n

def isEscaped (c : Char) : Bool := c == '"' || c == '\\' || !(' ' ≤ c && c ≤ '~')

/-- Writes the characters from an index on, of which `pending` are read but not written. A fold is
marked by a backslash, and so is a blank after it. -/
private def writeDoubleFrom (fold : Bool) (indent length : Nat) (index : Nat) (w : Written)
    (pending : List Char) : List Char → Written
  | [] => w.add pending
  | c :: rest =>
    let escaped := isEscaped c
    let w := if escaped then (w.add pending).add (escape c) else w
    let pending := if escaped then [] else pending
    let width := if escaped then w.column - 1 else w.column + pending.length
    let folds := fold && 0 < index && index + 1 < length &&
      (c == ' ' || pending.isEmpty) && lineWidth < width
    if folds then
      let w := ((w.add pending).add ['\\']).wrap indent
      let following := if escaped then rest.head? else some c
      let w := if following == some ' ' then w.add ['\\'] else w
      writeDoubleFrom fold indent length (index + 1) w (if escaped then [] else [c]) rest
    else
      writeDoubleFrom fold indent length (index + 1) w
        (if escaped then [] else pending ++ [c]) rest

private def writeDouble (fold : Bool) (indent : Nat) (w : Written) (text : List Char) : Written :=
  (writeDoubleFrom fold indent text.length 0 (w.add ['"']) [] text).add ['"']

/-- A text as a value from a column on, with further lines indented. -/
def textValue (indent column : Nat) (text : String) : String :=
  let chars := text.toList
  let style := TextStyle.of chars
  let w : Written := ⟨[], column⟩
  let written :=
    if style.plain && Plain.isText text then writePlain true indent w chars
    else if style.singleQuoted then writeSingle true indent w chars
    else writeDouble true indent w chars
  String.ofList written.text

/-- A text as a key, which takes one line. -/
def keyText (text : String) : String :=
  let chars := text.toList
  let style := TextStyle.of chars
  let w : Written := ⟨[], 0⟩
  let written :=
    if style.plain && Plain.isText text then writePlain false 0 w chars
    else if style.singleQuoted && !style.multiline then writeSingle false 0 w chars
    else writeDouble false 0 w chars
  String.ofList written.text

/-- Floating point numbers always have a point. -/
def floatText (x : Float) : String :=
  let text := { Decimal.plain with infinity := ".inf", undefined := ".nan" }.write x
  if text.contains '.' then text else text.replace "e" ".0e"

/-- The text of a value that fits behind a key or a dash. -/
def leaf? (indent column : Nat) : Json → Option String
  | .null => some "null"
  | .bool b => some (if b then "true" else "false")
  | .int n => some (toString n)
  | .float x => some (floatText x)
  | .str s => some (textValue indent column s)
  | .unpaired points => some (textValue indent column (CodePoint.spelled points))
  | .arr items => if items.isEmpty then some "[]" else none
  | .obj members => if members.isEmpty then some "\x7b\x7d" else none

private def lineStart (indent : Nat) : String := String.ofList (newLine indent)

mutual

/-- What follows a key at an indentation. Sequences are not indented further than the key. -/
def afterKey (indent column : Nat) (value : Json) : String :=
  match leaf? (indent + 2) (column + 1) value with
  | some text => " " ++ text
  | none =>
    match value with
    | .arr items => lineStart indent ++ sequence indent items
    | .obj members => lineStart (indent + 2) ++ mapping (indent + 2) members
    | _ => ""

/-- An item of a sequence with its dash. -/
def entry (indent : Nat) (value : Json) : String :=
  match leaf? (indent + 2) (indent + 2) value with
  | some text => "- " ++ text
  | none =>
    match value with
    | .arr items => "- " ++ sequence (indent + 2) items
    | .obj members => "- " ++ mapping (indent + 2) members
    | _ => "-"

/-- The items of a sequence, one a line. -/
def sequence (indent : Nat) : List Json → String
  | [] => ""
  | [value] => entry indent value
  | value :: rest => entry indent value ++ lineStart indent ++ sequence indent rest

/-- The entries of a mapping, one a line. -/
def mapping (indent : Nat) : List (String × Json) → String
  | [] => ""
  | (key, value) :: rest =>
    let key := keyText key ++ ":"
    let entry := key ++ afterKey indent (indent + key.length) value
    if rest.isEmpty then entry else entry ++ lineStart indent ++ mapping indent rest

end

end EmbeddedGraphQL.Yaml
