import EmbeddedGraphQL.Embedding.Insertion
import EmbeddedGraphQL.Text.Blank
import EmbeddedGraphQL.Text.WordChar

/-!
Names for shorthand fragments. A definition may be written `fragment on T` where the name is left
out; GraphQL wants one, so a name is inserted before the `on`. A `#` earlier on the line of the
keyword makes it part of a comment, which is left alone.
-/
namespace EmbeddedGraphQL

/-- The name that stands in for a missing fragment name. -/
def fragmentName : List Char := "____".toList

/-- The inserted text: the name and a blank. -/
def fragmentNameText : List Char := fragmentName ++ [' ']

namespace FragmentName

def keyword : List Char := "fragment".toList

/-- The rest of a text that starts with `word`. -/
def after? (word text : List Char) : Option (List Char) :=
  if word.isPrefixOf text then some (text.drop word.length) else none

def startsWithWordChar : List Char → Bool
  | [] => false
  | c :: _ => Text.isWordChar c

/-- The number of characters from the start of the keyword to the `on`, for a text that starts with
the keyword, at least one blank and the whole word `on`. -/
def shorthandLength? (text : List Char) : Option Nat :=
  (after? keyword text).bind fun rest =>
    let blanks := rest.takeWhile Text.isBlank
    if blanks.isEmpty then none
    else (after? "on".toList (rest.drop blanks.length)).bind fun rest =>
      if startsWithWordChar rest then none else some (keyword.length + blanks.length)

/-- Offsets of the `on` of each shorthand definition. `inWord` tells whether the character before
is a word character, `commented` whether a `#` precedes on the line. -/
def sitesFrom (offset : Nat) (inWord commented : Bool) : List Char → List Nat
  | [] => []
  | c :: rest =>
    let others := sitesFrom (offset + 1) (Text.isWordChar c)
      (if c = '\n' then false else commented || c == '#') rest
    if inWord || commented then others
    else match shorthandLength? (c :: rest) with
      | some n => (offset + n) :: others
      | none => others

def sites (text : List Char) : List Nat := sitesFrom 0 false false text

/-- The text from `offset` on, with the name inserted at each site. -/
def insertAt (offset : Nat) (sites : List Nat) : List Char → List Char
  | [] => []
  | c :: rest =>
    if offset ∈ sites then fragmentNameText ++ c :: insertAt (offset + 1) sites rest
    else c :: insertAt (offset + 1) sites rest

/-- Where the inserted names stand in the changed text, each moved right by those before it. -/
def insertions (sites : List Nat) : List Insertion :=
  sites.zipIdx.map fun (site, i) =>
    ⟨site + fragmentNameText.length * i, fragmentNameText.length⟩

/-- Records insertions in turn; one that the ledger refuses is left out. -/
def recordAll (ledger : Ledger) (insertions : List Insertion) : Ledger :=
  insertions.foldl (fun ledger i => (ledger.record i.position i.length).toOption.getD ledger) ledger

end FragmentName
end EmbeddedGraphQL
