import EmbeddedGraphQL.Proofs.Coverage
import EmbeddedGraphQL.Proofs.CutTexts
import EmbeddedGraphQL.Proofs.TextRuns
import Mathlib

/-!
Text that means nothing to the grammar. Blanks, commas and comments change neither the tokens of the
other lexemes nor the state behind them, unless they stand between a name and a mark that tells what
the name is: the mark is found behind at most 255 blanks and line breaks, and overlooked behind
anything else.
-/
namespace EmbeddedGraphQL

namespace Lexeme

/-- What stands in front of the first lexeme of a text that means something to the grammar. -/
def gap (text : List Char) : List Char :=
  ((split text).takeWhile (·.1.isIgnored)).flatMap (·.1.text)

/-- The first character of the first lexeme of a text that means something to the grammar. -/
def nextMark? (text : List Char) : Option Char := (telling text).head?.bind (·.1.text.head?)

/-- The blanks that are passed over on the way from a name to a mark. -/
def isPassed (c : Char) : Bool := c == ' ' || c == '\t' || c == '\r' || c == '\n'

/-- Whether a gap is too long or holds too much for the mark behind it to be found. -/
def hides (gap : List Char) : Bool := decide (256 ≤ gap.length) || !gap.all isPassed

variable {text : List Char} {c : Char}

/-- The lexeme behind the gap of a text is the first one that means something. -/
theorem gap_spec (text : List Char) :
    text = gap text ∧ telling text = [] ∨
      ∃ l after, text = gap text ++ (l.text ++ after) ∧ l.text ≠ [] ∧ l.isIgnored = false ∧
        telling text = (l, after) :: telling after := by
  apply split_induction (motive := fun text lexemes =>
    text = (lexemes.takeWhile (·.1.isIgnored)).flatMap (·.1.text) ∧
      lexemes.filter (!·.1.isIgnored) = [] ∨
    ∃ l after, text = (lexemes.takeWhile (·.1.isIgnored)).flatMap (·.1.text) ++ (l.text ++ after) ∧
      l.text ≠ [] ∧ l.isIgnored = false ∧
      lexemes.filter (!·.1.isIgnored) = (l, after) :: telling after)
  · exact Or.inl ⟨rfl, rfl⟩
  · intro l after hne _ ih
    cases hl : l.isIgnored with
    | false =>
      refine Or.inr ⟨l, after, by simp [hl], hne, hl, ?_⟩
      rw [List.filter_cons_of_pos (by simp [hl])]
      rfl
    | true =>
      rw [List.takeWhile_cons_of_pos (by simpa using hl), List.flatMap_cons,
        List.filter_cons_of_neg (by simp [hl])]
      rcases ih with ⟨htext, hnone⟩ | ⟨m, behind, htext, hm⟩
      · exact Or.inl ⟨by rw [← htext], hnone⟩
      · exact Or.inr ⟨m, behind, by rw [List.append_assoc, ← htext], hm⟩

/-- The telling lexemes behind the first one are those of the text that follows it. -/
theorem telling_tail {l : Lexeme} {after : List Char} {more : List (Lexeme × List Char)}
    (h : telling text = (l, after) :: more) : more = telling after ∧ l.isIgnored = false := by
  rcases gap_spec text with ⟨-, hnone⟩ | ⟨m, behind, -, -, hm, hcons⟩
  · rw [hnone] at h
    cases h
  · rw [hcons] at h
    cases h
    exact ⟨rfl, hm⟩

theorem nextMark?_eq (text : List Char) :
    nextMark? text = ((telling text).map (·.1)).head?.bind (·.text.head?) := by
  rw [nextMark?, List.head?_map]
  cases (telling text).head? <;> rfl

/-- A blank in front of a text is in front of its gap. -/
theorem gap_cons (hc : isPassed c = true) (text : List Char) : gap (c :: text) = c :: gap text := by
  have hspace (hc : isSpace c = true) : gap (c :: text) = c :: gap text := by
    have hrun {d : Char} (hd : isSpace d = true) (text : List Char) :
        gap (d :: text) = d :: (text.takeWhile isSpace ++ gap (text.dropWhile isSpace)) := by
      unfold gap
      rw [split_space hd, List.takeWhile_cons_of_pos rfl, List.flatMap_cons]
      rfl
    rw [hrun hc]
    cases text with
    | nil => rfl
    | cons d text =>
      by_cases hd : isSpace d = true
      · rw [List.takeWhile_cons_of_pos hd, List.dropWhile_cons_of_pos hd, hrun hd]
        rfl
      · rw [List.takeWhile_cons_of_neg hd, List.dropWhile_cons_of_neg hd]
        rfl
  simp only [isPassed, Bool.or_eq_true, beq_iff_eq] at hc
  rcases hc with ((rfl | rfl) | rfl) | rfl
  · exact hspace rfl
  · exact hspace rfl
  · exact hspace rfl
  · have hmunch : munch '\n' text = (.lineBreak, []) := rfl
    unfold gap
    rw [split_alone hmunch, List.takeWhile_cons_of_pos rfl]
    rfl

/-- Blanks in front of a mark are its gap. -/
theorem gap_blanks {blanks : List Char} (hblanks : ∀ b ∈ blanks, isPassed b = true)
    (hc : c = ':' ∨ c = '(') (more : List Char) :
    gap (blanks ++ c :: more) = blanks ∧ nextMark? (blanks ++ c :: more) = some c := by
  induction blanks with
  | nil =>
    have hsplit : split (c :: more) = (⟨.punctuator, [c]⟩, more) :: split more := by
      rcases hc with rfl | rfl <;> exact split_alone rfl
    rw [List.nil_append, gap, nextMark?, telling, hsplit]
    exact ⟨rfl, rfl⟩
  | cons b blanks ih =>
    obtain ⟨hb, hrest⟩ := List.forall_mem_cons.mp hblanks
    obtain ⟨hgap, hmark⟩ := ih hrest
    have hblank : isSpace b = true ∨ b = ',' ∨ b = '\n' := by
      simp only [isPassed, isSpace, Bool.or_eq_true, beq_iff_eq] at hb ⊢
      tauto
    refine ⟨by rw [List.cons_append, gap_cons hb, hgap], ?_⟩
    rw [← hmark, nextMark?, nextMark?, List.cons_append, telling_blank hblank]

theorem hides_eq_false_iff (gap : List Char) :
    hides gap = false ↔ gap.length < 256 ∧ ∀ c ∈ gap, isPassed c = true := by
  simp [hides]

/-- A mark is found just behind a gap that does not hide it. -/
theorem ahead_eq_some_iff (hc : c = ':' ∨ c = '(') (text : List Char) :
    ahead text = some c ↔ nextMark? text = some c ∧ hides (gap text) = false := by
  have hmark : isPassed c = false := by rcases hc with rfl | rfl <;> rfl
  rw [hides_eq_false_iff]
  constructor
  · intro hahead
    obtain ⟨-, blanks, more, hsplit, hblanks⟩ := List.find?_eq_some_iff_append.mp hahead
    replace hblanks : ∀ b ∈ blanks, isPassed b = true := by simpa [isPassed] using hblanks
    have htext : text = blanks ++ c :: (more ++ text.drop 256) := by
      conv_lhs => rw [← List.take_append_drop 256 text, hsplit]
      simp
    have hlength := congrArg List.length hsplit
    rw [List.length_take, List.length_append, List.length_cons] at hlength
    obtain ⟨hgap, hnext⟩ := gap_blanks hblanks hc (more ++ text.drop 256)
    rw [← htext] at hgap hnext
    rw [hgap]
    exact ⟨hnext, by omega, hblanks⟩
  · rintro ⟨hnext, hlength, hpassed⟩
    rcases gap_spec text with ⟨-, hnone⟩ | ⟨l, after, htext, hne, -, hfirst⟩
    · rw [nextMark?, hnone] at hnext
      cases hnext
    obtain ⟨d, rest, hl⟩ := List.exists_cons_of_ne_nil hne
    rw [nextMark?, hfirst] at hnext
    obtain rfl : d = c := by simpa [hl] using hnext
    unfold ahead
    refine List.find?_eq_some_iff_append.mpr
      ⟨by simpa [isPassed] using hmark, gap text, (rest ++ after).take (255 - (gap text).length),
        ?_, by simpa [isPassed] using hpassed⟩
    conv_lhs => rw [htext, hl, List.take_append, List.take_of_length_le hlength.le]
    rw [show 256 - (gap text).length = 255 - (gap text).length + 1 by omega]
    rfl

end Lexeme

namespace GrammarState
open Lexeme (gap nextMark? hides telling ahead)

/-- Whether the mark behind a name tells what the name is. -/
def awaits (s : GrammarState) (mark : Char) : Bool :=
  s.expect.isNone && match s.frameKind with
    | some .fieldsDefinition => mark == ':' || mark == '('
    | some .selectionSet | some .arguments | some .objectValue | some .argumentsDefinition =>
      mark == ':'
    | _ => false

/-- Whether the mark that tells what a name is cannot be found in the text behind the name. -/
def overlooks (s : GrammarState) (after : List Char) : Bool :=
  (nextMark? after).any fun mark => s.awaits mark && hides (gap after)

/-- For each name, whether the mark that tells what it is cannot be found. -/
def overlooked (s : GrammarState) : List (Lexeme × List Char) → List Bool
  | [] => []
  | (l, after) :: rest =>
    let behind := overlooked (s.read l (ahead after)).1 rest
    if l.kind = .name then s.overlooks after :: behind else behind

variable {s : GrammarState}

theorem mark_of_awaits {mark : Char} (h : s.awaits mark = true) : mark = ':' ∨ mark = '(' := by
  unfold awaits at h
  rw [Bool.and_eq_true] at h
  split at h
  · simpa using h.2
  all_goals simp_all

/-- The marks that tell what a name is are all that is looked at behind it. -/
theorem readName_congr {found other : Option Char}
    (h : ∀ mark, s.awaits mark = true → (found = some mark ↔ other = some mark)) (name : String) :
    s.readName name found = s.readName name other := by
  unfold readName
  cases hexpect : s.expect with
  | some expectation => cases expectation <;> rfl
  | none =>
    dsimp only
    split
    · rfl
    next kind hkind =>
      have hkind' : s.frameKind = some kind := hkind
      have hawaits (mark : Char) := h mark
      simp only [awaits, hexpect, hkind', Option.isNone_none, Bool.true_and] at hawaits
      cases kind with
      | listValue | variableDefinitions => rfl
      | selectionSet | arguments | objectValue | argumentsDefinition =>
        have hcolon := hawaits ':' rfl
        simp only [bracketedName, hcolon]
      | fieldsDefinition =>
        have hcolon := hawaits ':' rfl
        have hparen := hawaits '(' rfl
        simp only [bracketedName, hcolon, hparen]

/-- A name is read the same in front of two texts that go on with the same mark, if it is found in
both or overlooked in both. -/
theorem readName_of_overlooks {after after' : List Char}
    (hmark : nextMark? after = nextMark? after')
    (h : s.overlooks after = s.overlooks after') (name : String) :
    s.readName name (ahead after) = s.readName name (ahead after') := by
  apply readName_congr
  intro mark hawaits
  have hc := mark_of_awaits hawaits
  rw [Lexeme.ahead_eq_some_iff hc, Lexeme.ahead_eq_some_iff hc, ← hmark]
  refine and_congr_right fun hnext => ?_
  unfold overlooks at h
  rw [← hmark, hnext, Option.any_some, Option.any_some, hawaits, Bool.true_and, Bool.true_and] at h
  rw [h]

end GrammarState

namespace Highlight
open Lexeme (gap nextMark? telling ahead split)
open GrammarState (overlooked)

/-- What a token shows, whatever its place. -/
structure Shown where
  text : List Char
  style : Style
  scope : Option Int
  kind : Option String
  deriving DecidableEq, Repr

def shown (token : Token) : Shown := ⟨token.text, token.style, token.scope, token.kind⟩

/-- Whether a token is part of a lexeme that means something to the grammar. -/
def isTelling (token : Token) : Bool :=
  !(token.style == .blank || token.style == .comment ||
    (token.style == .punctuation && token.text == [',']))

/-- The tokens of the lexemes that mean something to the grammar, without their places. -/
def tellingTokens (buffer : List Char) : List Shown :=
  ((tokenize buffer).filter isTelling).map shown

/-- The tokens of a sequence of lexemes without their places. -/
def shownFrom (s : GrammarState) : List (Lexeme × List Char) → List Shown
  | [] => []
  | (l, after) :: rest =>
    let (next, style) := s.read l (ahead after)
    (lexemeTokens next style 0 l).map shown ++ shownFrom next rest

/-- What the tokens of a lexeme show does not depend on where it starts. -/
theorem shown_lexemeTokens (s : GrammarState) (style : Style) (start : Nat) (l : Lexeme) :
    (lexemeTokens s style start l).map shown = (lexemeTokens s style 0 l).map shown := by
  unfold lexemeTokens
  dsimp only
  split_ifs with hbreak hquoted
  · rfl
  · have hlong (stop : Int) : (start : Int) + 1 < start + stop ↔ (0 : Int) + 1 < 0 + stop := by
      omega
    have hshort (stop : Int) :
        (start : Int) + 1 < start + stop - 1 ↔ (0 : Int) + 1 < 0 + stop - 1 := by
      omega
    unfold splitQuoted
    cases hclosed : isClosed l.text with
    | true =>
      simp only [Nat.cast_add, Nat.cast_zero, if_true, hshort]
      split_ifs <;> rfl
    | false =>
      simp only [Nat.cast_add, Nat.cast_zero, Bool.false_eq_true, if_false, hlong]
      split_ifs <;> rfl
  · rfl

theorem isTelling_of_style {token : Token}
    (h : token.style ∉ [.blank, .comment, .punctuation]) : isTelling token = true := by
  simp only [List.mem_cons, List.not_mem_nil, or_false, not_or] at h
  simp [isTelling, h]

/-- The tokens of a lexeme are telling if the lexeme is. -/
theorem isTelling_eq (s : GrammarState) (start : Nat) {l : Lexeme} {after : List Char}
    (hne : l.text ≠ []) (hshape : Lexeme.Shape l.kind l.text after) :
    ∀ token ∈ lexemeTokens (s.read l (ahead after)).1 (s.read l (ahead after)).2 start l,
      isTelling token = !l.isIgnored := by
  intro token htoken
  rcases (fromLexeme_of_mem hne htoken).shown with ⟨hkind, -, hquote⟩ | ⟨hstyle, htext⟩
  · have hquotes : ∀ style ∈ ([.openQuote, .closeQuote] : List Style),
        style ∉ [.blank, .comment, .punctuation] := by decide
    rw [isTelling_of_style (hquotes _ hquote)]
    simp [Lexeme.isIgnored, hkind]
  by_cases hname : l.kind = .name
  · have hnames : ∀ style ∈ GrammarState.nameStyles,
        style ∉ [.blank, .comment, .punctuation] := by decide
    have hmem := GrammarState.read_style_of_name s hname (ahead after)
    rw [isTelling_of_style (hnames _ (hstyle ▸ hmem))]
    simp [Lexeme.isIgnored, hname]
  rw [GrammarState.read_style s hname] at hstyle
  rw [isTelling, hstyle, Lexeme.isIgnored]
  have hshown (hquoted : l.kind ≠ .quotedString) : token.text = l.text :=
    htext.resolve_left hquoted
  cases hkind : l.kind <;> try rfl
  all_goals
    rw [hshown (by rw [hkind]; decide)]
    rw [hkind] at hshape
    cases hl : l.text <;> rw [hl] at hshape <;> cases hshape
  · rfl
  · rfl
  next c hc =>
    have hcomma : (c == ',') = false := by
      rw [beq_eq_false_iff_ne]
      rintro rfl
      exact absurd hc (by decide)
    simp only [GrammarState.kindStyle, List.cons_beq_cons, hcomma]
    rfl

/-- The telling tokens of a text are those of its telling lexemes. -/
theorem shown_tokensFrom (s : GrammarState) (start : Nat) (text : List Char) :
    ((tokensFrom s start (split text)).filter isTelling).map shown =
      shownFrom s (telling text) := by
  unfold telling
  induction text using Lexeme.split_induction generalizing s start with
  | nil => rfl
  | cons l after hne hshape ih =>
    have htelling := isTelling_eq s start hne hshape
    rw [tokensFrom, List.filter_append, List.map_append, ih]
    cases hl : l.isIgnored with
    | true =>
      rw [List.filter_cons_of_neg (by simp [hl]),
        List.filter_eq_nil_iff.mpr fun token htoken => by simp [htelling token htoken, hl],
        s.read_ignored hl]
      rfl
    | false =>
      rw [List.filter_cons_of_pos (by simp [hl]), shownFrom,
        List.filter_eq_self.mpr fun token htoken => by simp [htelling token htoken, hl],
        shown_lexemeTokens]

/-- A lexeme is read the same in front of two texts that go on with the same telling lexeme, if the
mark behind a name is found in both or overlooked in both. -/
theorem read_of_same {s : GrammarState} {l : Lexeme} {after after' : List Char}
    (hsame : (telling after).map (·.1) = (telling after').map (·.1))
    (hmarks : l.kind = .name → s.overlooks after = s.overlooks after') :
    s.read l (ahead after) = s.read l (ahead after') := by
  by_cases hname : l.kind = .name
  · have hnext : nextMark? after = nextMark? after' := by
      rw [Lexeme.nextMark?_eq, hsame, ← Lexeme.nextMark?_eq]
    simp only [GrammarState.read, hname]
    exact GrammarState.readName_of_overlooks hnext (hmarks hname) _
  · exact s.read_of_ne_name hname _ _

/-- Texts with the same telling lexemes show the same tokens and lead to the same state, if the same
marks are overlooked in them. -/
theorem shownFrom_eq {s : GrammarState} {text text' : List Char}
    (hsame : (telling text).map (·.1) = (telling text').map (·.1))
    (hmarks : overlooked s (telling text) = overlooked s (telling text')) :
    shownFrom s (telling text) = shownFrom s (telling text') ∧
      s.readAll (telling text) = s.readAll (telling text') := by
  generalize hlexemes : telling text = lexemes at hsame hmarks ⊢
  generalize hlexemes' : telling text' = lexemes' at hsame hmarks ⊢
  induction lexemes generalizing s text text' lexemes' with
  | nil =>
    obtain rfl := List.map_eq_nil_iff.mp hsame.symm
    exact ⟨rfl, rfl⟩
  | cons first rest ih =>
    obtain ⟨l, after⟩ := first
    obtain ⟨⟨l', after'⟩, rest', rfl, hl, hrest⟩ := List.map_eq_cons_iff.mp hsame.symm
    obtain rfl : l' = l := hl
    obtain ⟨rfl, -⟩ := Lexeme.telling_tail hlexemes
    obtain ⟨rfl, -⟩ := Lexeme.telling_tail hlexemes'
    rw [overlooked, overlooked] at hmarks
    have hread : s.read l' (ahead after) = s.read l' (ahead after') := by
      refine read_of_same hrest.symm fun hname => ?_
      rw [if_pos hname, if_pos hname] at hmarks
      exact (List.cons.inj hmarks).1
    have hbehind : overlooked (s.read l' (ahead after)).1 (telling after) =
        overlooked (s.read l' (ahead after)).1 (telling after') := by
      rw [← hread] at hmarks
      split_ifs at hmarks
      · exact (List.cons.inj hmarks).2
      · exact hmarks
    obtain ⟨hshown, hstate⟩ := ih rfl _ rfl hrest.symm hbehind
    refine ⟨?_, ?_⟩
    · rw [shownFrom, shownFrom, ← hread]
      exact congrArg (List.append _) hshown
    · show (s.read l' (ahead after)).1.readAll _ = (s.read l' (ahead after')).1.readAll _
      rw [← hread, hstate]

/-- The tokens of the telling lexemes and the state at the end depend on these lexemes alone,
however much ignored text stands between them, if the marks behind names that are overlooked are the
same. A mark is overlooked only behind more than 255 characters, or behind a comma, a comment or a
byte order mark. -/
theorem ignored_text_harmless {first second : List Char}
    (hsame : (telling first).map (·.1) = (telling second).map (·.1))
    (hmarks : overlooked .initial (telling first) = overlooked .initial (telling second)) :
    tellingTokens first = tellingTokens second ∧
      GrammarState.before first first.length = GrammarState.before second second.length := by
  obtain ⟨hshown, hstate⟩ := shownFrom_eq hsame hmarks
  constructor
  · rw [tellingTokens, tellingTokens, tokenize, tokenize, shown_tokensFrom, shown_tokensFrom,
      hshown]
  · have hbefore (buffer : List Char) : GrammarState.before buffer buffer.length =
        GrammarState.initial.readAll (telling buffer) := by
      change GrammarState.initial.readAll (split (Text.slice buffer (0 : Nat) buffer.length)) = _
      rw [Text.slice_eq_take_drop, GrammarState.readAll_telling]
      simp
    rw [hbefore, hbefore, hstate]

/-- Blanks, commas and comments around an alias and an argument. -/
theorem ignored_text_harmless_argument :
    let first := "\x7ba:b(c:1)\x7d".toList
    let second := "#\n\x7b,a\n : b,( ,c\t:1#)\n)\x7d".toList
    (telling first).map (·.1) = (telling second).map (·.1) ∧
      tellingTokens first = tellingTokens second := by
  intro first second
  have hsame : (telling first).map (·.1) = (telling second).map (·.1) := by decide +kernel
  have hmarks : overlooked .initial (telling first) = overlooked .initial (telling second) := by
    decide +kernel
  exact ⟨hsame, (ignored_text_harmless hsame hmarks).1⟩

/-- A comma, a comment, a byte order mark and a long row of blanks each keep the name of an argument
from being told from a value. -/
theorem ignored_text_hides_colon :
    let plain := "\x7bf(a:1)\x7d".toList
    let gaps := [",".toList, "#\n".toList, "\uFEFF".toList, List.replicate 256 ' ']
    ∀ gap ∈ gaps,
      let buffer := "\x7bf(a".toList ++ gap ++ ":1)\x7d".toList
      (telling buffer).map (·.1) = (telling plain).map (·.1) ∧
        (tellingTokens buffer).map (·.style) ≠ (tellingTokens plain).map (·.style) := by
  decide +kernel

end Highlight
end EmbeddedGraphQL
