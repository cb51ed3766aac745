import EmbeddedGraphQL.Proofs.Tiling
import Mathlib

/-!
Where the tokens of a text come from. Every token belongs to one lexeme, lies in it, and carries the
scope that the grammar is in right after reading it. Only a line break has no scope, and it is a
token of its own unless a string takes it along. The style of a token tells what its lexeme is.
-/
namespace EmbeddedGraphQL

/-- A line break that is a token of its own and lies in no scope. -/
structure Token.IsLineBreak (token : Token) : Prop where
  text : token.text = ['\n']
  style : token.style = .blank
  scope : token.scope = none
  kind : token.kind = none

namespace GrammarState

/-- The styles of names. -/
def nameStyles : List Style :=
  [.keyword, .definition, .property, .attribute, .atom, .builtin, .enumValue, .invalid]

theorem valueStyle_mem (name : String) : valueStyle name ∈ nameStyles := by
  unfold valueStyle
  split <;> simp [nameStyles]

theorem topLevelName_style (s : GrammarState) (name : String) :
    (s.topLevelName name).2 ∈ nameStyles := by
  unfold topLevelName
  split
  · simp [nameStyles]
  · split_ifs <;> simp [nameStyles]

theorem bracketedName_style (s : GrammarState) (kind : BracketKind) (name : String)
    (ahead : Option Char) : (s.bracketedName kind name ahead).2 ∈ nameStyles := by
  have hvalue := valueStyle_mem name
  cases kind with
  | selectionSet => simp [bracketedName, nameStyles]
  | variableDefinitions => simp [bracketedName, nameStyles]
  | listValue => exact hvalue
  | fieldsDefinition =>
    simp only [bracketedName]
    split_ifs <;> simp [nameStyles]
  | arguments | objectValue | argumentsDefinition =>
    simp only [bracketedName]
    split_ifs
    · simp [nameStyles]
    · exact hvalue

theorem readName_style (s : GrammarState) (name : String) (ahead : Option Char) :
    (s.readName name ahead).2 ∈ nameStyles := by
  unfold readName
  dsimp only
  split
  · simp [nameStyles]
  · split_ifs <;> simp [nameStyles]
  · split_ifs <;> simp [nameStyles]
  · split_ifs <;> simp [nameStyles]
  · simp [nameStyles]
  · exact valueStyle_mem name
  · split
    · exact topLevelName_style _ name
    · exact bracketedName_style _ _ name ahead

/-- A lexeme that is no name has the style of its kind, whatever the state. -/
def kindStyle : LexemeKind → Style
  | .lineBreak | .space => .blank
  | .comma | .spread | .punctuator => .punctuation
  | .comment => .comment
  | .blockString | .quotedString => .string
  | .variable => .variable
  | .directive => .directive
  | .number => .number
  | .name | .stray => .invalid

theorem read_style (s : GrammarState) {l : Lexeme} (hl : l.kind ≠ .name) (ahead : Option Char) :
    (s.read l ahead).2 = kindStyle l.kind := by
  cases hkind : l.kind <;> simp only [read, hkind, kindStyle]
  exact absurd hkind hl

theorem read_style_of_name (s : GrammarState) {l : Lexeme} (hl : l.kind = .name)
    (ahead : Option Char) : (s.read l ahead).2 ∈ nameStyles := by
  simp only [read, hl]
  exact readName_style s _ ahead

end GrammarState

namespace Lexeme

theorem split_ne_nil (text : List Char) : ∀ l ∈ split text, l.1.text ≠ [] := by
  apply split_induction (motive := fun _ lexemes => ∀ l ∈ lexemes, l.1.text ≠ [])
  · exact List.forall_mem_nil _
  · exact fun l after hne _ ih => List.forall_mem_cons.mpr ⟨hne, ih⟩

/-- A lexeme that holds a line break is one, or it is a string. -/
theorem Shape.of_break {kind : LexemeKind} {text after : List Char} (h : Shape kind text after)
    (hbreak : '\n' ∈ text) :
    kind = .lineBreak ∧ text = ['\n'] ∨ kind = .blockString ∨ kind = .quotedString := by
  have hname {mark : Char} {name : List Char} (hmark : mark ≠ '\n')
      (hname : ∀ c ∈ name, Text.isNameChar c = true) : '\n' ∉ mark :: name := by
    rw [List.mem_cons, not_or]
    exact ⟨Ne.symm hmark, fun hmem => absurd (hname _ hmem) (by decide)⟩
  cases h with
  | lineBreak => exact Or.inl ⟨rfl, rfl⟩
  | blockString => exact Or.inr (Or.inl rfl)
  | quotedString => exact Or.inr (Or.inr rfl)
  | comma => simp at hbreak
  | spread => simp at hbreak
  | space hall => exact absurd (hall _ hbreak) (by decide)
  | comment hbody =>
    rcases List.mem_cons.mp hbreak with hmark | hmem
    · exact absurd hmark (by decide)
    · exact absurd rfl (hbody _ hmem)
  | «variable» hall => exact absurd hbreak (hname (by decide) hall)
  | directive hall => exact absurd hbreak (hname (by decide) hall)
  | punctuator _ hc =>
    rw [← List.mem_singleton.mp hbreak] at hc
    exact absurd hc (by decide)
  | number hall => exact absurd (hall _ hbreak) (by decide)
  | name hall => exact absurd (hall _ hbreak) (by decide)
  | stray _ hc => exact absurd (List.mem_singleton.mp hbreak).symm hc

end Lexeme

namespace Highlight
open Lexeme GrammarState

/-- A piece of a quoted string lies in it and has its scope. Only its content has its style. -/
theorem mem_splitQuoted {token part : Token} (h : part ∈ splitQuoted token)
    (hlt : token.start < token.stop) :
    (token.start ≤ part.start ∧ part.stop ≤ token.stop) ∧
      part.scope = token.scope ∧ part.kind = token.kind ∧
      (part.text = ['"'] ∧ part.style ∈ [.openQuote, .closeQuote] ∨
        part.style = token.style) := by
  unfold splitQuoted at h
  dsimp only at h
  rcases List.mem_cons.mp h with rfl | h
  · exact ⟨⟨le_rfl, by dsimp only; omega⟩, rfl, rfl, Or.inl ⟨rfl, by simp⟩⟩
  rcases List.mem_append.mp h with h | h
  · split_ifs at h with hclosed hlong hlong
    · obtain rfl := List.mem_singleton.mp h
      exact ⟨by dsimp only; omega, rfl, rfl, Or.inr rfl⟩
    · simp at h
    · obtain rfl := List.mem_singleton.mp h
      exact ⟨by dsimp only; omega, rfl, rfl, Or.inr rfl⟩
    · simp at h
  · split_ifs at h with hclosed
    · obtain rfl := List.mem_singleton.mp h
      exact ⟨by dsimp only; omega, rfl, rfl, Or.inl ⟨rfl, by simp⟩⟩
    · simp at h

/-- What a token of a lexeme has from it. `state` is the state after the lexeme, `style` the style
that was read for it. -/
structure FromLexeme (state : GrammarState) (style : Style) (start : Nat) (l : Lexeme)
    (token : Token) : Prop where
  start_le : start ≤ token.start
  stop_le : token.stop ≤ (start + l.text.length : Nat)
  scope : l.kind ≠ .lineBreak → token.scope = some (state.scope : Int)
  shown : l.kind = .quotedString ∧ token.text = ['"'] ∧ token.style ∈ [.openQuote, .closeQuote] ∨
    token.style = style ∧ (l.kind = .quotedString ∨ token.text = l.text)
  lineBreak : l.kind = .lineBreak → token.scope = none ∧ token.kind = none

theorem fromLexeme_of_mem {state : GrammarState} {style : Style} {start : Nat} {l : Lexeme}
    (hne : l.text ≠ []) {token : Token} (h : token ∈ lexemeTokens state style start l) :
    FromLexeme state style start l token := by
  have hpos := List.length_pos_iff.mpr hne
  unfold lexemeTokens at h
  dsimp only at h
  split_ifs at h with hbreak hquoted
  · obtain rfl := List.mem_singleton.mp h
    exact ⟨le_rfl, le_rfl, fun hkind => absurd hbreak hkind, Or.inr ⟨rfl, Or.inr rfl⟩,
      fun _ => ⟨rfl, rfl⟩⟩
  · obtain ⟨⟨hstart, hstop⟩, hscope, -, hshown⟩ :=
      mem_splitQuoted h (Int.ofNat_lt.mpr (Nat.lt_add_of_pos_right hpos))
    refine ⟨hstart, hstop, fun _ => hscope, ?_, fun hkind => absurd hkind hbreak⟩
    exact hshown.imp (fun hquote => ⟨hquoted, hquote⟩) fun hstyle => ⟨hstyle, Or.inl hquoted⟩
  · obtain rfl := List.mem_singleton.mp h
    exact ⟨le_rfl, le_rfl, fun _ => rfl, Or.inr ⟨rfl, Or.inr rfl⟩,
      fun hkind => absurd hkind hbreak⟩

/-- A token comes from one of the lexemes, read in the state that those before it lead to. -/
theorem mem_tokensFrom {state : GrammarState} {start : Nat} {lexemes : List (Lexeme × List Char)}
    {token : Token} (h : token ∈ tokensFrom state start lexemes) :
    ∃ earlier l after later, lexemes = earlier ++ (l, after) :: later ∧
      token ∈ lexemeTokens (state.readAll (earlier ++ [(l, after)]))
        ((state.readAll earlier).read l (ahead after)).2
        (start + (earlier.flatMap (·.1.text)).length) l := by
  induction lexemes generalizing state start with
  | nil => simp [tokensFrom] at h
  | cons first rest ih =>
    obtain ⟨l, after⟩ := first
    rcases List.mem_append.mp h with h | h
    · exact ⟨[], l, after, rest, rfl, h⟩
    · obtain ⟨earlier, other, behind, later, hsplit, hmem⟩ := ih h
      refine ⟨(l, after) :: earlier, other, behind, later, by rw [hsplit]; rfl, ?_⟩
      rwa [List.flatMap_cons, List.length_append, ← Nat.add_assoc]

/-- The lexemes of a text before and behind one of them, and where the token comes from. -/
theorem tokenize_source {text : List Char} {token : Token} (h : token ∈ tokenize text) :
    ∃ earlier l after later, split text = earlier ++ (l, after) :: later ∧
      Shape l.kind l.text after ∧
      FromLexeme (initial.readAll (earlier ++ [(l, after)]))
        ((initial.readAll earlier).read l (ahead after)).2
        (earlier.flatMap (·.1.text)).length l token := by
  obtain ⟨earlier, l, after, later, hsplit, hmem⟩ := mem_tokensFrom h
  have hl : (l, after) ∈ split text := hsplit ▸ List.mem_append_cons_self
  rw [Nat.zero_add] at hmem
  exact ⟨earlier, l, after, later, hsplit, split_shape text _ hl,
    fromLexeme_of_mem (split_ne_nil text _ hl) hmem⟩

namespace FromLexeme

variable {s : GrammarState} {start : Nat} {l : Lexeme} {after : List Char} {token : Token}

/-- A token is a quote, a name, or what its lexeme is. -/
theorem style_eq {state : GrammarState}
    (h : FromLexeme state (s.read l (ahead after)).2 start l token) :
    token.text = ['"'] ∧ token.style ∈ [.openQuote, .closeQuote] ∨
      l.kind = .name ∧ token.text = l.text ∧ token.style ∈ nameStyles ∨
      token.style = kindStyle l.kind ∧ (l.kind = .quotedString ∨ token.text = l.text) := by
  rcases h.shown with ⟨-, hquote⟩ | ⟨hstyle, hshown⟩
  · exact Or.inl hquote
  rw [hstyle]
  by_cases hname : l.kind = .name
  · have htext := hshown.resolve_left (by rw [hname]; decide)
    exact Or.inr (Or.inl ⟨hname, htext, read_style_of_name s hname _⟩)
  · exact Or.inr (Or.inr ⟨read_style s hname _, hshown⟩)

theorem isLineBreak {state : GrammarState} (hshape : Shape l.kind l.text after)
    (hbreak : l.kind = .lineBreak)
    (h : FromLexeme state (s.read l (ahead after)).2 start l token) : token.IsLineBreak := by
  obtain ⟨hscope, hkind⟩ := h.lineBreak hbreak
  have htext : l.text = ['\n'] := by
    rw [hbreak] at hshape
    cases hl : l.text <;> rw [hl] at hshape <;> cases hshape
    rfl
  rcases h.shown with ⟨hquoted, -⟩ | ⟨hstyle, hquoted | hsame⟩
  · rw [hbreak] at hquoted
    cases hquoted
  · rw [hbreak] at hquoted
    cases hquoted
  · rw [read_style s (by rw [hbreak]; decide), hbreak] at hstyle
    exact ⟨hsame.trans htext, hstyle, hscope, hkind⟩

/-- A token that shows a line break is one, or it is the content of a string. -/
theorem of_break {state : GrammarState} (hshape : Shape l.kind l.text after)
    (h : FromLexeme state (s.read l (ahead after)).2 start l token) (hbreak : '\n' ∈ token.text) :
    token.IsLineBreak ∨ token.style = .string := by
  rcases h.style_eq with ⟨hquote, -⟩ | ⟨hname, htext, -⟩ | ⟨hstyle, htext⟩
  · rw [hquote] at hbreak
    exact absurd hbreak (by decide)
  · have hkind := hshape.of_break (htext ▸ hbreak)
    rw [hname] at hkind
    simp at hkind
  rw [hstyle]
  rcases htext with hquoted | htext
  · exact Or.inr (by rw [hquoted]; rfl)
  rcases hshape.of_break (htext ▸ hbreak) with ⟨hkind, -⟩ | hkind | hkind
  · exact Or.inl (h.isLineBreak hshape hkind)
  · exact Or.inr (by rw [hkind]; rfl)
  · exact Or.inr (by rw [hkind]; rfl)

/-- A comment starts with its mark and goes on to the end of its line. -/
theorem of_comment {state : GrammarState} (hshape : Shape l.kind l.text after)
    (h : FromLexeme state (s.read l (ahead after)).2 start l token)
    (hcomment : token.style = .comment) :
    ∃ body, token.text = '#' :: body ∧ '\n' ∉ body := by
  have hstyle := h.style_eq
  rw [hcomment] at hstyle
  rcases hstyle with ⟨-, hquote⟩ | ⟨-, -, hname⟩ | ⟨hkind, htext⟩
  · exact absurd hquote (by decide)
  · exact absurd hname (by decide)
  have hkind : l.kind = .comment := by
    cases hl : l.kind <;> rw [hl] at hkind <;> first | rfl | exact absurd hkind (by decide)
  rw [htext.resolve_left (by rw [hkind]; decide)]
  rw [hkind] at hshape
  cases hl : l.text <;> rw [hl] at hshape <;> cases hshape
  next body hbody _ => exact ⟨_, rfl, fun hmem => hbody _ hmem rfl⟩

/-- A blank token is a line break or white space. -/
theorem of_blank {state : GrammarState} (hshape : Shape l.kind l.text after)
    (h : FromLexeme state (s.read l (ahead after)).2 start l token)
    (hblank : token.style = .blank) : ∀ c ∈ token.text, c = '\n' ∨ isSpace c = true := by
  have hstyle := h.style_eq
  rw [hblank] at hstyle
  rcases hstyle with ⟨-, hquote⟩ | ⟨-, -, hname⟩ | ⟨hkind, htext⟩
  · exact absurd hquote (by decide)
  · exact absurd hname (by decide)
  have hkind : l.kind = .lineBreak ∨ l.kind = .space := by
    cases hl : l.kind <;> rw [hl] at hkind <;>
      first | exact Or.inl rfl | exact Or.inr rfl | exact absurd hkind (by decide)
  have htext : token.text = l.text :=
    htext.resolve_left (by rcases hkind with hkind | hkind <;> rw [hkind] <;> decide)
  rw [htext]
  intro c hc
  rcases hkind with hkind | hkind
  · have hbreak := h.isLineBreak hshape hkind
    rw [← htext, hbreak.text] at hc
    exact Or.inl (List.mem_singleton.mp hc)
  · rw [hkind] at hshape
    cases hl : l.text <;> rw [hl] at hshape hc <;> cases hshape
    · cases hc
    next hall _ => exact Or.inr (hall _ hc)

/-- Only a string or a comment holds a blank in front of an underscore. -/
theorem of_inner_blank {state : GrammarState} (hshape : Shape l.kind l.text after)
    (h : FromLexeme state (s.read l (ahead after)).2 start l token) {i : Nat} {c : Char}
    (hc : token.text[i]? = some c) (hblank : Text.isBlank c = true)
    (hnext : token.text[i + 1]? = some '_') : token.style = .comment ∨ token.style = .string := by
  have hinner (htext : token.text = l.text) :
      l.kind ∈ [.comment, .blockString, .quotedString] :=
    hshape.of_inner_blank (htext ▸ hc) hblank (htext ▸ hnext)
  rcases h.style_eq with ⟨hquote, -⟩ | ⟨hname, htext, -⟩ | ⟨hstyle, htext⟩
  · rw [hquote] at hnext
    simp at hnext
  · have hkind := hinner htext
    rw [hname] at hkind
    exact absurd hkind (by decide)
  · have hkind : l.kind ∈ [.comment, .blockString, .quotedString] :=
      htext.elim (fun hquoted => by rw [hquoted]; decide) hinner
    rw [hstyle]
    revert hkind
    cases l.kind <;> decide

theorem style_ne_template {state : GrammarState}
    (h : FromLexeme state (s.read l (ahead after)).2 start l token) :
    token.style ≠ .template := by
  intro htemplate
  have hstyle := h.style_eq
  rw [htemplate] at hstyle
  rcases hstyle with ⟨-, hquote⟩ | ⟨-, -, hname⟩ | ⟨hkind, -⟩
  · exact absurd hquote (by decide)
  · exact absurd hname (by decide)
  · cases hl : l.kind <;> rw [hl] at hkind <;> exact absurd hkind (by decide)

end FromLexeme

/-- The tokens of any buffer cover it: they tile it from its start to its end, and their texts make
it up. A line break is a token of its own, without a scope, or lies in a string. Every other token
has as its scope the number of frames that are open right after the lexeme it lies in. -/
theorem tokenize_covers (buffer : List Char) :
    Tiles buffer 0 buffer.length (tokenize buffer) ∧
    (tokenize buffer).flatMap (·.text) = buffer ∧
    (∀ token ∈ tokenize buffer, '\n' ∈ token.text →
      token.IsLineBreak ∨ token.style = .string) ∧
    ∀ token ∈ tokenize buffer, ¬ token.IsLineBreak →
      ∃ earlier l after later, split buffer = earlier ++ (l, after) :: later ∧
        (earlier.flatMap (·.1.text)).length ≤ token.start ∧
        token.stop ≤ ((earlier.flatMap (·.1.text)).length + l.text.length : Nat) ∧
        token.scope = some ((initial.readAll (earlier ++ [(l, after)])).stack.length : Int) := by
  have htiles := (tokenize_tiles buffer).1
  have htexts : (tokenize buffer).flatMap (·.text) = buffer :=
    (htiles.texts le_rfl).trans (Text.slice_zero_length buffer)
  refine ⟨htiles, htexts, fun token htoken hbreak => ?_, fun token htoken hbreak => ?_⟩
  · obtain ⟨_, _, _, _, -, hshape, hsource⟩ := tokenize_source htoken
    exact hsource.of_break hshape hbreak
  · obtain ⟨earlier, l, after, later, hsplit, hshape, hsource⟩ := tokenize_source htoken
    have hkind : l.kind ≠ .lineBreak := fun hkind => hbreak (hsource.isLineBreak hshape hkind)
    exact ⟨earlier, l, after, later, hsplit, hsource.start_le, hsource.stop_le,
      hsource.scope hkind⟩

/-- A string that takes a line break along, in a brace and in front of another line break. -/
theorem tokenize_covers_escaped_break :
    let buffer := "\x7b\"\\\n\"\n".toList
    let content : Token := ⟨['\\', '\n'], .string, 2, 4, some 1, some "SelectionSet"⟩
    (content ∈ tokenize buffer ∧ '\n' ∈ content.text ∧
      (content.IsLineBreak ∨ content.style = .string)) ∧
    (content ∈ tokenize buffer ∧ ¬ content.IsLineBreak ∧
      ∃ earlier l after later, split buffer = earlier ++ (l, after) :: later ∧
        (earlier.flatMap (·.1.text)).length ≤ content.start ∧
        content.stop ≤ ((earlier.flatMap (·.1.text)).length + l.text.length : Nat) ∧
        content.scope =
          some ((initial.readAll (earlier ++ [(l, after)])).stack.length : Int)) := by
  intro buffer content
  have htokens : tokenize "\x7b\"\\\n\"\n".toList =
      [⟨['{'], .punctuation, 0, 1, some 1, some "SelectionSet"⟩,
        ⟨['"'], .openQuote, 1, 2, some 1, some "SelectionSet"⟩,
        ⟨['\\', '\n'], .string, 2, 4, some 1, some "SelectionSet"⟩,
        ⟨['"'], .closeQuote, 4, 5, some 1, some "SelectionSet"⟩,
        ⟨['\n'], .blank, 5, 6, none, none⟩] := by cbv
  have hmem : content ∈ tokenize buffer := by
    rw [htokens]
    simp [content]
  have hbreak : '\n' ∈ content.text := by decide
  have hnot : ¬ content.IsLineBreak := fun h => absurd h.style (by decide)
  obtain ⟨-, -, hbreaks, hscopes⟩ := tokenize_covers buffer
  exact ⟨⟨hmem, hbreak, hbreaks content hmem hbreak⟩, hmem, hnot, hscopes content hmem hnot⟩

end Highlight
end EmbeddedGraphQL
