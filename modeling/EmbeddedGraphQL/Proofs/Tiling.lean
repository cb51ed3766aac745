import EmbeddedGraphQL.Highlight.Token
import EmbeddedGraphQL.Highlight.Tokenizer
import EmbeddedGraphQL.Proofs.Lexemes
import EmbeddedGraphQL.Text.Blank
import EmbeddedGraphQL.Text.Slice
import Mathlib

/-!
Tokens that tile a text. The tokens of a tokenized text tile it, and what a token ends with decides
which blanks and which names can follow it.
-/
namespace EmbeddedGraphQL

/-- Each token starts where the one before it stops, has a length and shows the text at its place;
the first starts at `start` and the last stops at `stop`. -/
def Tiles (text : List Char) (start stop : Int) : List Token → Prop
  | [] => start = stop
  | token :: rest =>
    token.start = start ∧ token.start < token.stop ∧
      token.text = Text.slice text token.start token.stop ∧ Tiles text token.stop stop rest

/-- Whether a place lies in a token. -/
def Token.Covers (token : Token) (place : Int) : Prop :=
  token.start ≤ place ∧ place < token.stop

namespace Tiles

variable {text : List Char} {start middle stop : Int} {tokens more : List Token}

theorem append (h : Tiles text start middle tokens) (h' : Tiles text middle stop more) :
    Tiles text start stop (tokens ++ more) := by
  induction tokens generalizing start with
  | nil => exact (show start = middle from h) ▸ h'
  | cons token rest ih =>
    obtain ⟨hstart, hlt, htext, hrest⟩ := h
    exact ⟨hstart, hlt, htext, ih hrest⟩

theorem singleton {token : Token} (hlt : token.start < token.stop)
    (htext : token.text = Text.slice text token.start token.stop) :
    Tiles text token.start token.stop [token] :=
  ⟨rfl, hlt, htext, rfl⟩

theorem le (h : Tiles text start stop tokens) : start ≤ stop := by
  induction tokens generalizing start with
  | nil => exact (show start = stop from h).le
  | cons token rest ih =>
    obtain ⟨rfl, hlt, -, hrest⟩ := h
    exact hlt.le.trans (ih hrest)

theorem getLast_stop (h : Tiles text start stop tokens) (hlt : start < stop) :
    ∃ last, tokens.getLast? = some last ∧ last.stop = stop := by
  induction tokens generalizing start with
  | nil => exact absurd hlt (show start = stop from h).not_lt
  | cons token rest ih =>
    obtain ⟨-, -, -, hrest⟩ := h
    rcases hrest.le.eq_or_lt with heq | hlt
    · cases rest with
      | nil => exact ⟨token, rfl, heq⟩
      | cons next rest =>
        obtain ⟨hnext, hlt, -, hlast⟩ := hrest
        exact absurd hlast.le (by omega)
    · obtain ⟨last, hlast, hstop⟩ := ih hrest hlt
      exact ⟨last, by rw [List.getLast?_cons, hlast]; rfl, hstop⟩

theorem bounds (h : Tiles text start stop tokens) :
    ∀ token ∈ tokens, start ≤ token.start ∧ token.start < token.stop ∧ token.stop ≤ stop := by
  induction tokens generalizing start with
  | nil => simp
  | cons token rest ih =>
    obtain ⟨rfl, hlt, -, hrest⟩ := h
    refine List.forall_mem_cons.mpr ⟨⟨le_rfl, hlt, hrest.le⟩, fun other hother => ?_⟩
    obtain ⟨hstart, hlt', hstop⟩ := ih hrest other hother
    exact ⟨hlt.le.trans hstart, hlt', hstop⟩

/-- The ends of tokens that tile a text are offsets. -/
theorem exists_offsets (h : Tiles text start stop tokens) (hstart : 0 ≤ start) {token : Token}
    (htoken : token ∈ tokens) :
    ∃ a b : Nat, token.start = a ∧ token.stop = b ∧ a < b ∧ b ≤ stop := by
  obtain ⟨hfirst, hlt, hlast⟩ := h.bounds token htoken
  obtain ⟨a, ha⟩ := Int.eq_ofNat_of_zero_le (hstart.trans hfirst)
  obtain ⟨b, hb⟩ := Int.eq_ofNat_of_zero_le ((hstart.trans hfirst).trans hlt.le)
  exact ⟨a, b, ha, hb, by omega, hb ▸ hlast⟩

theorem ordered (h : Tiles text start stop tokens) :
    tokens.Pairwise fun t u => t.stop ≤ u.start := by
  induction tokens generalizing start with
  | nil => exact List.Pairwise.nil
  | cons token rest ih =>
    obtain ⟨rfl, hlt, -, hrest⟩ := h
    exact List.pairwise_cons.mpr ⟨fun other hother => (hrest.bounds other hother).1, ih hrest⟩

theorem sorted (h : Tiles text start stop tokens) :
    tokens.Pairwise fun t u => t.start ≤ u.start :=
  h.ordered.imp_of_mem fun ht _ hle => (h.bounds _ ht).2.1.le.trans hle

/-- Each place belongs to one of the tokens. -/
theorem existsUnique_covers (h : Tiles text start stop tokens) {place : Int}
    (hlow : start ≤ place) (hhigh : place < stop) :
    ∃ owner, ∀ token, token ∈ tokens ∧ token.Covers place ↔ token = owner := by
  induction tokens generalizing start with
  | nil =>
    obtain rfl : start = stop := h
    exact absurd hhigh hlow.not_gt
  | cons token rest ih =>
    obtain ⟨rfl, hlt, -, hrest⟩ := h
    rcases lt_or_ge place token.stop with hin | hbehind
    · refine ⟨token, fun other => ⟨fun ⟨hother, hcovers⟩ => ?_, ?_⟩⟩
      · refine (List.mem_cons.mp hother).resolve_right fun hother => ?_
        have := (hrest.bounds other hother).1
        have := hcovers.1
        omega
      · rintro rfl
        exact ⟨List.mem_cons_self, hlow, hin⟩
    · obtain ⟨owner, howner⟩ := ih hrest hbehind
      refine ⟨owner, fun other => ?_⟩
      rw [← howner, List.mem_cons]
      refine and_congr_left fun hcovers => or_iff_right ?_
      rintro rfl
      exact hbehind.not_gt hcovers.2

theorem text_eq (h : Tiles text start stop tokens) :
    ∀ token ∈ tokens, token.text = Text.slice text token.start token.stop := by
  induction tokens generalizing start with
  | nil => exact List.forall_mem_nil _
  | cons token rest ih =>
    obtain ⟨-, -, htext, hrest⟩ := h
    exact List.forall_mem_cons.mpr ⟨htext, ih hrest⟩

theorem length_text (h : Tiles text start stop tokens) (hstart : 0 ≤ start)
    (hstop : stop ≤ text.length) :
    ∀ token ∈ tokens, token.text.length = token.stop - token.start := by
  intro token htoken
  obtain ⟨a, b, ha, hb, hlt, hle⟩ := h.exists_offsets hstart htoken
  rw [h.text_eq token htoken, ha, hb, Text.length_slice (by omega)]
  omega

/-- A token shows the character at each of its places. -/
theorem getElem?_of_covers (h : Tiles text start stop tokens) (hstart : 0 ≤ start) {token : Token}
    (htoken : token ∈ tokens) {place : Nat} (hcovers : token.Covers place) :
    token.text[place - token.start.toNat]? = text[place]? := by
  obtain ⟨a, b, ha, hb, -⟩ := h.exists_offsets hstart htoken
  rw [Token.Covers, ha, hb] at hcovers
  rw [h.text_eq token htoken, ha, hb, Int.toNat_natCast, Text.getElem?_slice,
    Nat.add_sub_of_le (Int.ofNat_le.mp hcovers.1), if_pos (Int.ofNat_lt.mp hcovers.2)]

/-- The texts of tokens that tile a text concatenate to it. -/
theorem texts (h : Tiles text start stop tokens) (hstart : 0 ≤ start) :
    tokens.flatMap (·.text) = Text.slice text start stop := by
  induction tokens generalizing start with
  | nil =>
    obtain rfl : start = stop := h
    obtain ⟨k, rfl⟩ := Int.eq_ofNat_of_zero_le hstart
    rw [List.flatMap_nil, Text.slice_eq_take_drop, Nat.sub_self, List.take_zero]
  | cons token rest ih =>
    obtain ⟨rfl, hlt, htext, hrest⟩ := h
    have hle := hrest.le
    obtain ⟨first, hfirst⟩ := Int.eq_ofNat_of_zero_le hstart
    obtain ⟨second, hsecond⟩ := Int.eq_ofNat_of_zero_le (hstart.trans hlt.le)
    obtain ⟨third, rfl⟩ := Int.eq_ofNat_of_zero_le (hstart.trans (hlt.le.trans hle))
    rw [List.flatMap_cons, ih hrest (hstart.trans hlt.le), htext, hfirst, hsecond,
      Text.slice_append_slice text (by omega) (by omega)]

end Tiles

/-- What a token ends with tells what comes next. Behind a blank at its end, neither another blank
nor an underscore follows, except an underscore behind white space; and a token with a blank in
front of an underscore is a comment or a string, which ends at a line break, at a quote or with the
text. -/
structure Bounded (token : Token) (next : Option Char) : Prop where
  blank : token.text.getLast? = some ' ' → next = some ' ' ∨ next = some '_' →
    next = some '_' ∧ token.style = .blank
  inner : ∀ k c, token.text[k]? = some c → Text.isBlank c = true → token.text[k + 1]? = some '_' →
    next ∈ [none, some '\n', some '"'] ∨ token.text.getLast? = some '"'

namespace Bounded

/-- A token without blanks. -/
theorem of_not_blank {token : Token} (h : ∀ c ∈ token.text, Text.isBlank c = false)
    (next : Option Char) : Bounded token next where
  blank hlast := by
    have := h ' ' (List.mem_of_getLast? hlast)
    exact absurd this (by decide)
  inner k c hk hc := by
    have := h c (List.mem_of_getElem? hk)
    rw [this] at hc
    cases hc

theorem of_singleton {token : Token} {c : Char} (htext : token.text = [c]) (hc : c ≠ ' ')
    (next : Option Char) : Bounded token next where
  blank hlast := by
    rw [htext] at hlast
    exact absurd (Option.some.inj hlast) hc
  inner k d _ _ hnext := by
    rw [htext] at hnext
    simp at hnext

/-- A token in front of the end of the text, of a line break or of a quote. -/
theorem of_next {next : Option Char} (h : next ∈ [none, some '\n', some '"']) (token : Token) :
    Bounded token next where
  blank _ hnext := by
    rcases hnext with rfl | rfl <;> exact absurd h (by decide)
  inner _ _ _ _ _ := Or.inl h

theorem of_getLast {token : Token} (h : token.text.getLast? = some '"') (next : Option Char) :
    Bounded token next where
  blank hlast := by
    rw [h] at hlast
    exact absurd hlast (by decide)
  inner _ _ _ _ _ := Or.inr h

end Bounded

/-- Tokens that tile a text from `start` to `stop`, each with the character behind it. -/
def BoundedTiles (text : List Char) (start stop : Nat) (tokens : List Token) : Prop :=
  Tiles text start stop tokens ∧ ∀ token ∈ tokens, Bounded token text[token.stop.toNat]?

theorem BoundedTiles.append {text : List Char} {start middle stop : Nat}
    {tokens more : List Token} (h : BoundedTiles text start middle tokens)
    (h' : BoundedTiles text middle stop more) :
    BoundedTiles text start stop (tokens ++ more) :=
  ⟨h.1.append h'.1, List.forall_mem_append.mpr ⟨h.2, h'.2⟩⟩

/-- A token tiles the word it shows. -/
theorem BoundedTiles.singleton {text before word after : List Char} {start stop : Nat}
    (hsplit : text = before ++ (word ++ after)) (hbefore : before.length = start)
    (hlength : start + word.length = stop) (hword : word ≠ []) {token : Token}
    (htext : token.text = word) (hstart : token.start = start) (hstop : token.stop = stop)
    (h : Bounded token after.head?) : BoundedTiles text start stop [token] := by
  subst hsplit hbefore hlength
  have hpos := List.length_pos_iff.mpr hword
  constructor
  · rw [← hstart, ← hstop]
    refine Tiles.singleton (by omega) ?_
    rw [htext, hstart, hstop, Text.slice_append_append]
  · refine List.forall_mem_singleton.mpr ?_
    rwa [hstop, Int.toNat_natCast, ← List.append_assoc, ← List.length_append,
      List.getElem?_append_right le_rfl, Nat.sub_self, ← List.head?_eq_getElem?]

namespace Lexeme

theorem isBlank_of_isNameChar {c : Char} (h : Text.isNameChar c = true) :
    Text.isBlank c = false := by
  have hrange : 48 ≤ c.val.toNat ∧ c.val.toNat ≤ 122 := by
    simp only [Text.isNameChar, Char.isAlphanum, Char.isAlpha, Char.isUpper, Char.isLower,
      Char.isDigit, Bool.or_eq_true, Bool.and_eq_true, decide_eq_true_eq, beq_iff_eq,
      UInt32.le_iff_toNat_le, ge_iff_le] at h
    rcases h with ((h | h) | h) | rfl
    · exact ⟨le_trans (by decide) h.1, h.2.trans (by decide)⟩
    · exact ⟨le_trans (by decide) h.1, h.2.trans (by decide)⟩
    · exact ⟨le_trans (by decide) h.1, h.2.trans (by decide)⟩
    · decide
  simp only [Text.isBlank, Text.isWhiteSpace, Bool.or_eq_false_iff, Bool.and_eq_false_iff,
    decide_eq_false_iff_not, beq_eq_false_iff_ne]
  omega

namespace Shape

variable {kind : LexemeKind} {text after : List Char}

theorem exists_singleton (h : Shape kind text after)
    (hkind : kind ∈ [.lineBreak, .comma, .punctuator, .stray]) : ∃ c, text = [c] ∧ c ≠ ' ' := by
  cases h with
  | lineBreak => exact ⟨'\n', rfl, by decide⟩
  | comma => exact ⟨',', rfl, by decide⟩
  | punctuator _ hc =>
    refine ⟨_, rfl, ?_⟩
    rintro rfl
    exact absurd hc (by decide)
  | stray _ _ hspace =>
    refine ⟨_, rfl, ?_⟩
    rintro rfl
    exact absurd hspace (by decide)
  | _ => exact absurd hkind (by decide)

/-- Words have no blanks in them. -/
theorem isBlank_eq_false (h : Shape kind text after)
    (hkind : kind ∈ [.spread, .variable, .directive, .number, .name]) :
    ∀ c ∈ text, Text.isBlank c = false := by
  have hmarked {mark : Char} {name : List Char} (hmark : Text.isBlank mark = false)
      (hname : ∀ c ∈ name, Text.isNameChar c = true) :
      ∀ c ∈ mark :: name, Text.isBlank c = false :=
    List.forall_mem_cons.mpr ⟨hmark, fun c hc => isBlank_of_isNameChar (hname c hc)⟩
  cases h with
  | spread =>
    intro c hc
    obtain rfl : c = '.' := by simpa using hc
    decide
  | «variable» hall => exact hmarked (by decide) hall
  | directive hall => exact hmarked (by decide) hall
  | number hall =>
    intro c hc
    rcases hall c hc with hdigit | hmark
    · exact isBlank_of_isNameChar (by simp [Text.isNameChar, Char.isAlphanum, hdigit])
    · fin_cases hmark <;> decide
  | name hall => exact fun c hc => isBlank_of_isNameChar (hall c hc)
  | _ => exact absurd hkind (by decide)

/-- Only strings and comments hold a blank in front of an underscore. -/
theorem of_inner_blank (h : Shape kind text after) {i : Nat} {c : Char} (hc : text[i]? = some c)
    (hblank : Text.isBlank c = true) (hnext : text[i + 1]? = some '_') :
    kind ∈ [.comment, .blockString, .quotedString] := by
  have hsingle := h.exists_singleton
  have hword := h.isBlank_eq_false
  cases h with
  | comment | blockString | quotedString => decide
  | space hall =>
    have hunderscore := hall '_' (List.mem_of_getElem? hnext)
    exact absurd hunderscore (by decide)
  | lineBreak | comma | punctuator | stray =>
    obtain ⟨d, hd, -⟩ := hsingle (by decide)
    rw [hd] at hnext
    simp at hnext
  | spread | «variable» | directive | number | name =>
    rw [hword (by decide) c (List.mem_of_getElem? hc)] at hblank
    cases hblank

end Shape
end Lexeme

namespace Highlight
open Lexeme

/-- A lexeme that is no quoted string is a token that ends as its kind does. -/
theorem bounded_of_shape {l : Lexeme} {after : List Char} (h : Shape l.kind l.text after)
    (hkind : l.kind ≠ .quotedString) {token : Token} (htext : token.text = l.text)
    (hstyle : l.kind = .space → token.style = .blank) : Bounded token after.head? := by
  obtain ⟨kind, text⟩ := l
  dsimp only at *
  have hsingle := h.exists_singleton
  have hword := h.isBlank_eq_false
  cases h with
  | lineBreak | comma | punctuator | stray =>
    obtain ⟨c, hc, hne⟩ := hsingle (by decide)
    exact Bounded.of_singleton (htext.trans hc) hne _
  | space hall hafter =>
    constructor
    · rintro - (hnext | hnext)
      · exact absurd (hafter ' ' hnext) (by decide)
      · exact ⟨hnext, hstyle rfl⟩
    · intro k c _ _ hnext
      have hunderscore := hall '_' (List.mem_of_getElem? (htext ▸ hnext))
      exact absurd hunderscore (by decide)
  | comment hbody hafter =>
    refine Bounded.of_next ?_ token
    cases hnext : after.head? with
    | none => simp
    | some c => simp [hafter c hnext]
  | blockString hend =>
    rcases hend with rfl | hlast
    · exact Bounded.of_next (by simp) token
    · exact Bounded.of_getLast (by rw [htext]; simp [List.getLast?_cons, hlast]) _
  | quotedString => exact absurd rfl hkind
  | spread | «variable» | directive | number | name =>
    exact Bounded.of_not_blank (htext ▸ hword (by decide)) _

/-- A closed string has its content between two quotes. -/
theorem exists_content_of_isClosed {body : List Char} (h : isClosed ('"' :: body) = true) :
    ∃ content, body = content ++ ['"'] := by
  unfold isClosed at h
  rw [List.reverse_cons] at h
  rcases List.eq_nil_or_concat body with rfl | ⟨content, c, rfl⟩
  · simp at h
  · refine ⟨content, ?_⟩
    simp only [List.concat_eq_append, List.reverse_append, List.reverse_cons, List.reverse_nil,
      List.nil_append, List.cons_append] at h ⊢
    split at h
    · cases h
    next heq => simp_all
    · cases h

/-- The content of a string, which may be empty. -/
private theorem content_tiles {text before content after : List Char} {start stop : Nat}
    (hsplit : text = before ++ (content ++ after)) (hbefore : before.length = start)
    (hlength : start + content.length = stop) {token : Token} (htext : token.text = content)
    (hstart : token.start = start) (hstop : token.stop = stop)
    (h : Bounded token after.head?) :
    BoundedTiles text start stop (if token.start < token.stop then [token] else []) := by
  split_ifs with hlt
  · have hne : content ≠ [] := by
      rintro rfl
      rw [List.length_nil] at hlength
      omega
    exact BoundedTiles.singleton hsplit hbefore hlength hne htext hstart hstop h
  · obtain rfl : start = stop := by omega
    exact ⟨rfl, List.forall_mem_nil _⟩

private theorem quote_tiles {text before after : List Char} {start stop : Nat}
    (hsplit : text = before ++ ('"' :: after)) (hbefore : before.length = start)
    (hlength : start + 1 = stop) {token : Token} (htext : token.text = ['"'])
    (hstart : token.start = start) (hstop : token.stop = stop) :
    BoundedTiles text start stop [token] := by
  have hword : text = before ++ (['"'] ++ after) := hsplit
  exact BoundedTiles.singleton hword hbefore hlength (List.cons_ne_nil '"' []) htext hstart hstop
    (Bounded.of_singleton htext (by decide) _)

/-- The tokens of a quoted string tile it. -/
theorem splitQuoted_tiles {text before body after : List Char} {start stop : Nat}
    (hsplit : text = before ++ ('"' :: body ++ after)) (hbefore : before.length = start)
    (hlength : start + ('"' :: body).length = stop)
    (h : after = [] ∨ after.head? = some '\n' ∨ body.getLast? = some '"') {token : Token}
    (htext : token.text = '"' :: body) (hstart : token.start = start)
    (hstop : token.stop = stop) : BoundedTiles text start stop (splitQuoted token) := by
  have hbefore' : (before ++ ['"']).length = start + 1 := by
    rw [List.length_append, hbefore, List.length_singleton]
  rw [List.length_cons] at hlength
  let opening : Token := { token with style := .openQuote, text := ['"'], stop := token.start + 1 }
  have hopening : BoundedTiles text start (start + 1) [opening] := by
    have hlast : opening.stop = (start + 1 : Nat) := by
      change token.start + 1 = _
      omega
    exact quote_tiles hsplit hbefore rfl rfl hstart hlast
  cases hclosed : isClosed ('"' :: body) with
  | false =>
    let content : Token := { token with text := body, start := token.start + 1 }
    have hcontent : BoundedTiles text (start + 1) stop
        (if content.start < content.stop then [content] else []) := by
      have hfirst : content.start = (start + 1 : Nat) := by
        change token.start + 1 = _
        omega
      have hsplit' : text = (before ++ ['"']) ++ (body ++ after) := hsplit.trans (by simp)
      refine content_tiles hsplit' hbefore' (by omega) rfl hfirst hstop ?_
      rcases h with rfl | hbreak | hlast
      · exact Bounded.of_next (by simp) _
      · exact Bounded.of_next (by simp [hbreak]) _
      · exact Bounded.of_getLast hlast _
    have hquoted : splitQuoted token =
        [opening] ++ if content.start < content.stop then [content] else [] := by
      simp [splitQuoted, hclosed, htext, opening, content]
    rw [hquoted]
    exact hopening.append hcontent
  | true =>
    obtain ⟨inner, rfl⟩ := exists_content_of_isClosed hclosed
    rw [List.length_append, List.length_singleton] at hlength
    let content : Token :=
      { token with text := inner, start := token.start + 1, stop := token.stop - 1 }
    let closing : Token :=
      { token with style := .closeQuote, text := ['"'], start := token.stop - 1 }
    have hcontent : BoundedTiles text (start + 1) (start + 1 + inner.length)
        (if content.start < content.stop then [content] else []) := by
      have hsplit' : text = (before ++ ['"']) ++ (inner ++ ('"' :: after)) :=
        hsplit.trans (by simp)
      have hfirst : content.start = (start + 1 : Nat) := by
        change token.start + 1 = _
        omega
      have hlast : content.stop = (start + 1 + inner.length : Nat) := by
        change token.stop - 1 = _
        omega
      exact content_tiles hsplit' hbefore' rfl rfl hfirst hlast (Bounded.of_next (by simp) _)
    have hclosing : BoundedTiles text (start + 1 + inner.length) stop [closing] := by
      have hsplit' : text = (before ++ ['"'] ++ inner) ++ ('"' :: after) :=
        hsplit.trans (by simp)
      have hfirst : closing.start = (start + 1 + inner.length : Nat) := by
        change token.stop - 1 = _
        omega
      exact quote_tiles hsplit' (by rw [List.length_append, hbefore']) (by omega) rfl hfirst hstop
    have hquoted : splitQuoted token = [opening] ++
        ((if content.start < content.stop then [content] else []) ++ [closing]) := by
      simp [splitQuoted, hclosed, htext, opening, content, closing]
    rw [hquoted]
    exact hopening.append (hcontent.append hclosing)

/-- The tokens of a lexeme tile it. -/
theorem lexemeTokens_tiles {l : Lexeme} {after : List Char} (hne : l.text ≠ [])
    (h : Shape l.kind l.text after) (before : List Char) (state : GrammarState) {style : Style}
    (hstyle : l.kind = .space → style = .blank) :
    BoundedTiles (before ++ (l.text ++ after)) before.length (before.length + l.text.length)
      (lexemeTokens state style before.length l) := by
  unfold lexemeTokens
  dsimp only
  split_ifs with hbreak hquoted
  · refine BoundedTiles.singleton rfl rfl rfl hne rfl rfl rfl (bounded_of_shape h ?_ rfl hstyle)
    rw [hbreak]
    decide
  · obtain ⟨kind, text⟩ := l
    obtain rfl : kind = .quotedString := hquoted
    cases h with
    | quotedString hend => exact splitQuoted_tiles rfl rfl rfl hend rfl rfl rfl
  · exact BoundedTiles.singleton rfl rfl rfl hne rfl rfl rfl
      (bounded_of_shape h hquoted rfl hstyle)

/-- The tokens of a text tile it. -/
theorem tokenize_tiles (text : List Char) :
    BoundedTiles text 0 text.length (tokenize text) := by
  have hfrom : ∀ (state : GrammarState) (before : List Char),
      BoundedTiles (before ++ text) before.length (before.length + text.length)
        (tokensFrom state before.length (split text)) := by
    apply split_induction (motive := fun text lexemes =>
      ∀ (state : GrammarState) (before : List Char),
        BoundedTiles (before ++ text) before.length (before.length + text.length)
          (tokensFrom state before.length lexemes))
    · intro state before
      exact ⟨rfl, List.forall_mem_nil _⟩
    · intro l after hne hshape ih state before
      have hstyle (hkind : l.kind = .space) : (state.read l (ahead after)).2 = .blank := by
        simp [GrammarState.read, hkind]
      have hfirst := lexemeTokens_tiles hne hshape before (state.read l (ahead after)).1 hstyle
      have hrest := ih (state.read l (ahead after)).1 (before ++ l.text)
      rw [List.length_append, Nat.add_assoc, List.append_assoc] at hrest
      rw [List.length_append]
      exact hfirst.append hrest
  simpa [tokenize] using hfrom .initial []

end Highlight
end EmbeddedGraphQL
