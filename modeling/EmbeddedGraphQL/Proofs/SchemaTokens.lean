import EmbeddedGraphQL.Proofs.Accepted
import EmbeddedGraphQL.Proofs.Agreement
import EmbeddedGraphQL.Proofs.Rounds
import EmbeddedGraphQL.Proofs.Tiling
import EmbeddedGraphQL.Service.Command
import Mathlib

/-!
Tokens of a text that defines types. The symbols of a text stand one behind another in it, and what
is filled in between and behind them makes tokens that tile the text. A text that cannot be read to
its end ends in one invalid token.
-/
namespace EmbeddedGraphQL

namespace Symbol

theorem blockBody_length_le {taken n : Nat} {lines lines' : List (List Char)}
    {line text : List Char} (h : blockBody taken lines line text = .ok (lines', n)) :
    n ≤ taken + text.length := by
  fun_induction blockBody taken lines line text with
  | case1 taken lines line rest =>
    cases h
    simp only [List.length_cons]
    omega
  | case2 taken lines line rest ih | case3 taken lines line rest ih =>
    have hle := ih h
    simp only [List.length_cons]
    omega
  | case4 taken lines line c rest _ _ _ _ ih | case5 taken lines line c rest _ _ _ _ ih =>
    have hle := ih h
    simp only [List.length_cons]
    omega
  | case6 => cases h

/-- A round takes no more characters than there are. -/
theorem munch_taken_le {c : Char} {rest : List Char} {n : Nat}
    (hn : (munch c rest).taken? = some n) : n ≤ rest.length := by
  have hshape := munch_shape c rest
  generalize munch c rest = munched at hn hshape
  cases hshape with
  | blank | punctuator =>
    cases hn
    exact Nat.zero_le _
  | comment | name =>
    cases hn
    exact (List.takeWhile_prefix _).length_le
  | string _ _ hbody =>
    cases hn
    obtain ⟨piece, after, rfl, rfl, -, -⟩ := stringBody_takes hbody
    rw [List.length_append]
    omega
  | blockString _ hrest hbody =>
    cases hn
    have hle := blockBody_length_le hbody
    subst hrest
    simp only [List.length_cons]
    omega
  | spread _ hdots =>
    cases hn
    exact hdots.length_le
  | number _ hnumber =>
    cases hn
    have hle := (number_chars hnumber).1.length_le
    rw [List.length_cons] at hle
    omega
  | problem => cases hn

end Symbol

namespace SymbolList

/-- Symbols that stand one behind another between two offsets, each with a length. -/
def Laid (start stop : Nat) : List Symbol → Prop
  | [] => start ≤ stop
  | s :: rest => start ≤ s.start ∧ s.start < s.stop ∧ Laid s.stop stop rest

/-- Where the last symbol ends; `start` if there is none. -/
def lastStop (start : Nat) (symbols : List Symbol) : Nat := symbols.foldl (fun _ s => s.stop) start

theorem Laid.of_le {start start' stop : Nat} {symbols : List Symbol} (h : Laid start' stop symbols)
    (hle : start ≤ start') : Laid start stop symbols := by
  cases symbols with
  | nil => exact hle.trans h
  | cons s rest => exact ⟨hle.trans h.1, h.2⟩

theorem lastStop_mono {start start' : Nat} (hle : start ≤ start') (symbols : List Symbol) :
    lastStop start symbols ≤ lastStop start' symbols := by
  cases symbols with
  | nil => exact hle
  | cons s rest => exact le_rfl

/-- The symbols that are read stand one behind another in the text, and a problem leaves some of
the text behind them. -/
theorem readFrom_laid (offset : Nat) (text : List Char) :
    Laid offset (offset + text.length) (readFrom offset text).symbols ∧
      ((readFrom offset text).problem ≠ none →
        lastStop offset (readFrom offset text).symbols < offset + text.length) := by
  have hbehind {rest : List Char} {n : Nat} {c : Char} (offset : Nat)
      (hn : (Symbol.munch c rest).taken? = some n) :
      offset + 1 + n + (rest.drop n).length = offset + (c :: rest).length := by
    have hle := Symbol.munch_taken_le hn
    rw [List.length_drop, List.length_cons]
    omega
  fun_induction readFrom offset text with
  | case1 offset => exact ⟨le_rfl, fun h => absurd rfl h⟩
  | case2 offset c rest n hmunch ih =>
    rw [hbehind offset (by rw [hmunch]; rfl)] at ih
    obtain ⟨hlaid, hproblem⟩ := ih
    refine ⟨hlaid.of_le (by omega), fun h => ?_⟩
    exact (lastStop_mono (by omega) _).trans_lt (hproblem h)
  | case3 offset c rest kind value n hmunch after ih =>
    rw [hbehind offset (by rw [hmunch]; rfl)] at ih
    obtain ⟨hlaid, hproblem⟩ := ih
    exact ⟨⟨le_rfl, (Nat.lt_succ_self offset).trans_le (Nat.le_add_right ..), hlaid⟩, hproblem⟩
  | case4 offset c rest problem distance _ =>
    exact ⟨Nat.le_add_right .., fun _ => Nat.lt_add_of_pos_right (Nat.succ_pos _)⟩

end SymbolList

namespace SchemaText
open SymbolList

variable {text : List Char} {uses : List NameUse} {position : Nat} {symbols : List Symbol}

theorem token_tiles {start stop : Nat} (hlt : start < stop) (style : Style) (kind : Option String) :
    Tiles text start stop [token text style kind start stop] :=
  Tiles.singleton (Int.ofNat_lt.mpr hlt) rfl

theorem gap_tiles {start stop : Nat} (hle : start ≤ stop) :
    Tiles text start stop (gap text start stop) := by
  unfold gap
  split_ifs with hlt
  · exact token_tiles hlt .blank none
  · obtain rfl : start = stop := by omega
    exact rfl

/-- Symbols that stand one behind another are filled up to tokens that tile the rest of the text. -/
theorem tokensFrom_tiles (uses : List NameUse) (broken : Bool)
    (h : Laid position text.length symbols) :
    Tiles text position text.length (tokensFrom text uses broken position symbols) := by
  induction symbols generalizing position with
  | nil =>
    rw [tokensFrom]
    by_cases hlt : position < text.length
    · rw [if_pos hlt]
      exact token_tiles hlt _ none
    · obtain rfl : position = text.length := Nat.le_antisymm h (not_lt.mp hlt)
      rw [if_neg hlt]
      exact rfl
  | cons s rest ih =>
    obtain ⟨hle, hlt, hrest⟩ := h
    exact (gap_tiles hle).append ((token_tiles hlt _ _).append (ih hrest))

/-- Every symbol is the place of a token, in the order of the symbols. -/
theorem symbols_sublist (broken : Bool) (symbols : List Symbol) :
    (symbols.map fun s => ((s.start, s.stop) : Int × Int)).Sublist
      ((tokensFrom text uses broken position symbols).map fun t => (t.start, t.stop)) := by
  induction symbols generalizing position with
  | nil => exact List.nil_sublist _
  | cons s rest ih =>
    rw [tokensFrom, List.map_append, List.map_cons]
    exact (ih.cons_cons _).trans (List.sublist_append_right _ _)

/-- A symbol that names nothing is not shown as invalid. -/
theorem classify_ne_invalid (s : Symbol) : (classify [] s).1 ≠ .invalid := by
  unfold classify
  cases s.kind with
  | name =>
    dsimp only [List.find?_nil]
    split_ifs <;> decide
  | string | blockString | int | float | punctuator => exact nofun

/-- Where a text cannot be read any further, the rest of it is the only invalid token. -/
theorem filter_invalid (hlt : lastStop position symbols < text.length) :
    (tokensFrom text [] true position symbols).filter (·.style = .invalid) =
      [token text .invalid none (lastStop position symbols) text.length] := by
  induction symbols generalizing position with
  | nil =>
    have hposition : position < text.length := hlt
    rw [tokensFrom, if_pos hposition]
    rfl
  | cons s rest ih =>
    have hgap : (gap text position s.start).filter (·.style = .invalid) = [] := by
      unfold gap
      split_ifs <;> rfl
    have hsymbol : ¬ (classify [] s).1 = .invalid := classify_ne_invalid s
    rw [tokensFrom, List.filter_append, hgap, List.nil_append, List.filter_cons_of_neg]
    · exact ih hlt
    · exact fun hstyle => hsymbol (of_decide_eq_true hstyle)

/-- A text with a problem is no document, so that its names name nothing. -/
theorem read_tokens_of_problem (h : (ofText text).problem ≠ none) :
    (read text).tokens = tokensFrom text [] true 0 (ofText text).symbols := by
  unfold read
  cases hparse : Document.parse text with
  | ok document => exact absurd (Document.phrase_of_parse hparse).1 h
  | error e =>
    have hbroken : (ofText text).problem.isSome = true := Option.isSome_iff_ne_none.mpr h
    change tokens text [] = _
    rw [tokens, hbroken]

theorem exists_read_tokens (text : List Char) : ∃ uses,
    (read text).tokens =
      tokensFrom text uses (ofText text).problem.isSome 0 (ofText text).symbols := by
  unfold read
  cases Document.parse text with
  | ok document => exact ⟨NameUse.ofDocument document, rfl⟩
  | error e => exact ⟨[], rfl⟩

/-- The tokens of a text tile it. Every symbol up to the first problem is one of them, and where
there is a problem, what stands behind the last of these symbols is the only invalid token. -/
theorem schemaTokens_cover (buffer : List Char) :
    let tokens := (read buffer).tokens
    let symbols := (ofText buffer).symbols
    Service.schemaTokens buffer =
        .obj [("tokens", .arr (tokens.map Token.toJson)), ("ast", (read buffer).outline)] ∧
      Tiles buffer 0 buffer.length tokens ∧
      tokens.flatMap (·.text) = buffer ∧
      (symbols.map fun s => ((s.start, s.stop) : Int × Int)).Sublist
        (tokens.map fun t => (t.start, t.stop)) ∧
      ((ofText buffer).problem ≠ none →
        tokens.filter (·.style = .invalid) =
          [token buffer .invalid none (lastStop 0 symbols) buffer.length]) := by
  intro tokens symbols
  obtain ⟨hlaid, hproblem⟩ := readFrom_laid 0 buffer
  rw [Nat.zero_add] at hlaid hproblem
  obtain ⟨uses, htokens⟩ := exists_read_tokens buffer
  have htiles : Tiles buffer 0 buffer.length tokens := by
    rw [show tokens = _ from htokens]
    exact tokensFrom_tiles uses _ hlaid
  refine ⟨rfl, htiles, ?_, ?_, ?_⟩
  · have htexts := htiles.texts le_rfl
    rwa [← Nat.cast_zero, Text.slice_eq_take_drop, Nat.sub_zero, List.drop_zero,
      List.take_length] at htexts
  · rw [show tokens = _ from htokens]
    exact symbols_sublist _ _
  · intro hsome
    rw [show tokens = _ from read_tokens_of_problem hsome]
    exact filter_invalid (hproblem hsome)

/-- A comment, and a string that breaks off inside an escape sequence. -/
example : (read "type A #b\n\"\\u12".toList).tokens.filter (·.style = .invalid) =
    [⟨" #b\n\"\\u12".toList, .invalid, 6, 15, none, none⟩] := by
  decide +kernel

end SchemaText
end EmbeddedGraphQL
