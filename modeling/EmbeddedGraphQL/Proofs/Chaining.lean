import EmbeddedGraphQL.Embedding.Restoration
import EmbeddedGraphQL.Proofs.Overwriting
import EmbeddedGraphQL.Proofs.Tiling
import Mathlib

/-!
Chaining restored tokens. A token that shows the text of the buffer at its place tiles that place
once it is finished, trimmed tokens and gaps show the buffer by construction, and so the chain tiles
the buffer if every token that is not trimmed is finished to the text at its place.
-/
namespace EmbeddedGraphQL.Restoration
open Text

/-- A token with a place in a text. -/
structure Placed (text : List Char) (token : Token) : Prop where
  start_nonneg : 0 ≤ token.start
  start_lt : token.start < token.stop
  stop_le : token.stop ≤ text.length

/-- A token that shows the text at its place. -/
structure Shows (text : List Char) (token : Token) : Prop extends Placed text token where
  text_eq : token.text = slice text token.start token.stop

theorem shows_piece {buffer : List Char} (token : Token) {start stop : Int} (hstart : 0 ≤ start)
    (hlt : start < stop) (hle : stop ≤ buffer.length) :
    Shows buffer (piece buffer token start stop) :=
  ⟨⟨hstart, hlt, hle⟩, rfl⟩

/-- The stops of spreads have their dots in front of them. -/
def Dotted (buffer : List Char) (ends : List Nat) : Prop :=
  ∀ stop ∈ ends, slice buffer (stop - spreadDots.length : Nat) stop = spreadDots

/-- The first characters of a text that shows another one from `start` on. -/
theorem take_eq_slice {shown text : List Char} {start last : Nat}
    (h : ∀ k, start ≤ k → k < last → shown[k - start]? = text[k]?) :
    shown.take (last - start) = slice text start last := by
  apply List.ext_getElem?
  intro k
  rw [List.getElem?_take, getElem?_slice]
  by_cases hk : start + k < last
  · have hsame := h (start + k) (Nat.le_add_right _ _) hk
    rw [if_pos (by omega), if_pos hk, ← hsame, Nat.add_sub_cancel_left]
  · rw [if_neg (by omega), if_neg hk]

/-- Drawing dots again gives the buffer back, if the token shows it everywhere but at the dots. -/
theorem withDots_tiles {buffer : List Char} {ends : List Nat} (hdots : Dotted buffer ends)
    {token : Token} {start stop : Nat} (hstart : token.start = start) (hstop : token.stop = stop)
    (hlt : start < stop) (hlength : token.text.length = stop - start)
    (htext : ∀ k, start ≤ k → k < stop → token.text[k - start]? = buffer[k]? ∨
      token.style = .blank ∧ stop ∈ ends ∧ start + spreadDots.length ≤ stop ∧
        stop ≤ k + spreadDots.length) :
    Tiles buffer start stop (withDots ends token) := by
  have hwidth : spreadDots.length = 3 := rfl
  have hmem : ends.any (fun e => (e : Int) == token.stop) = true ↔ stop ∈ ends := by
    simp [hstop]
  have hplain : (token.style ≠ .blank ∨ ¬ ends.any (fun e => (e : Int) == token.stop) = true ∨
      token.text.length < spreadDots.length) ↔
      ¬ (token.style = .blank ∧ stop ∈ ends ∧ start + spreadDots.length ≤ stop) := by
    have hwide : token.text.length < spreadDots.length ↔ ¬ start + spreadDots.length ≤ stop := by
      omega
    rw [hmem, not_and_or, not_and_or, hwide]
  unfold withDots
  dsimp only
  by_cases hdotted : token.style = .blank ∧ stop ∈ ends ∧ start + spreadDots.length ≤ stop
  · obtain ⟨hstyle, hend, hwide⟩ := hdotted
    have hdot := hdots stop hend
    rw [if_neg fun h => hplain.mp h ⟨hstyle, hend, hwide⟩]
    split_ifs with hwhole
    · have hfirst : stop - spreadDots.length = start := by omega
      rw [hfirst] at hdot
      refine ⟨hstart, by rw [hstart, hstop]; exact_mod_cast hlt, ?_, hstop⟩
      rw [hstart, hstop, hdot]
    · have hcut : token.stop - spreadDots.length = (stop - spreadDots.length : Nat) := by omega
      have htake : token.text.take (stop - spreadDots.length - start) = _ :=
        take_eq_slice fun k hk hlast => (htext k hk (by omega)).resolve_right fun h => by omega
      rw [show token.text.length - spreadDots.length = stop - spreadDots.length - start by omega,
        htake, hcut]
      refine ⟨hstart, by rw [hstart]; dsimp only; omega, by rw [hstart], rfl,
        by rw [hstop]; dsimp only; omega, ?_, hstop⟩
      rw [hstop, hdot]
  · rw [if_pos (hplain.mpr hdotted)]
    have hall : token.text.take (stop - start) = _ := take_eq_slice fun k hk hlast =>
      (htext k hk hlast).resolve_right fun h => hdotted ⟨h.1, h.2.1, h.2.2.1⟩
    rw [← hlength, List.take_length] at hall
    rw [← hstart, ← hstop]
    exact Tiles.singleton (by omega) (by rw [hall, hstart, hstop])

section Finish

variable {r : Extraction} (hdots : Dotted r.buffer r.scan.spreadEnds)
include hdots

/-- A token is finished to the text at its place if it overlaps blanked text, or if it shows the
buffer everywhere but at the dots of a spread. -/
theorem finish_tiles (token : Token) {start stop : Nat} (hstart : token.start = start)
    (hstop : token.stop = stop) (hlt : start < stop) (hle : stop ≤ r.buffer.length)
    (htext : r.scan.isBlanked start stop = false → token.text.length = stop - start ∧
      ∀ k, start ≤ k → k < stop → token.text[k - start]? = r.buffer[k]? ∨
        token.style = .blank ∧ stop ∈ r.scan.spreadEnds ∧ start + spreadDots.length ≤ stop ∧
          stop ≤ k + spreadDots.length) :
    Tiles r.buffer token.start token.stop (finish r token) := by
  unfold finish
  dsimp only
  rw [hstart, hstop]
  cases hblank : r.scan.isBlanked start stop with
  | true =>
    rw [if_pos rfl]
    refine withDots_tiles hdots rfl rfl hlt (length_slice hle) fun k hk hlast => Or.inl ?_
    rw [getElem?_slice, Nat.add_sub_of_le hk, if_pos hlast]
  | false =>
    obtain ⟨hlength, hshown⟩ := htext hblank
    rw [if_neg (by decide)]
    exact withDots_tiles hdots hstart hstop hlt hlength hshown

/-- A token that shows the buffer does so once it is finished. -/
theorem finish_tiles_of_shows {token : Token} (h : Shows r.buffer token) :
    Tiles r.buffer token.start token.stop (finish r token) := by
  obtain ⟨start, hstart⟩ := Int.eq_ofNat_of_zero_le h.start_nonneg
  obtain ⟨stop, hstop⟩ := Int.eq_ofNat_of_zero_le (h.start_nonneg.trans h.start_lt.le)
  have hlt := h.start_lt
  have hle := h.stop_le
  rw [hstart, hstop] at hlt
  rw [hstop] at hle
  have hle : stop ≤ r.buffer.length := Int.ofNat_le.mp hle
  refine finish_tiles hdots token hstart hstop (Int.ofNat_lt.mp hlt) hle fun _ => ?_
  rw [h.text_eq, hstart, hstop]
  refine ⟨length_slice hle, fun k hk hlast => Or.inl ?_⟩
  rw [getElem?_slice, Nat.add_sub_of_le hk, if_pos hlast]

/-- The text of the buffer in a gap. -/
theorem gap_tiles {start stop : Int} (hstart : 0 ≤ start) (hlt : start < stop)
    (hle : stop ≤ r.buffer.length) (last : Option Token) :
    Tiles r.buffer start stop (finish r (gap r.buffer start stop last)) := by
  have hshows : Shows r.buffer (gap r.buffer start stop last) := ⟨⟨hstart, hlt, hle⟩, rfl⟩
  exact finish_tiles_of_shows hdots hshows

end Finish

/-- Whether tokens make a chain that shows the buffer, once it has reached an offset: each has a
place, and is finished to the text there unless what has been reached trims it. -/
def Sound (r : Extraction) : Int → List Token → Prop
  | _, [] => True
  | reach, token :: rest =>
    Placed r.buffer token ∧
      (reach ≤ token.start → Tiles r.buffer token.start token.stop (finish r token)) ∧
      Sound r (max reach token.stop) rest

/-- What a chain has reached after some tokens. -/
def reached (reach : Int) (tokens : List Token) : Int :=
  tokens.foldl (fun reach token => max reach token.stop) reach

theorem le_reached (reach : Int) (tokens : List Token) : reach ≤ reached reach tokens := by
  induction tokens generalizing reach with
  | nil => exact le_rfl
  | cons token rest ih => exact (le_max_left _ _).trans (ih _)

theorem stop_le_reached (reach : Int) {tokens : List Token} {token : Token}
    (h : token ∈ tokens) : token.stop ≤ reached reach tokens := by
  induction tokens generalizing reach with
  | nil => simp at h
  | cons first rest ih =>
    rcases List.mem_cons.mp h with rfl | h
    · exact (le_max_right _ _).trans (le_reached _ rest)
    · exact ih _ h

theorem Sound.append {r : Extraction} {reach : Int} {tokens more : List Token}
    (h : Sound r reach tokens) (h' : Sound r (reached reach tokens) more) :
    Sound r reach (tokens ++ more) := by
  induction tokens generalizing reach with
  | nil => exact h'
  | cons token rest ih =>
    obtain ⟨hplaced, htiles, hrest⟩ := h
    exact ⟨hplaced, htiles, ih hrest h'⟩

theorem sound_of_shows {r : Extraction} (hdots : Dotted r.buffer r.scan.spreadEnds)
    {tokens : List Token} (h : ∀ token ∈ tokens, Shows r.buffer token) (reach : Int) :
    Sound r reach tokens := by
  induction tokens generalizing reach with
  | nil => trivial
  | cons token rest ih =>
    obtain ⟨hshows, hrest⟩ := List.forall_mem_cons.mp h
    exact ⟨hshows.toPlaced, fun _ => finish_tiles_of_shows hdots hshows, ih hrest _⟩

/-- What is left of a token behind what a chain has reached. -/
def trimmed (r : Extraction) (reach : Int) (token : Token) : Token :=
  if token.start < reach then piece r.buffer token reach token.stop else token

@[simp] theorem trimmed_stop (r : Extraction) (reach : Int) (token : Token) :
    (trimmed r reach token).stop = token.stop := by
  unfold trimmed
  split_ifs <;> rfl

@[simp] theorem trimmed_style (r : Extraction) (reach : Int) (token : Token) :
    (trimmed r reach token).style = token.style := by
  unfold trimmed
  split_ifs <;> rfl

theorem le_trimmed_start (r : Extraction) (reach : Int) (token : Token) :
    token.start ≤ (trimmed r reach token).start := by
  unfold trimmed
  split_ifs with htrim
  · exact htrim.le
  · exact le_rfl

/-- What is left of a token of a chain is finished to the text at its place. -/
theorem trimmed_tiles {r : Extraction} (hdots : Dotted r.buffer r.scan.spreadEnds) {reach : Int}
    (hreach : 0 ≤ reach) {token : Token} (hplaced : Placed r.buffer token)
    (hfinish : reach ≤ token.start → Tiles r.buffer token.start token.stop (finish r token))
    (hstop : reach < token.stop) :
    reach ≤ (trimmed r reach token).start ∧ (trimmed r reach token).start < token.stop ∧
      Tiles r.buffer (trimmed r reach token).start token.stop
        (finish r (trimmed r reach token)) := by
  unfold trimmed
  split_ifs with htrim
  · exact ⟨le_rfl, hstop,
      finish_tiles_of_shows hdots (shows_piece token hreach hstop hplaced.stop_le)⟩
  · have hfirst := not_lt.mp htrim
    exact ⟨hfirst, hplaced.start_lt, hfinish hfirst⟩

/-- A token that goes on behind what has been reached is trimmed and chained. -/
theorem chainFrom_cons {r : Extraction} {token : Token} {rest : List Token} {reach : Int}
    (hlt : token.start < token.stop) (hstop : reach < token.stop) (last : Option Token) :
    chainFrom r last reach (token :: rest) =
      (if reach < (trimmed r reach token).start then
        finish r (gap r.buffer reach (trimmed r reach token).start last) else []) ++
      finish r (trimmed r reach token) ++
      chainFrom r (finish r (trimmed r reach token)).getLast?
        (((finish r (trimmed r reach token)).getLast?.map (·.stop)).getD token.stop) rest := by
  rw [chainFrom, if_neg hlt.not_ge, if_neg fun hcovered => hcovered.2.not_gt hstop]
  conv_rhs => rw [← trimmed_stop r reach token]
  rfl

/-- A sound chain tiles the buffer from what has been reached on. -/
theorem chainFrom_tiles {r : Extraction} (hdots : Dotted r.buffer r.scan.spreadEnds)
    {tokens : List Token} {reach : Int} (h : Sound r reach tokens) (hreach : 0 ≤ reach)
    (hle : reach ≤ r.buffer.length) (last : Option Token) :
    Tiles r.buffer reach r.buffer.length (chainFrom r last reach tokens) := by
  induction tokens generalizing reach last with
  | nil =>
    unfold chainFrom
    split_ifs with hlt
    · exact gap_tiles hdots hreach hlt le_rfl last
    · exact le_antisymm hle (not_lt.mp hlt)
  | cons token rest ih =>
    obtain ⟨hplaced, hfinish, hrest⟩ := h
    have hlt := hplaced.start_lt
    rcases le_or_gt token.stop reach with hcovered | hstop
    · rw [chainFrom, if_neg hlt.not_ge, if_pos ⟨hlt.trans_le hcovered, hcovered⟩]
      rw [max_eq_left hcovered] at hrest
      exact ih hrest hreach hle last
    rw [max_eq_right hstop.le] at hrest
    obtain ⟨hfirst, hlast, htiles⟩ := trimmed_tiles hdots hreach hplaced hfinish hstop
    rw [chainFrom_cons hlt hstop]
    have hbefore : Tiles r.buffer reach (trimmed r reach token).start
        (if reach < (trimmed r reach token).start then
          finish r (gap r.buffer reach (trimmed r reach token).start last) else []) := by
      split_ifs with hgap
      · exact gap_tiles hdots hreach hgap (hlast.le.trans hplaced.stop_le) last
      · exact le_antisymm hfirst (not_lt.mp hgap)
    obtain ⟨done, hget, hend⟩ := htiles.getLast_stop hlast
    rw [hget, Option.map_some, Option.getD_some, hend]
    have hnext := ih hrest (hreach.trans hstop.le) hplaced.stop_le (some done)
    exact (hbefore.append htiles).append hnext

/-- Templates that are pieces of a buffer, in the order of their places. -/
structure Pieces (buffer : List Char) (templates : List Template) : Prop where
  ordered : templates.Pairwise fun t u => t.stop ≤ u.start
  nonempty : ∀ t ∈ templates, t.start < t.stop
  stop_le : ∀ t ∈ templates, t.stop ≤ buffer.length
  text_eq : ∀ t ∈ templates, t.text = slice buffer t.start t.stop

theorem Pieces.tail {buffer : List Char} {t : Template} {rest : List Template}
    (h : Pieces buffer (t :: rest)) : Pieces buffer rest where
  ordered := (List.pairwise_cons.mp h.ordered).2
  nonempty := (List.forall_mem_cons.mp h.nonempty).2
  stop_le := (List.forall_mem_cons.mp h.stop_le).2
  text_eq := (List.forall_mem_cons.mp h.text_eq).2

theorem Pieces.apart {buffer : List Char} {templates : List Template}
    (h : Pieces buffer templates) {t u : Template} (ht : t ∈ templates) (hu : u ∈ templates)
    (hne : t ≠ u) : t.stop ≤ u.start ∨ u.stop ≤ t.start :=
  Template.apart_of_ordered h.ordered ht hu hne

theorem Pieces.eq_of_covers {buffer : List Char} {templates : List Template}
    (h : Pieces buffer templates) {t u : Template} (ht : t ∈ templates) (hu : u ∈ templates)
    {k : Nat} (hcovers : t.Covers k) (hcovers' : u.Covers k) : t = u := by
  by_contra hne
  obtain ⟨hstart, hstop⟩ := hcovers
  obtain ⟨hstart', hstop'⟩ := hcovers'
  rcases h.apart ht hu hne with hle | hle <;> omega

/-- Whether a template starts in a token. -/
def StartsIn (t : Template) (token : Token) : Prop :=
  token.start ≤ t.start ∧ (t.start : Int) < token.stop

/-- A token in which no template starts is left alone. -/
theorem withTemplates_of_none {buffer : List Char} {templates : List Template} {token : Token}
    (hlt : token.start < token.stop) (h : ∀ t ∈ templates, ¬ StartsIn t token) :
    withTemplates buffer templates token = [token] := by
  induction templates with
  | nil => rfl
  | cons t rest ih =>
    obtain ⟨hfirst, hrest⟩ := List.forall_mem_cons.mp h
    unfold StartsIn at hfirst
    rw [withTemplates]
    dsimp only
    by_cases hbefore : (t.start : Int) < token.start
    · rw [if_pos hbefore]
      exact ih hrest
    · rw [if_neg hbefore, if_neg (by omega), if_neg (by omega)]

/-- Behind the template that starts at or after the end of a token, none starts in the token. -/
theorem Pieces.not_startsIn {buffer : List Char} {t : Template} {rest : List Template}
    (h : Pieces buffer (t :: rest)) {token : Token} (hstop : token.stop ≤ t.stop) :
    ∀ u ∈ rest, ¬ StartsIn u token := by
  intro u hu hstart
  have hafter := (List.pairwise_cons.mp h.ordered).1 u hu
  have := hstart.2
  omega

/-- The text of a token in which a template starts is not looked at. -/
theorem withTemplates_congr {buffer : List Char} {templates : List Template}
    (hpieces : Pieces buffer templates) {token : Token}
    (h : ∃ t ∈ templates, StartsIn t token) (text : List Char) :
    withTemplates buffer templates token =
      withTemplates buffer templates { token with text := text } := by
  induction templates with
  | nil => simp at h
  | cons t rest ih =>
    obtain ⟨u, hu, hstart⟩ := h
    rw [withTemplates, withTemplates]
    dsimp only
    by_cases hbefore : (t.start : Int) < token.start
    · rw [if_pos hbefore, if_pos hbefore]
      refine ih hpieces.tail ⟨u, (List.mem_cons.mp hu).resolve_left ?_, hstart⟩
      rintro rfl
      exact absurd hstart.1 (not_le.mpr hbefore)
    rw [if_neg hbefore, if_neg hbefore]
    by_cases hat : (t.start : Int) = token.start
    · rw [if_pos hat, if_pos hat]
      rfl
    rw [if_neg hat, if_neg hat]
    by_cases hin : (t.start : Int) < token.stop
    · rw [if_pos hin, if_pos hin]
      rfl
    · have hlt := hpieces.nonempty t List.mem_cons_self
      rcases List.mem_cons.mp hu with rfl | hu
      · exact absurd hstart.2 hin
      · exact absurd hstart (hpieces.not_startsIn (by omega) u hu)

/-- What a piece of a token is: a part of the token in which no template starts, or a template that
starts in the token. -/
inductive PieceOf (templates : List Template) (token piece : Token) : Prop
  | part : piece.style = token.style → token.start ≤ piece.start → piece.stop ≤ token.stop →
      (∀ t ∈ templates, ¬ StartsIn t piece) → PieceOf templates token piece
  | template {t : Template} : t ∈ templates → StartsIn t token → piece.style = .template →
      piece.start = t.start → piece.stop = t.stop → PieceOf templates token piece

namespace PieceOf

variable {templates others : List Template} {token other piece : Token}

theorem start_le (h : PieceOf templates token piece) : token.start ≤ piece.start := by
  cases h with
  | part _ hstart => exact hstart
  | template _ hstarts _ hstart => exact hstart ▸ hstarts.1

/-- A piece of the rest of a token is a piece of the token. The templates left out start in front
of the rest. -/
theorem of_rest (h : PieceOf others other piece) (hothers : others ⊆ templates)
    (hbefore : ∀ t ∈ templates, t ∈ others ∨ t.start < other.start)
    (hstyle : other.style = token.style) (hstart : token.start ≤ other.start)
    (hstop : other.stop = token.stop) : PieceOf templates token piece := by
  have hfirst := h.start_le
  cases h with
  | part hstyle' hstart' hstop' hnone =>
    refine .part (hstyle'.trans hstyle) (hstart.trans hstart') (hstop ▸ hstop') fun t ht hin => ?_
    rcases hbefore t ht with ht | hlt
    · exact hnone t ht hin
    · have := hin.1
      omega
  | template ht hstarts hstyle' hstart' hstop' =>
    exact .template (hothers ht) ⟨hstart.trans hstarts.1, hstop ▸ hstarts.2⟩ hstyle' hstart' hstop'

end PieceOf

/-- What restored pieces of a token make up: they tile the buffer from the start of the token to its
end or to that of the last template in it. -/
structure Restores (buffer : List Char) (templates : List Template) (token : Token)
    (pieces : List Token) : Prop where
  tiles : ∃ last, token.stop ≤ last ∧ Tiles buffer token.start last pieces
  pieceOf : ∀ piece ∈ pieces, PieceOf templates token piece

namespace Restores

variable {buffer : List Char} {templates others : List Template} {token other first : Token}
  {pieces : List Token}

theorem singleton (h : Shows buffer first) (hstart : first.start = token.start)
    (hstop : token.stop ≤ first.stop) (hpiece : PieceOf templates token first) :
    Restores buffer templates token [first] where
  tiles := ⟨first.stop, hstop, hstart ▸ Tiles.singleton h.start_lt h.text_eq⟩
  pieceOf := List.forall_mem_singleton.mpr hpiece

/-- One more piece in front of those of the rest of a token. -/
theorem cons (hrest : Restores buffer others other pieces) (h : Shows buffer first)
    (hstart : first.start = token.start) (hnext : other.start = first.stop)
    (hpiece : PieceOf templates token first) (hothers : others ⊆ templates)
    (hbefore : ∀ t ∈ templates, t ∈ others ∨ t.start < other.start)
    (hstyle : other.style = token.style) (hstop : other.stop = token.stop) :
    Restores buffer templates token (first :: pieces) where
  tiles := by
    obtain ⟨last, hlast, htiles⟩ := hrest.tiles
    exact ⟨last, hstop ▸ hlast, hstart, h.start_lt, h.text_eq, hnext ▸ htiles⟩
  pieceOf := by
    have hlt := h.start_lt
    exact List.forall_mem_cons.mpr ⟨hpiece, fun piece hmem =>
      (hrest.pieceOf piece hmem).of_rest hothers hbefore hstyle (by omega) hstop⟩

/-- The end of the token is reached. -/
theorem exists_stop (h : Restores buffer templates token pieces)
    (hlt : token.start < token.stop) : ∃ piece ∈ pieces, token.stop ≤ piece.stop := by
  obtain ⟨last, hlast, htiles⟩ := h.tiles
  obtain ⟨piece, hpiece, hstop⟩ := htiles.getLast_stop (hlt.trans_le hlast)
  exact ⟨piece, List.mem_of_getLast? hpiece, hstop ▸ hlast⟩

/-- Each piece shows the buffer. -/
theorem shows (h : Restores buffer templates token pieces) (hpieces : Pieces buffer templates)
    (hplaced : Placed buffer token) : ∀ piece ∈ pieces, Shows buffer piece := by
  obtain ⟨last, -, htiles⟩ := h.tiles
  intro piece hpiece
  obtain ⟨hstart, hlt, -⟩ := htiles.bounds piece hpiece
  refine ⟨⟨hplaced.start_nonneg.trans hstart, hlt, ?_⟩, htiles.text_eq piece hpiece⟩
  cases h.pieceOf piece hpiece with
  | part _ _ hstop => exact hstop.trans hplaced.stop_le
  | template ht _ _ _ hstop => exact hstop ▸ Int.ofNat_le.mpr (hpieces.stop_le _ ht)

/-- The end of every template that starts in the token is reached. -/
theorem exists_template_stop (h : Restores buffer templates token pieces)
    (hpieces : Pieces buffer templates) {t : Template} (ht : t ∈ templates)
    (hstarts : StartsIn t token) : ∃ piece ∈ pieces, t.stop ≤ piece.stop := by
  obtain ⟨last, hlast, htiles⟩ := h.tiles
  obtain ⟨piece, howner⟩ := htiles.existsUnique_covers hstarts.1 (hstarts.2.trans_le hlast)
  obtain ⟨hmem, hcovers⟩ := (howner piece).mpr rfl
  refine ⟨piece, hmem, ?_⟩
  cases h.pieceOf piece hmem with
  | part _ _ _ hnone => exact absurd hcovers (hnone t ht)
  | template hu _ _ hstart hstop =>
    rw [Token.Covers, hstart, hstop] at hcovers
    obtain rfl := hpieces.eq_of_covers ht hu ⟨le_rfl, hpieces.nonempty t ht⟩
      ⟨Int.ofNat_le.mp hcovers.1, Int.ofNat_lt.mp hcovers.2⟩
    exact hstop.ge

end Restores

theorem Pieces.shows_asTemplate {buffer : List Char} {templates : List Template}
    (h : Pieces buffer templates) {t : Template} (ht : t ∈ templates) {token : Token}
    (hat : token.start = t.start) :
    Shows buffer (asTemplate token t) ∧ (asTemplate token t).stop = t.stop := by
  have hlt := h.nonempty t ht
  have hle := h.stop_le t ht
  have hstop : (asTemplate token t).stop = t.stop := by
    change token.start + t.text.length = _
    rw [hat, Template.stop]
    omega
  refine ⟨⟨⟨?_, ?_, ?_⟩, ?_⟩, hstop⟩
  · exact hat ▸ Int.natCast_nonneg _
  · rw [hstop]
    exact hat ▸ Int.ofNat_lt.mpr hlt
  · rw [hstop]
    exact Int.ofNat_le.mpr hle
  · rw [hstop]
    exact hat ▸ h.text_eq t ht

theorem withTemplates_restores {buffer : List Char} {templates : List Template}
    (hpieces : Pieces buffer templates) {token : Token} (h : Shows buffer token) :
    Restores buffer templates token (withTemplates buffer templates token) := by
  induction templates generalizing token with
  | nil => exact Restores.singleton h rfl le_rfl (.part rfl le_rfl le_rfl (by simp))
  | cons t rest ih =>
    have hlt := hpieces.nonempty t List.mem_cons_self
    have hsubset : rest ⊆ t :: rest := List.subset_cons_self t rest
    have hleft {start : Int} (h : t.start < start) : ∀ u ∈ t :: rest, u ∈ rest ∨ u.start < start :=
      List.forall_mem_cons.mpr ⟨Or.inr h, fun u hu => Or.inl hu⟩
    have hopened {token : Token} (h : Shows buffer token) (hat : token.start = t.start) :
        Restores buffer (t :: rest) token
          (if token.stop ≤ t.stop then [asTemplate token t]
          else asTemplate (piece buffer token token.start t.stop) t ::
            withTemplates buffer rest (piece buffer token t.stop token.stop)) := by
      have hstarts : StartsIn t token := ⟨hat.le, hat ▸ h.start_lt⟩
      split_ifs with hinside
      · obtain ⟨hshows, hstop⟩ := hpieces.shows_asTemplate List.mem_cons_self hat
        exact Restores.singleton hshows rfl (hstop ▸ hinside)
          (.template List.mem_cons_self hstarts rfl hat hstop)
      · obtain ⟨hshows, hstop⟩ := hpieces.shows_asTemplate List.mem_cons_self
          (show (piece buffer token token.start t.stop).start = t.start from hat)
        have hrest := ih hpieces.tail
          (shows_piece token (Int.natCast_nonneg t.stop) (not_le.mp hinside) h.stop_le)
        exact hrest.cons hshows rfl hstop.symm
          (.template List.mem_cons_self hstarts rfl hat hstop) hsubset
          (hleft (Int.ofNat_lt.mpr hlt)) rfl rfl
    rw [withTemplates]
    dsimp only
    by_cases hbefore : (t.start : Int) < token.start
    · rw [if_pos hbefore]
      have hrest := ih hpieces.tail h
      exact ⟨hrest.tiles, fun piece hpiece => (hrest.pieceOf piece hpiece).of_rest hsubset
        (hleft hbefore) rfl le_rfl rfl⟩
    rw [if_neg hbefore]
    by_cases hat : (t.start : Int) = token.start
    · rw [if_pos hat]
      exact hopened h hat.symm
    rw [if_neg hat]
    by_cases hin : (t.start : Int) < token.stop
    · rw [if_pos hin]
      have hshows : Shows buffer (piece buffer token token.start t.start) :=
        shows_piece token h.start_nonneg (by omega) (hin.le.trans h.stop_le)
      have hrest := hopened
        (shows_piece token (Int.natCast_nonneg t.start) hin h.stop_le) rfl
      refine hrest.cons hshows rfl rfl (.part rfl le_rfl hin.le (List.forall_mem_cons.mpr
        ⟨fun hstarts => lt_irrefl _ hstarts.2, ?_⟩)) (List.Subset.refl _) (fun u hu => Or.inl hu)
        rfl rfl
      exact hpieces.not_startsIn (Int.ofNat_le.mpr hlt.le)
    · rw [if_neg hin]
      exact Restores.singleton h rfl le_rfl (.part rfl le_rfl le_rfl (List.forall_mem_cons.mpr
        ⟨fun hstarts => hin hstarts.2, hpieces.not_startsIn (by omega)⟩))

end EmbeddedGraphQL.Restoration
