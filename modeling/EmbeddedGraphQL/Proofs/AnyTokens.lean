import EmbeddedGraphQL.Proofs.RoundTrip
import Mathlib

/-!
Restoring whatever tokens another tool gives. Their places may be any integers, in any order. Every
round of splitting a token moves on to the right, so splitting comes to an end, and what is restored
is a chain from the start of the buffer to its end or to that of the token that reaches furthest.
-/
namespace EmbeddedGraphQL.Restoration

/-- Each token starts where the one before it stops; the first starts at `start` and the last stops
at `stop`. -/
def Linked (start stop : Int) : List Token → Prop
  | [] => start = stop
  | token :: rest => token.start = start ∧ Linked token.stop stop rest

namespace Linked

variable {start middle stop : Int} {tokens more : List Token}

theorem append (h : Linked start middle tokens) (h' : Linked middle stop more) :
    Linked start stop (tokens ++ more) := by
  induction tokens generalizing start with
  | nil => exact (show start = middle from h) ▸ h'
  | cons token rest ih => exact ⟨h.1, ih h.2⟩

theorem singleton (token : Token) : Linked token.start token.stop [token] := ⟨rfl, rfl⟩

theorem getLast_stop (h : Linked start stop tokens) (hne : tokens ≠ []) :
    ∃ last, tokens.getLast? = some last ∧ last.stop = stop := by
  obtain ⟨last, hlast⟩ := Option.ne_none_iff_exists'.mp (mt List.getLast?_eq_none_iff.mp hne)
  refine ⟨last, hlast, ?_⟩
  induction tokens generalizing start with
  | nil => exact absurd rfl hne
  | cons token rest ih =>
    cases rest with
    | nil =>
      cases hlast
      exact h.2
    | cons next rest => exact ih h.2 (by simp) (by rwa [List.getLast?_cons_cons] at hlast)

end Linked

/-! Finished tokens -/

/-- Drawing dots splits a token, if at all, and leaves its ends where they are. -/
theorem withDots_linked (ends : List Nat) (token : Token) :
    Linked token.start token.stop (withDots ends token) ∧ withDots ends token ≠ [] := by
  unfold withDots
  dsimp only
  split_ifs
  · exact ⟨.singleton token, List.cons_ne_nil _ _⟩
  · exact ⟨⟨rfl, rfl⟩, List.cons_ne_nil _ _⟩
  · exact ⟨⟨rfl, rfl, rfl⟩, List.cons_ne_nil _ _⟩

theorem finish_linked (r : Extraction) (token : Token) :
    Linked token.start token.stop (finish r token) ∧ finish r token ≠ [] := by
  unfold finish
  dsimp only
  split_ifs
  · exact withDots_linked _ { token with text := Text.slice r.buffer token.start token.stop }
  · exact withDots_linked _ token

/-! The chain -/

/-- Where a chain ends that has reached an offset: at the end of the buffer, or where the token with
a length stops that reaches further. -/
def chainEnd (r : Extraction) (reach : Int) (tokens : List Token) : Int :=
  max (reached reach (tokens.filter fun token => token.start < token.stop)) r.buffer.length

theorem chainFrom_linked (r : Extraction) (tokens : List Token) (last : Option Token)
    (reach : Int) :
    Linked reach (chainEnd r reach tokens) (chainFrom r last reach tokens) := by
  induction tokens generalizing last reach with
  | nil =>
    unfold chainFrom
    split_ifs with hlt
    · rw [chainEnd, List.filter_nil, reached, List.foldl_nil, max_eq_right hlt.le]
      exact (finish_linked r (gap r.buffer reach r.buffer.length last)).1
    · exact (max_eq_left (not_lt.mp hlt)).symm
  | cons token rest ih =>
    by_cases hempty : token.stop ≤ token.start
    · rw [chainFrom, if_pos hempty, chainEnd, List.filter_cons_of_neg (by simpa using hempty)]
      exact ih last reach
    have hlt := not_le.mp hempty
    have hend : chainEnd r reach (token :: rest) = chainEnd r (max reach token.stop) rest := by
      rw [chainEnd, List.filter_cons_of_pos (by simpa using hlt)]
      rfl
    rw [hend]
    rcases le_or_gt token.stop reach with hcovered | hstop
    · rw [chainFrom, if_neg hempty, if_pos ⟨hlt.trans_le hcovered, hcovered⟩,
        max_eq_left hcovered]
      exact ih last reach
    · rw [chainFrom_cons hlt hstop, max_eq_right hstop.le]
      obtain ⟨htoken, hne⟩ := finish_linked r (trimmed r reach token)
      rw [trimmed_stop] at htoken
      obtain ⟨done, hdone, hdoneStop⟩ := htoken.getLast_stop hne
      rw [hdone, Option.map_some, Option.getD_some, hdoneStop]
      refine (Linked.append ?_ htoken).append (ih _ _)
      have hreach : reach ≤ (trimmed r reach token).start := by
        unfold trimmed
        split_ifs with htrim
        · exact le_rfl
        · exact not_lt.mp htrim
      split_ifs with hgap
      · exact (finish_linked r (gap r.buffer reach (trimmed r reach token).start last)).1
      · exact le_antisymm hreach (not_lt.mp hgap)

/-! Splitting in rounds -/

/-- One round of splitting a token: the piece in front, and the rest that the next round goes on
with. A template that starts where the token does comes first, or else what lies in front of the
next template. -/
def splitOnce (buffer : List Char) (templates : List Template) (token : Token) :
    Token × Option Token :=
  match templates.find? fun t => (t.start : Int) = token.start with
  | some t =>
    if token.stop ≤ t.stop then (asTemplate token t, none)
    else (asTemplate (piece buffer token token.start t.stop) t,
      some (piece buffer token t.stop token.stop))
  | none =>
    match templates.find? fun t => token.start < t.start ∧ (t.start : Int) < token.stop with
    | some t => (piece buffer token token.start t.start,
        some (piece buffer token t.start token.stop))
    | none => (token, none)

/-- A round leaves a part of the token that starts further to the right. -/
theorem splitOnce_progress {buffer : List Char} {templates : List Template}
    (hpieces : Pieces buffer templates) {token rest : Token}
    (h : (splitOnce buffer templates token).2 = some rest) :
    token.start < rest.start ∧ rest.start < rest.stop ∧ rest.stop = token.stop := by
  unfold splitOnce at h
  split at h
  next t ht =>
    have hlt := hpieces.nonempty t (List.mem_of_find?_eq_some ht)
    have hat : (t.start : Int) = token.start := by simpa using List.find?_some ht
    split_ifs at h with hinside
    cases h
    change token.start < t.stop ∧ (t.stop : Int) < token.stop ∧ _
    exact ⟨by omega, not_le.mp hinside, rfl⟩
  next =>
    split at h
    next t ht =>
      have hin : token.start < t.start ∧ (t.start : Int) < token.stop := by
        simpa using List.find?_some ht
      cases h
      exact ⟨hin.1, hin.2, rfl⟩
    next => cases h

section

variable {buffer : List Char} {t : Template} {templates : List Template} {token : Token}

/-- Templates that start in front of a token are passed over. -/
theorem withTemplates_append {passed : List Template}
    (h : ∀ t ∈ passed, (t.start : Int) < token.start) (templates : List Template) :
    withTemplates buffer (passed ++ templates) token = withTemplates buffer templates token := by
  induction passed with
  | nil => rfl
  | cons t rest ih =>
    obtain ⟨ht, hrest⟩ := List.forall_mem_cons.mp h
    rw [List.cons_append, withTemplates]
    dsimp only
    rw [if_pos ht]
    exact ih hrest

theorem withTemplates_at (h : (t.start : Int) = token.start) :
    withTemplates buffer (t :: templates) token =
      if token.stop ≤ t.stop then [asTemplate token t]
      else asTemplate (piece buffer token token.start t.stop) t ::
        withTemplates buffer templates (piece buffer token t.stop token.stop) := by
  rw [withTemplates]
  dsimp only
  rw [if_neg h.not_lt, if_pos h]

theorem withTemplates_inside (h : token.start < t.start) (hin : (t.start : Int) < token.stop) :
    withTemplates buffer (t :: templates) token = piece buffer token token.start t.start ::
      withTemplates buffer (t :: templates) (piece buffer token t.start token.stop) := by
  have hat : (t.start : Int) = (piece buffer token t.start token.stop).start := rfl
  rw [withTemplates_at hat, withTemplates]
  dsimp only
  rw [if_neg h.not_gt, if_neg h.ne', if_pos hin]

theorem withTemplates_behind (h : token.start < t.start) (hout : token.stop ≤ t.start) :
    withTemplates buffer (t :: templates) token = [token] := by
  rw [withTemplates]
  dsimp only
  rw [if_neg h.not_gt, if_neg h.ne', if_neg hout.not_gt]

end

/-- The expressions that start in front of a place come first. -/
theorem Pieces.exists_split {buffer : List Char} {templates : List Template}
    (h : Pieces buffer templates) (place : Int) :
    ∃ passed later, templates = passed ++ later ∧ (∀ t ∈ passed, (t.start : Int) < place) ∧
      ∀ t ∈ later, place ≤ t.start := by
  induction templates with
  | nil => exact ⟨[], [], rfl, by simp, by simp⟩
  | cons t rest ih =>
    have hlt := h.nonempty t List.mem_cons_self
    have hafter := (List.pairwise_cons.mp h.ordered).1
    rcases lt_or_ge (t.start : Int) place with hbefore | hbehind
    · obtain ⟨passed, later, rfl, hpassed, hlater⟩ := ih h.tail
      exact ⟨t :: passed, later, rfl, List.forall_mem_cons.mpr ⟨hbefore, hpassed⟩, hlater⟩
    · refine ⟨[], t :: rest, rfl, by simp, List.forall_mem_cons.mpr ⟨hbehind, fun u hu => ?_⟩⟩
      have := hafter u hu
      omega

/-- What a round gives is split on in further rounds until nothing is left. -/
theorem withTemplates_eq_rounds {buffer : List Char} {templates : List Template}
    (hpieces : Pieces buffer templates) (token : Token) :
    withTemplates buffer templates token =
      (splitOnce buffer templates token).1 ::
        ((splitOnce buffer templates token).2.map (withTemplates buffer templates)).getD [] := by
  obtain ⟨passed, later, rfl, hpassed, hlater⟩ := hpieces.exists_split token.start
  have hskip {rest : Token} (hle : token.start ≤ rest.start) :
      withTemplates buffer (passed ++ later) rest = withTemplates buffer later rest :=
    withTemplates_append (fun t ht => (hpassed t ht).trans_le hle) later
  have hfind (p : Template → Bool) (hp : ∀ t ∈ passed, p t = false) :
      (passed ++ later).find? p = later.find? p := by
    rw [List.find?_append, List.find?_eq_none.mpr (by simpa using hp), Option.none_or]
  rw [hskip le_rfl]
  unfold splitOnce
  rw [hfind _ fun t ht => by simpa using (hpassed t ht).ne,
    hfind _ fun t ht => by simpa using fun h => absurd h (hpassed t ht).not_gt]
  cases later with
  | nil => rfl
  | cons t rest =>
    have hlt := hpieces.nonempty t (by simp)
    have hafter : ∀ u ∈ rest, t.stop ≤ u.start :=
      (List.pairwise_cons.mp (List.pairwise_append.mp hpieces.ordered).2.1).1
    rcases (hlater t List.mem_cons_self).eq_or_lt with hat | hbehind
    · rw [withTemplates_at hat.symm, List.find?_cons_of_pos (by simpa using hat.symm)]
      dsimp only
      split_ifs with hinside
      · rfl
      · have hnext : (t.start : Int) < (piece buffer token t.stop token.stop).start :=
          Int.ofNat_lt.mpr hlt
        rw [Option.map_some, Option.getD_some, hskip (hat.trans_le hnext.le)]
        have hpass : ∀ u ∈ [t], (u.start : Int) < (piece buffer token t.stop token.stop).start :=
          List.forall_mem_singleton.mpr hnext
        exact congrArg _ (withTemplates_append hpass rest).symm
    · have hnone : rest.find? (fun u => (u.start : Int) = token.start) = none := by
        refine List.find?_eq_none.mpr fun u hu => ?_
        have := hafter u hu
        simp only [decide_eq_true_eq]
        omega
      rw [List.find?_cons_of_neg (by simpa using hbehind.ne'), hnone]
      by_cases hin : (t.start : Int) < token.stop
      · rw [List.find?_cons_of_pos (by simpa using ⟨hbehind, hin⟩),
          withTemplates_inside hbehind hin]
        dsimp only
        rw [Option.map_some, Option.getD_some, hskip hbehind.le]
      · have hnone' : rest.find? (fun u => token.start < u.start ∧ (u.start : Int) < token.stop) =
            none := by
          refine List.find?_eq_none.mpr fun u hu => ?_
          have := hafter u hu
          simp only [decide_eq_true_eq]
          omega
        rw [List.find?_cons_of_neg (by simpa using fun _ => not_lt.mp hin), hnone',
          withTemplates_behind hbehind (not_lt.mp hin)]
        rfl

/-! What is restored -/

theorem reached_le {reach stop : Int} {tokens : List Token}
    (h : ∀ token ∈ tokens, token.stop ≤ stop) (hreach : reach ≤ stop) :
    reached reach tokens ≤ stop := by
  induction tokens generalizing reach with
  | nil => exact hreach
  | cons token rest ih =>
    obtain ⟨htoken, hrest⟩ := List.forall_mem_cons.mp h
    exact ih hrest (max_le hreach htoken)

/-- The pieces that tokens are split into once they are moved to the buffer. -/
def piecesOfTokens (r : Extraction) (tokens : List Token) : List Token :=
  (unshift r.ledger tokens).flatMap (withTemplates r.buffer r.scan.templates)

theorem piecesOfTokens_nil (r : Extraction) : piecesOfTokens r [] = [] := by
  unfold piecesOfTokens unshift
  split_ifs <;> rfl

theorem restore_linked (r : Extraction) (tokens : List Token) :
    Linked 0 (chainEnd r 0 (piecesOfTokens r tokens)) (restore r tokens) := by
  cases tokens with
  | nil =>
    have hend : chainEnd r 0 [] = r.buffer.length := max_eq_right (Int.natCast_nonneg _)
    rw [piecesOfTokens_nil, hend]
    unfold restore
    dsimp only
    split_ifs with hempty
    · rw [List.isEmpty_iff.mp hempty]
      rfl
    · exact Linked.singleton (gap r.buffer 0 r.buffer.length none)
  | cons token rest => exact chainFrom_linked r _ none 0

end EmbeddedGraphQL.Restoration

namespace EmbeddedGraphQL.Extraction
open Restoration

/-- Whatever tokens are restored, splitting them at templates comes to an end, since every round
leaves less of a token. The outcome is a chain from the start of the buffer to its end or beyond. It
goes beyond only if a piece of a token does, and it is empty for the empty buffer only. -/
theorem restored_chain (environment : Environment) (buffer : List Char) (tokens : List Token) :
    let r := ofBuffer environment buffer
    let split := withTemplates r.buffer r.scan.templates
    (∀ token, split token = (splitOnce r.buffer r.scan.templates token).1 ::
        ((splitOnce r.buffer r.scan.templates token).2.map split).getD [] ∧
      ∀ rest, (splitOnce r.buffer r.scan.templates token).2 = some rest →
        token.start < rest.start ∧ rest.start < rest.stop ∧ rest.stop = token.stop) ∧
    ∃ last : Int, Linked 0 last (restore r tokens) ∧ buffer.length ≤ last ∧
      ((tokens = [] ∨ ∀ piece ∈ piecesOfTokens r tokens, piece.stop ≤ buffer.length) →
        last = buffer.length) ∧
      (restore r tokens = [] → buffer = []) := by
  intro r split
  obtain ⟨hover, -⟩ := Scan.ofBuffer_overwrites environment buffer
  have hpieces : Pieces r.buffer r.scan.templates := Overwrites.pieces (r := r) hover
  refine ⟨fun token => ⟨withTemplates_eq_rounds hpieces token, fun rest hrest =>
    splitOnce_progress hpieces hrest⟩, ?_⟩
  have hlinked := restore_linked r tokens
  have hle : (buffer.length : Int) ≤ chainEnd r 0 (piecesOfTokens r tokens) := le_max_right _ _
  refine ⟨_, hlinked, hle, fun hwithin => ?_, fun hempty => ?_⟩
  · have hwithin : ∀ piece ∈ piecesOfTokens r tokens, piece.stop ≤ buffer.length := by
      rcases hwithin with rfl | hwithin
      · simp [piecesOfTokens_nil]
      · exact hwithin
    refine max_eq_right (reached_le (fun piece hmem => ?_) (Int.natCast_nonneg _))
    exact hwithin piece (List.mem_filter.mp hmem).1
  · rw [hempty] at hlinked
    rw [← show (0 : Int) = _ from hlinked] at hle
    exact List.length_eq_zero_iff.mp (by omega)

/-- A token that starts in front of the buffer and is split at a template, one that ends in front of
its start, and one inside the template. -/
def disordered : List Token :=
  [⟨"abc".toList, .other "x", -3, 3, none, none⟩, ⟨[], .blank, 5, 2, none, none⟩,
    ⟨"abcdef".toList, .blank, 4, 6, some 1, none⟩]

theorem restored_chain_disordered :
    let r := ofBuffer .relay "{ ${a} }".toList
    (∀ piece ∈ piecesOfTokens r disordered, piece.stop ≤ 8) ∧
      Linked 0 8 (restore r disordered) := by
  have hstops : (piecesOfTokens (ofBuffer .relay "{ ${a} }".toList) disordered).map
      (·.stop) = [2, 6, 2, 6] := by decide +kernel
  have hwithin : ∀ piece ∈ piecesOfTokens (ofBuffer .relay "{ ${a} }".toList)
      disordered, piece.stop ≤ 8 := by
    intro piece hpiece
    have hstop := List.mem_map_of_mem (f := (·.stop)) hpiece
    rw [hstops] at hstop
    simp only [List.mem_cons, List.not_mem_nil, or_false] at hstop
    omega
  obtain ⟨-, last, hlinked, -, hend, -⟩ :=
    restored_chain .relay "{ ${a} }".toList disordered
  have hlast : last = 8 := hend (Or.inr hwithin)
  exact ⟨hwithin, hlast ▸ hlinked⟩

end EmbeddedGraphQL.Extraction
