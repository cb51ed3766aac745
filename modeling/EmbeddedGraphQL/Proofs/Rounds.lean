import EmbeddedGraphQL.Proofs.StrictSymbols
import Mathlib

/-!
Rounds of the strict reading. Where a text is read without a problem, every character of it is taken
by a round, and the symbols in front of a round and from it on are those of the text.
-/
namespace EmbeddedGraphQL

/-- The number of characters that a round takes after the first one; none if it ends the reading. -/
def Munched.taken? : Munched → Option Nat
  | .skipped n => some n
  | .symbol _ _ n => some n
  | .problem _ _ => none

namespace SymbolList

/-- What is read of a text from an offset on. -/
def readAt (text : List Char) (k : Nat) : SymbolList := readFrom k (text.drop k)

/-- The symbols of a text that a round gives by itself. -/
def found (start : Nat) : Munched → List Symbol
  | .symbol kind value n => [⟨kind, String.ofList value, start, start + 1 + n⟩]
  | _ => []

@[simp] theorem found_skipped (start n : Nat) : found start (.skipped n) = [] := rfl

@[simp] theorem found_symbol (start n : Nat) (kind : SymbolKind) (value : List Char) :
    found start (.symbol kind value n) =
      [⟨kind, String.ofList value, start, start + 1 + n⟩] := rfl

variable {text rest : List Char} {k n : Nat} {c : Char} {munched : Munched}

/-- One round of reading, and what is read behind it. -/
theorem readAt_round (hdrop : text.drop k = c :: rest)
    (hn : (Symbol.munch c rest).taken? = some n) :
    (readAt text k).symbols =
        found k (Symbol.munch c rest) ++ (readAt text (k + 1 + n)).symbols ∧
      (readAt text k).problem = (readAt text (k + 1 + n)).problem := by
  have hbehind : text.drop (k + 1 + n) = rest.drop n := by
    rw [← List.drop_drop, ← List.drop_drop, hdrop, List.drop_one, List.tail_cons]
  unfold readAt
  rw [hdrop, hbehind, readFrom]
  cases hmunch : Symbol.munch c rest with
  | skipped taken =>
    rw [hmunch] at hn
    cases hn
    exact ⟨rfl, rfl⟩
  | symbol kind value taken =>
    rw [hmunch] at hn
    cases hn
    exact ⟨rfl, rfl⟩
  | problem problem distance =>
    rw [hmunch] at hn
    cases hn

/-- A reading without problems goes on as long as there is text. -/
theorem exists_taken (hdrop : text.drop k = c :: rest) (h : (readAt text k).problem = none) :
    ∃ n, (Symbol.munch c rest).taken? = some n := by
  unfold readAt at h
  rw [hdrop, readFrom] at h
  cases hmunch : Symbol.munch c rest with
  | skipped taken => exact ⟨taken, rfl⟩
  | symbol kind value taken => exact ⟨taken, rfl⟩
  | problem problem distance =>
    rw [hmunch] at h
    cases h

/-- Reading reaches an offset: a round could start there. -/
structure Reached (text : List Char) (start : Nat) : Prop where
  sound : (readAt text start).problem = none
  earlier : ∃ before, (ofText text).symbols = before ++ (readAt text start).symbols ∧
    ∀ s ∈ before, s.stop ≤ start

theorem reached_zero (h : (ofText text).problem = none) : Reached text 0 :=
  ⟨h, [], rfl, List.forall_mem_nil _⟩

theorem stop_of_mem_found {s : Symbol} (hs : s ∈ found k munched) (hn : munched.taken? = some n) :
    s.start = k ∧ s.stop = k + 1 + n := by
  cases munched with
  | skipped taken => simp [found] at hs
  | symbol kind value taken =>
    cases hn
    rw [found, List.mem_singleton] at hs
    rw [hs]
    exact ⟨rfl, rfl⟩
  | problem problem distance => simp [found] at hs

theorem Reached.next (h : Reached text k) (hdrop : text.drop k = c :: rest)
    (hn : (Symbol.munch c rest).taken? = some n) : Reached text (k + 1 + n) := by
  obtain ⟨hsymbols, hproblem⟩ := readAt_round hdrop hn
  obtain ⟨before, hbefore, hstop⟩ := h.earlier
  refine ⟨hproblem ▸ h.sound, before ++ found k (Symbol.munch c rest), ?_, ?_⟩
  · rw [hbefore, hsymbols, List.append_assoc]
  · intro s hs
    rcases List.mem_append.mp hs with hs | hs
    · exact (hstop s hs).trans (by omega)
    · exact (stop_of_mem_found hs hn).2.le

theorem drop_of_getElem? (hc : text[k]? = some c) : text.drop k = c :: text.drop (k + 1) := by
  obtain ⟨hlt, rfl⟩ := List.getElem?_eq_some_iff.mp hc
  exact List.drop_eq_getElem_cons hlt

/-- Every character from a reached offset on is taken by a round. -/
theorem Reached.exists_round (h : Reached text k) {p : Nat} (hk : k ≤ p) (hp : p < text.length) :
    ∃ start c rest n, Reached text start ∧ text.drop start = c :: rest ∧
      (Symbol.munch c rest).taken? = some n ∧ start ≤ p ∧ p ≤ start + n := by
  induction hm : p - k using Nat.strong_induction_on generalizing k with
  | _ m ih =>
    have hdrop := List.drop_eq_getElem_cons (Nat.lt_of_le_of_lt hk hp)
    obtain ⟨n, hn⟩ := exists_taken hdrop h.sound
    rcases Nat.lt_or_ge (k + n) p with hlt | hge
    · exact ih (p - (k + 1 + n)) (by omega) (h.next hdrop hn) (by omega) rfl
    · exact ⟨k, _, _, n, h, hdrop, hn, hk, hge⟩

/-- Symbols read from an offset on start there or later. -/
theorem start_of_mem_readAt {s : Symbol} (hs : s ∈ (readAt text k).symbols) :
    k ≤ s.start ∧ s.start < s.stop := by
  induction hm : text.length - k using Nat.strong_induction_on generalizing k with
  | _ m ih =>
    rcases Nat.lt_or_ge k text.length with hlt | hge
    · have hdrop := List.drop_eq_getElem_cons hlt
      cases hn : (Symbol.munch text[k] (text.drop (k + 1))).taken? with
      | none =>
        unfold readAt at hs
        rw [hdrop, readFrom] at hs
        cases hmunch : Symbol.munch text[k] (text.drop (k + 1)) with
        | problem problem distance =>
          rw [hmunch] at hs
          simp at hs
        | _ =>
          rw [hmunch] at hn
          cases hn
      | some n =>
        rw [(readAt_round hdrop hn).1] at hs
        rcases List.mem_append.mp hs with hs | hs
        · obtain ⟨hstart, hstop⟩ := stop_of_mem_found hs hn
          omega
        · obtain ⟨hstart, hlt⟩ := ih _ (by omega) hs rfl
          omega
    · unfold readAt at hs
      rw [List.drop_of_length_le hge, readFrom] at hs
      simp at hs

end SymbolList
end EmbeddedGraphQL
