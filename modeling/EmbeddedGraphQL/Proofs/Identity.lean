import EmbeddedGraphQL.Proofs.RoundTrip
import EmbeddedGraphQL.Proofs.Untouched
import Mathlib

/-!
Extractions that change nothing. No stand-in begins like the expression it is written for, so a text
is the same after the scan just when no expression is found in it. Then nothing has to be moved
back: tokens that tile the buffer form the chain that they are restored to.
-/
namespace EmbeddedGraphQL

/-- What is written for an expression does not begin with a dollar sign. -/
theorem StandIn.write_head?_ne (standIn : StandIn) (text : List Char) :
    (standIn.write text).head? ≠ some '$' := by
  cases standIn with
  | blank =>
    intro h
    exact absurd (List.eq_of_mem_replicate (List.mem_of_mem_head? h)) (by decide)
  | comment | field | spread => exact Option.some_inj.not.mpr (by decide)

/-- The first character of an expression is overwritten by another one. -/
theorem Overwrites.getElem?_start_ne {environment : Environment} {buffer written : List Char}
    {found : List Template} (h : Overwrites environment buffer written found) {t : Template}
    (ht : t ∈ found) : written[t.start]? ≠ buffer[t.start]? := by
  have hlt : t.start < t.stop :=
    (Nat.lt_add_of_pos_right Nat.two_pos).trans_le (h.add_two_le_stop ht)
  have hcovers : t.Covers t.start := ⟨le_rfl, hlt⟩
  obtain ⟨more, hopening⟩ := h.opening t ht
  rw [h.written_of_covers ht hcovers, h.buffer_of_covers ht hcovers, Nat.sub_self,
    ← List.head?_eq_getElem?, ← List.head?_eq_getElem?]
  intro heq
  apply t.standIn.write_head?_ne t.text
  rw [heq, ← hopening]
  rfl

theorem Scan.found_eq_nil_of_text_eq {environment : Environment} {buffer : List Char}
    (h : (ofBuffer environment buffer).text = buffer) :
    (ofBuffer environment buffer).found = [] := by
  obtain ⟨hover, -⟩ := ofBuffer_overwrites environment buffer
  refine List.eq_nil_iff_forall_not_mem.mpr fun t ht => ?_
  apply hover.getElem?_start_ne (List.mem_reverse.mpr ht)
  rw [h]

namespace Restoration

/-- Where nothing is blanked and no dots are missing, a token is finished as it is. -/
theorem finish_of_found_eq_nil {r : Extraction} (h : r.scan.found = []) (token : Token) :
    finish r token = [token] := by
  simp [finish, withDots, Scan.isBlanked, Scan.blanked, Scan.spreadEnds, h]

/-- Tokens that tile the rest of the buffer and are finished as they are make up the chain. -/
theorem chainFrom_of_tiles {r : Extraction} (hfinish : ∀ token, finish r token = [token])
    {tokens : List Token} {reach : Int} (h : Tiles r.buffer reach r.buffer.length tokens)
    (last : Option Token) : chainFrom r last reach tokens = tokens := by
  induction tokens generalizing reach last with
  | nil => rw [chainFrom, if_neg (show reach = r.buffer.length from h).not_lt]
  | cons token rest ih =>
    obtain ⟨rfl, hlt, -, hrest⟩ := h
    have hwhole : trimmed r token.start token = token := if_neg (lt_irrefl _)
    rw [chainFrom_cons hlt hlt, hwhole, if_neg (lt_irrefl _), hfinish, List.nil_append,
      List.getLast?_singleton, Option.map_some, Option.getD_some, ih hrest]
    rfl

end Restoration

namespace Extraction
open Restoration

variable {r : Extraction} {environment : Environment} {buffer : List Char}

theorem Untouched.found (h : r.Untouched) : r.scan.found = [] :=
  (Scan.recorded_eq_nil_iff r.scan).mp ⟨h.templates, h.blanked⟩

/-- A document is the buffer and nothing is inserted just when nothing is recorded. -/
theorem isIdentity_iff_untouched :
    (ofBuffer environment buffer).isIdentity = true ↔ (ofBuffer environment buffer).Untouched := by
  have hnamed := ofBuffer_named environment buffer
  rw [isIdentity, Bool.and_eq_true, beq_iff_eq, List.isEmpty_iff]
  constructor
  · rintro ⟨htransformed, hinsertions⟩
    have hsites := (insertions_eq_nil_iff environment buffer).mp hinsertions
    have htext : (Scan.ofBuffer environment buffer).text = buffer := by
      rw [hnamed.transformed, hsites, FragmentName.insertAt_nil] at htransformed
      exact htransformed
    obtain ⟨htemplates, hblanked⟩ :=
      (Scan.recorded_eq_nil_iff _).mpr (Scan.found_eq_nil_of_text_eq htext)
    exact ⟨htransformed, hinsertions, htemplates, hblanked⟩
  · exact fun h => ⟨h.transformed, h.insertions⟩

theorem untouched_iff_nothing_recorded :
    let r := ofBuffer environment buffer
    r.Untouched ↔ r.scan.templates = [] ∧ r.scan.blanked = [] ∧ r.ledger.insertions = [] := by
  intro r
  constructor
  · exact fun h => ⟨h.templates, h.blanked, h.insertions⟩
  · rintro ⟨htemplates, hblanked, hinsertions⟩
    refine ⟨?_, hinsertions, htemplates, hblanked⟩
    have hfound := (Scan.recorded_eq_nil_iff r.scan).mp ⟨htemplates, hblanked⟩
    rw [(ofBuffer_named environment buffer).transformed,
      (insertions_eq_nil_iff environment buffer).mp hinsertions, FragmentName.insertAt_nil]
    exact Scan.text_of_found_eq_nil hfound

theorem Untouched.tokens_eq (h : (ofBuffer environment buffer).Untouched) :
    Service.tokens (ofBuffer environment buffer) = Highlight.tokenize buffer := by
  have htiles : Tiles buffer 0 buffer.length (Highlight.tokenize buffer) :=
    (Highlight.tokenize_tiles buffer).1
  have hmoved : moved? (ofBuffer environment buffer).ledger = some :=
    funext (moved?_of_isEmpty h.insertions)
  have hpieces : (ofBuffer environment buffer).pieces = Highlight.tokenize buffer := by
    rw [pieces, h.transformed, hmoved, List.filterMap_some, h.templates]
    exact List.flatMap_singleton' _
  rw [tokens_eq_chain, hpieces]
  exact chainFrom_of_tiles (finish_of_found_eq_nil h.found) htiles none

theorem Untouched.cursor_eq (h : r.Untouched) (position : Position) :
    r.cursor position = position := by
  rw [cursor, h.insertions]
  rfl

theorem Untouched.errorPlace_eq (h : r.Untouched) (place : ErrorPlace) :
    r.errorPlace place = place := by
  rw [errorPlace, h.insertions]
  rfl

/-- Without insertions no diagnostic is moved. -/
theorem Untouched.diagnostics_eq (h : r.Untouched) (found : List Diagnostic) :
    r.diagnostics found = Artifact.visible r.environment found := by
  have hcolumn (line ch : Int) : r.ledger.bufferColumn r.transformed line ch = ch := by
    simp [Ledger.bufferColumn, Ledger.onLine_eq_filter, h.insertions, Ledger.columns,
      Ledger.moveLeft]
  rw [Extraction.diagnostics_eq]
  simp [hcolumn]

/-- An extraction is told to be the identity just when no expression is recorded or blanked and no
name is inserted, and then it does no harm: the tokens are those of the buffer, the cursor and the
places of errors stay where they are, and of the diagnostics only artifacts are dropped. -/
theorem identity_harmless (environment : Environment) (buffer : List Char) :
    let r := ofBuffer environment buffer
    (r.isIdentity = true ↔
      r.scan.templates = [] ∧ r.scan.blanked = [] ∧ r.ledger.insertions = []) ∧
    (r.isIdentity = true →
      Service.tokens r = Highlight.tokenize buffer ∧
      (∀ position, r.cursor position = position) ∧
      (∀ place, r.errorPlace place = place) ∧
      ∀ found, r.diagnostics found = Artifact.visible environment found) := by
  intro r
  refine ⟨isIdentity_iff_untouched.trans untouched_iff_nothing_recorded, fun hidentity => ?_⟩
  have h : r.Untouched := isIdentity_iff_untouched.mp hidentity
  exact ⟨h.tokens_eq, h.cursor_eq, h.errorPlace_eq, h.diagnostics_eq⟩

/-- An expression that does not end and a shorthand definition in a comment. -/
theorem identity_harmless_unclosed :
    let r := ofBuffer .lokka "\x7b a #fragment on\n ...$\x7bb".toList
    r.isIdentity = true ∧
      Service.tokens r = Highlight.tokenize r.buffer ∧
      (∀ position, r.cursor position = position) ∧
      (∀ place, r.errorPlace place = place) ∧
      ∀ found, r.diagnostics found = Artifact.visible .lokka found := by
  intro r
  have hidentity : r.isIdentity = true := by decide +kernel
  have hharmless := identity_harmless .lokka "\x7b a #fragment on\n ...$\x7bb".toList
  exact ⟨hidentity, hharmless.2 hidentity⟩

end Extraction
end EmbeddedGraphQL
