import EmbeddedGraphQL.Proofs.TokenPlaces
import Mathlib

/-!
Styles of restored tokens. Outside templates and the dots of spreads, a character keeps the style of
the token it stands in, up to the first name inside that token. What lies behind such a name is cut
off with it and filled again as a gap, so the end of a string that was taken for a definition is
shown as blank, or as punctuation if it has a comma.
-/
namespace EmbeddedGraphQL.Extraction
open Text FragmentName Restoration Highlight

/-- Restored tokens keep the styles of the tokens of the document. Every offset of the buffer
outside templates and dots has its place in the document, one token there and one in the buffer.
Unless a name lies in the former at or before the place, both have the same style; otherwise the
former is a string and the latter a gap. -/
theorem styles_restored (environment : Environment) (buffer : List Char) :
    let r := ofBuffer environment buffer
    ∀ offset : Nat, offset < buffer.length →
      (∀ t ∈ r.scan.templates, ¬ t.Covers offset) →
      (∀ stop ∈ r.scan.spreadEnds, ¬ (stop ≤ offset + spreadDots.length ∧ offset < stop)) →
      ∃ place ∈ r.outside, ∃ source restored,
        r.ledger.bufferOffset place = offset ∧
        (∀ token, token ∈ tokenize r.transformed ∧ token.Covers place ↔ token = source) ∧
        (∀ token, token ∈ Service.tokens r ∧ token.Covers offset ↔ token = restored) ∧
        ((∀ i ∈ r.ledger.insertions,
            ¬ (source.start < i.position ∧ i.position < source.stop ∧ i.position ≤ place)) →
          restored.style = source.style) ∧
        ((∃ i ∈ r.ledger.insertions,
            source.start < i.position ∧ i.position < source.stop ∧ i.position ≤ place) →
          source.style = .string ∧
            restored.style = if ',' ∈ restored.text then .punctuation else .blank) := by
  intro r offset hoffset htemplate hdots
  have h : r.Named := ofBuffer_named environment buffer
  have hpieces := ofBuffer_pieces environment buffer
  obtain ⟨source, hsource⟩ := h.existsUnique_token hoffset
  obtain ⟨restored, hrestored⟩ := (tokens_tile environment buffer).existsUnique_covers
    (Int.natCast_nonneg offset) (Int.ofNat_lt.mpr hoffset)
  obtain ⟨hmem, hcovers⟩ := (hsource source).mpr rfl
  obtain ⟨hmem', hcovers'⟩ := (hrestored restored).mpr rfl
  obtain ⟨first, stop, last, hplaced⟩ := h.exists_placedAt hmem
  obtain ⟨hlow, hhigh⟩ := (hplaced.covers_landing_iff h hmem offset).mp hcovers
  have hcut := hplaced.stop_le_iff h hmem hlow hhigh
  obtain ⟨origin, horigin, -, -, -, hfinished⟩ := exists_source_at environment buffer hoffset
  have hfinished := hfinished restored hmem' hcovers'
  have hnot : ¬ IsDots r restored := by
    intro hdrawn
    have hstart := start_of_isDots hmem' hdrawn
    obtain ⟨stop, hstop, heq⟩ := hdrawn.stop
    have := hdots stop hstop
    have := hcovers'.1
    have := hcovers'.2
    omega
  -- a template that starts in front of the token may still be shown in it, but not at the offset
  have hahead {bound : Nat} (hle : bound ≤ offset) :
      ∀ t ∈ r.scan.templates, t.start < bound → t.stop ≤ offset := by
    intro t ht hlt
    by_contra hin
    exact htemplate t ht ⟨hlt.le.trans hle, not_le.mp hin⟩
  refine ⟨landing r.sites offset,
    ⟨(h.landing_lt_length hoffset).le, not_covers_landing h.sorted h.insertions offset⟩,
    source, restored, bufferOffset_landing h.sorted h.insertions offset, hsource, hrestored,
    fun hnone => ?_, fun hname => ⟨?_, ?_⟩⟩
  · have hbefore : offset < stop := by
      by_contra hle
      obtain ⟨i, hi, hinside⟩ := hcut.mp (not_lt.mp hle)
      exact hnone i hi hinside
    obtain ⟨owner, hpiece, howner, hin⟩ :=
      hplaced.owner?_pieces h hpieces hmem hlow hbefore (hahead hlow)
    have hstyle : owner.style = source.style := by
      cases hplaced.pieceOf hpieces hpiece with
      | part hstyle => exact hstyle
      | template ht _ _ hstart hstop =>
        rw [Token.Covers, hstart, hstop] at hin
        exact absurd ⟨Int.ofNat_le.mp hin.1, Int.ofNat_lt.mp hin.2⟩ (htemplate _ ht)
    rw [howner] at horigin
    obtain ⟨reach, -, rfl⟩ := horigin
    have hdrawn := (style_of_mem_finish hfinished).resolve_right hnot
    rw [hdrawn, trimmed_style, hstyle]
  · obtain ⟨i, hi, hbehind, hinside, -⟩ := hname
    exact h.style_of_inside hmem hi hbehind hinside
  · have hle := hcut.mpr hname
    rw [hplaced.owner?_pieces_eq_none h hpieces hmem hle hhigh (hahead hle)] at horigin
    obtain ⟨start, stop, last, rfl⟩ := horigin
    exact (style_of_mem_finish_gap hfinished).resolve_right hnot

/-- The quoted text `fragment on T`. A name is inserted into the string, and what stands behind it
is blank. -/
private theorem quoted_shorthand :
    let r := ofBuffer .plain "\"fragment on T\"".toList
    r.scan.templates = [] ∧ r.scan.spreadEnds = [] ∧ r.ledger = ⟨[⟨10, 5⟩], 0⟩ ∧
      r.transformed = "\"fragment ____ on T\"".toList ∧
      ⟨"fragment ____ on T".toList, .string, 1, 19, some 0, some "Document"⟩ ∈
        tokenize r.transformed ∧
      ⟨"on T".toList, .blank, 10, 14, some 0, some "Document"⟩ ∈ Service.tokens r := by
  decide +kernel

/-- The end of that string, which stands behind the name. -/
theorem styles_restored_quoted :
    let r := ofBuffer .plain "\"fragment on T\"".toList
    let source : Token :=
      ⟨"fragment ____ on T".toList, .string, 1, 19, some 0, some "Document"⟩
    let restored : Token := ⟨"on T".toList, .blank, 10, 14, some 0, some "Document"⟩
    (10 < "\"fragment on T\"".toList.length ∧ (∀ t ∈ r.scan.templates, ¬ t.Covers 10) ∧
      ∀ stop ∈ r.scan.spreadEnds, ¬ (stop ≤ 10 + spreadDots.length ∧ 10 < stop)) ∧
    (source ∈ tokenize r.transformed ∧ source.Covers 15) ∧
    (restored ∈ Service.tokens r ∧ restored.Covers 10) ∧
    (∃ i ∈ r.ledger.insertions,
      source.start < i.position ∧ i.position < source.stop ∧ i.position ≤ 15) ∧
    source.style = .string ∧
      restored.style = if ',' ∈ restored.text then .punctuation else .blank := by
  intro r source restored
  obtain ⟨htemplates, hends, hledger, -, hsource, hrestored⟩ := quoted_shorthand
  have hlanding : landing r.sites 10 = 15 := by decide +kernel
  have hcovers : source.Covers 15 := ⟨by decide, by decide⟩
  have hcovers' : restored.Covers 10 := ⟨by decide, by decide⟩
  have hout : ∀ t ∈ r.scan.templates, ¬ t.Covers 10 := htemplates ▸ List.forall_mem_nil _
  have hdots : ∀ stop ∈ r.scan.spreadEnds, ¬ (stop ≤ 10 + spreadDots.length ∧ 10 < stop) :=
    hends ▸ List.forall_mem_nil _
  have hname : ∃ i ∈ r.ledger.insertions,
      source.start < i.position ∧ i.position < source.stop ∧ i.position ≤ (15 : Nat) := by
    rw [hledger]
    exact ⟨⟨10, 5⟩, List.mem_cons_self, by decide⟩
  obtain ⟨place, hplace, found, found', hoffset, hfound, hfound', -, hcut⟩ :=
    styles_restored .plain "\"fragment on T\"".toList 10 (by decide) hout hdots
  obtain ⟨k, hk, rfl⟩ := (ofBuffer_named .plain _).exists_landing hplace.2
  obtain rfl : k = 10 := Int.ofNat_inj.mp (hk.symm.trans hoffset)
  rw [hlanding] at hfound hcut
  rw [← (hfound source).mp ⟨hsource, hcovers⟩, ← (hfound' restored).mp ⟨hrestored, hcovers'⟩]
    at hcut
  exact ⟨⟨by decide, hout, hdots⟩, ⟨hsource, hcovers⟩, ⟨hrestored, hcovers'⟩, hname,
    hcut hname⟩

/-- Not every character keeps the style of its token. -/
theorem styles_not_all_restored :
    ¬ ∀ (environment : Environment) (buffer : List Char) (offset place : Nat),
      let r := ofBuffer environment buffer
      offset < buffer.length → (∀ t ∈ r.scan.templates, ¬ t.Covers offset) →
      (∀ stop ∈ r.scan.spreadEnds, ¬ (stop ≤ offset + spreadDots.length ∧ offset < stop)) →
      place ∈ r.outside → r.ledger.bufferOffset place = offset →
      ∀ source ∈ tokenize r.transformed, source.Covers place →
      ∀ restored ∈ Service.tokens r, restored.Covers offset → restored.style = source.style := by
  intro hall
  obtain ⟨htemplates, hends, hledger, htext, hsource, hrestored⟩ := quoted_shorthand
  have hplace : 15 ∈ (ofBuffer .plain "\"fragment on T\"".toList).outside := by
    refine ⟨by rw [htext]; decide, fun i hi hcovers => ?_⟩
    rw [hledger] at hi
    rw [List.mem_singleton.mp hi] at hcovers
    exact absurd hcovers.2 (by decide)
  have hsame := hall .plain "\"fragment on T\"".toList 10 15 (by decide)
    (htemplates ▸ List.forall_mem_nil _) (hends ▸ List.forall_mem_nil _) hplace
    (by rw [hledger]; decide) _ hsource ⟨by decide, by decide⟩ _ hrestored ⟨by decide, by decide⟩
  exact absurd hsame (by decide)

end EmbeddedGraphQL.Extraction
