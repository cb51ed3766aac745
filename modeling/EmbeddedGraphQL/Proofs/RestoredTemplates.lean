import EmbeddedGraphQL.Proofs.TokenPlaces
import Mathlib

/-!
Templates and dots among restored tokens. A template owns its places, so where no name cuts a token
each template is a token of its own, and nothing else is drawn as a template. The blanks of dots own
theirs, for nothing in front of them reaches so far, and they are finished with the dots.
-/
namespace EmbeddedGraphQL

/-- A field starts with an underscore and a comment with its mark. -/
theorem Overwrites.template_char {environment : Environment} {r : Extraction}
    (h : Overwrites environment r.buffer r.scan.text r.scan.found.reverse) {t : Template}
    (ht : t ∈ r.scan.templates) : ∃ c ∈ ['_', '#'], r.scan.text[t.start]? = some c := by
  obtain ⟨hfound, hkind⟩ := List.mem_filter.mp ht
  rw [h.written_of_covers (List.mem_reverse.mpr hfound) ⟨le_rfl, h.start_lt_stop hfound⟩,
    Nat.sub_self]
  cases hkind' : t.standIn with
  | blank =>
    rw [hkind'] at hkind
    exact absurd hkind (by decide)
  | comment => exact ⟨'#', by decide, rfl⟩
  | field | spread => exact ⟨'_', by decide, rfl⟩

namespace Extraction
open Text FragmentName Restoration Highlight

section Templates

variable {environment : Environment} {buffer : List Char}

/-- A template owns the place where it starts, if no name lies inside a token of the document. -/
theorem exists_owner_of_template
    (huncut : ∀ token ∈ tokenize (ofBuffer environment buffer).transformed,
      ∀ i ∈ (ofBuffer environment buffer).ledger.insertions,
        ¬ (token.start < i.position ∧ i.position < token.stop))
    {t : Template} (ht : t ∈ (ofBuffer environment buffer).scan.templates) :
    ∃ owner, owner? (ofBuffer environment buffer).pieces t.start = some owner ∧
      owner.style = .template ∧ owner.start = t.start ∧ owner.stop = t.stop := by
  have h := ofBuffer_named environment buffer
  have hpieces := ofBuffer_pieces environment buffer
  have hlt := hpieces.nonempty t ht
  have hoffset : t.start < buffer.length := hlt.trans_le (hpieces.stop_le t ht)
  set r := ofBuffer environment buffer
  obtain ⟨token, htoken⟩ := h.existsUnique_token hoffset
  obtain ⟨hmem, hcovers⟩ := (htoken token).mpr rfl
  obtain ⟨first, stop, last, hplaced⟩ := h.exists_placedAt hmem
  obtain ⟨hlow, hhigh⟩ := (hplaced.covers_landing_iff h hmem t.start).mp hcovers
  obtain rfl := hplaced.stop_eq_last h hmem (huncut token hmem)
  -- an earlier template stops before this one starts, so no piece of an earlier token reaches it
  have hahead : ∀ u ∈ r.scan.templates, u.start < first → u.stop ≤ t.start := by
    intro u hu hbefore
    have hne : u ≠ t := by
      rintro rfl
      omega
    rcases hpieces.apart hu ht hne with hle | hle
    · exact hle
    · have := hpieces.nonempty u hu
      omega
  obtain ⟨owner, hpiece, howner, hin⟩ := hplaced.owner?_pieces h hpieces hmem hlow hhigh hahead
  refine ⟨owner, howner, ?_⟩
  cases hplaced.pieceOf hpieces hpiece with
  | part _ _ _ hnone => exact absurd hin (hnone t ht)
  | template hu _ hstyle hstart hstop =>
    rw [Token.Covers, hstart, hstop] at hin
    obtain rfl := hpieces.eq_of_covers ht hu ⟨le_rfl, hlt⟩
      ⟨Int.ofNat_le.mp hin.1, Int.ofNat_lt.mp hin.2⟩
    exact ⟨hstyle, hstart, hstop⟩

/-- A template is a token, if no name lies inside a token of the document. -/
theorem exists_template_token
    (huncut : ∀ token ∈ tokenize (ofBuffer environment buffer).transformed,
      ∀ i ∈ (ofBuffer environment buffer).ledger.insertions,
        ¬ (token.start < i.position ∧ i.position < token.stop))
    {t : Template} (ht : t ∈ (ofBuffer environment buffer).scan.templates) :
    ∃ token ∈ Service.tokens (ofBuffer environment buffer),
      token.style = .template ∧ token.start = t.start ∧ token.stop = t.stop := by
  have hpieces := ofBuffer_pieces environment buffer
  have hoffset : t.start < buffer.length :=
    (hpieces.nonempty t ht).trans_le (hpieces.stop_le t ht)
  obtain ⟨owner, howner, hstyle, hstart, hstop⟩ := exists_owner_of_template huncut ht
  set r := ofBuffer environment buffer
  obtain ⟨source, hsource, -, -, -, hfinished⟩ := exists_source_at environment buffer hoffset
  rw [howner] at hsource
  obtain ⟨reach, hreach, rfl⟩ := hsource
  have hwhole : trimmed r reach owner = owner := if_neg (hstart ▸ hreach.not_gt)
  obtain ⟨drawn, hdrawn⟩ := (tokens_tile environment buffer).existsUnique_covers
    (Int.natCast_nonneg t.start) (Int.ofNat_lt.mpr hoffset)
  obtain ⟨hmem, hcovers⟩ := (hdrawn drawn).mpr rfl
  have hdrawn := hfinished drawn hmem hcovers
  rw [hwhole] at hdrawn
  obtain ⟨hstyle', hstart', hstop'⟩ := place_of_mem_finish hdrawn (by rw [hstyle]; decide)
  exact ⟨drawn, hmem, hstyle'.trans hstyle, hstart'.trans hstart, hstop'.trans hstop⟩

/-- A token that is drawn as a template lies in one. -/
theorem exists_template_of_style {token : Token}
    (htoken : token ∈ Service.tokens (ofBuffer environment buffer))
    (hstyle : token.style = .template) :
    ∃ t ∈ (ofBuffer environment buffer).scan.templates,
      t.start ≤ token.start ∧ token.start < t.stop := by
  have h := ofBuffer_named environment buffer
  have hpieces := ofBuffer_pieces environment buffer
  set r := ofBuffer environment buffer
  obtain ⟨offset, stop, hoffset, hstop, hlt, hle⟩ :=
    (tokens_tile environment buffer).exists_offsets le_rfl htoken
  have hnot : ¬ IsDots r token := fun hdots => by
    rw [hdots.style] at hstyle
    cases hstyle
  obtain ⟨source, hsource, hin, -, -, hfinished⟩ := exists_source_at environment buffer
    (show offset < buffer.length by omega)
  have hdrawn := hfinished token htoken ⟨hoffset.le, hstop ▸ Int.ofNat_lt.mpr hlt⟩
  cases howner : owner? r.pieces offset with
  | none =>
    rw [howner] at hsource
    obtain ⟨_, _, _, rfl⟩ := hsource
    have hgap := (style_of_mem_finish_gap hdrawn).resolve_right hnot
    rw [hstyle] at hgap
    split_ifs at hgap
  | some owner =>
    rw [howner] at hsource
    obtain ⟨reach, -, rfl⟩ := hsource
    obtain ⟨hmem, hcovers⟩ := mem_of_owner? howner
    have hsame := (style_of_mem_finish hdrawn).resolve_right hnot
    rw [trimmed_style, hstyle] at hsame
    rw [pieces_eq_flatMap] at hmem
    obtain ⟨other, hother, hpiece⟩ := List.mem_flatMap.mp hmem
    obtain ⟨first, stop, last, hplaced⟩ := h.exists_placedAt hother
    cases hplaced.pieceOf hpieces hpiece with
    | part hpart =>
      obtain ⟨_, _, _, _, -, -, hlexeme⟩ := tokenize_source hother
      exact absurd (hpart.symm.trans hsame.symm) hlexeme.style_ne_template
    | template ht _ _ hfirst hlast =>
      rw [Token.Covers, hfirst, hlast] at hcovers
      exact ⟨_, ht, hoffset ▸ hcovers.1, hoffset ▸ hcovers.2⟩

/-- The tokens that are drawn as templates are the templates, if no name lies inside a token of the
document. -/
theorem template_tokens_eq
    (huncut : ∀ token ∈ tokenize (ofBuffer environment buffer).transformed,
      ∀ i ∈ (ofBuffer environment buffer).ledger.insertions,
        ¬ (token.start < i.position ∧ i.position < token.stop)) :
    ((Service.tokens (ofBuffer environment buffer)).filter (·.style = .template)).map
        (fun token => (token.start, token.text, token.stop)) =
      (ofBuffer environment buffer).scan.templates.map fun t =>
        ((t.start : Int), t.text, (t.stop : Int)) := by
  have hpieces := ofBuffer_pieces environment buffer
  have htiles := tokens_tile environment buffer
  set r := ofBuffer environment buffer
  have hirrefl : Std.Irrefl fun p q : Int × List Char × Int => p.1 < q.1 :=
    ⟨fun p => lt_irrefl p.1⟩
  have hantisymm : Std.Antisymm fun p q : Int × List Char × Int => p.1 < q.1 :=
    ⟨fun p q hlt hgt => absurd hlt hgt.not_gt⟩
  have hshown {token : Token} (htoken : token ∈ Service.tokens r) {t : Template}
      (ht : t ∈ r.scan.templates) (hstart : token.start = t.start)
      (hstop : token.stop = t.stop) :
      (token.start, token.text, token.stop) = ((t.start : Int), t.text, (t.stop : Int)) := by
    rw [htiles.text_eq token htoken, hpieces.text_eq t ht, hstart, hstop]
  have hdrawn : (((Service.tokens r).filter (·.style = .template)).map fun token =>
      (token.start, token.text, token.stop)).Pairwise (·.1 < ·.1) :=
    List.pairwise_map.mpr ((htiles.ordered.imp_of_mem fun htoken _ hle =>
      (htiles.bounds _ htoken).2.1.trans_le hle).filter _)
  have hfound : (r.scan.templates.map fun t =>
      ((t.start : Int), t.text, (t.stop : Int))).Pairwise (·.1 < ·.1) :=
    List.pairwise_map.mpr (hpieces.ordered.imp_of_mem fun ht _ hle =>
      Int.ofNat_lt.mpr ((hpieces.nonempty _ ht).trans_le hle))
  -- both lists are ordered by their starts, so they are equal if they have the same members
  refine hdrawn.eq_of_mem_iff hfound fun shown => ?_
  simp only [List.mem_map, List.mem_filter, decide_eq_true_eq]
  constructor
  · rintro ⟨token, ⟨htoken, hstyle⟩, rfl⟩
    obtain ⟨t, ht, hlow, hhigh⟩ := exists_template_of_style htoken hstyle
    obtain ⟨other, hother, -, hstart, hstop⟩ := exists_template_token huncut ht
    obtain ⟨hfirst, hlt, hlast⟩ := htiles.bounds token htoken
    obtain ⟨owner, howner⟩ := htiles.existsUnique_covers hfirst (hlt.trans_le hlast)
    obtain rfl : token = other := ((howner token).mp ⟨htoken, le_rfl, hlt⟩).trans
      ((howner other).mp ⟨hother, hstart ▸ hlow, hstop ▸ hhigh⟩).symm
    exact ⟨t, ht, (hshown htoken ht hstart hstop).symm⟩
  · rintro ⟨t, ht, rfl⟩
    obtain ⟨token, htoken, hstyle, hstart, hstop⟩ := exists_template_token huncut ht
    exact ⟨token, ⟨htoken, hstyle⟩, hshown htoken ht hstart hstop⟩

end Templates

section Dots

variable {environment : Environment} {r : Extraction} {t : Template} {token : Token}
  (h : r.Named) (hover : Overwrites environment r.buffer r.scan.text r.scan.found.reverse)
include h

/-- White space shows no template. -/
theorem not_covers_of_blank (htoken : token ∈ tokenize r.transformed)
    (hblank : token.style = .blank) {k : Nat} {c : Char} (hc : r.scan.text[k]? = some c)
    (hmark : c ∈ ['_', '#']) : ¬ token.Covers (landing r.sites k) := by
  intro hcovers
  obtain ⟨_, _, _, _, -, hshape, hlexeme⟩ := tokenize_source htoken
  have hshown := (tokenize_tiles r.transformed).1.getElem?_of_covers le_rfl htoken hcovers
  rw [h.getElem?_landing, hc] at hshown
  have hspace := hlexeme.of_blank hshape hblank c (List.mem_of_getElem? hshown)
  fin_cases hmark <;> exact absurd hspace (by decide)

include hover

/-- The blanks of dots stand together in front of the spread. -/
theorem landing_dots (ht : t ∈ r.scan.found) (hspread : t.standIn = .spread) {n : Nat}
    (hn : t.start = n + spreadDots.length) :
    landing r.sites t.start = landing r.sites n + spreadDots.length := by
  have hwidth : spreadDots.length = 3 := rfl
  have hstep {k : Nat} (hlow : n ≤ k) (hhigh : k < t.start) :
      landing r.sites (k + 1) = landing r.sites k + 1 := by
    refine h.landing_succ ?_
    rcases (Nat.succ_le_of_lt hhigh).eq_or_lt with heq | hlt
    · exact Named.notMem_sites (heq ▸ hover.spread_char ht hspread) (by decide)
    · have hdot := hover.dots t (List.mem_reverse.mpr ht) (k + 1) ⟨hspread, by omega, hlt⟩
      exact Named.notMem_sites hdot.2.1 (by decide)
  rw [hn, hwidth, hstep (by omega) (by omega), hstep (by omega) (by omega),
    hstep le_rfl (by omega)]

/-- White space that shows the blanks of dots owns them, and stops where they do. -/
theorem exists_owner_of_dots (ht : t ∈ r.scan.found) (hspread : t.standIn = .spread)
    (htoken : token ∈ tokenize r.transformed) (hblank : token.style = .blank)
    (hlow : token.start + spreadDots.length ≤ (landing r.sites t.start : Nat))
    (hhigh : (landing r.sites t.start : Nat) ≤ token.stop) {n : Nat}
    (hn : t.start = n + spreadDots.length) :
    ∃ first : Nat,
      owner? r.pieces n = some (piece r.scan.text token first t.start) := by
  have hwidth : spreadDots.length = 3 := rfl
  have hdots := landing_dots h hover ht hspread hn
  -- a token that goes on would show the field behind the dots
  have hend : token.stop = (landing r.sites t.start : Nat) := by
    by_contra hne
    exact not_covers_of_blank h htoken hblank (hover.spread_char ht hspread) (by decide)
      ⟨by omega, by omega⟩
  obtain ⟨first, stop, last, hplaced⟩ := h.exists_placedAt htoken
  obtain rfl := hplaced.stop_eq_last h htoken fun i hi hin => by
    rw [h.style_of_inside htoken hi hin.1 hin.2] at hblank
    cases hblank
  obtain rfl : stop = t.start := by
    have hlast := hplaced.last_eq
    rw [hend, bufferOffset_landing h.sorted h.insertions] at hlast
    exact (Int.ofNat_inj.mp hlast).symm
  obtain ⟨hfirst, hlt⟩ := (hplaced.covers_landing_iff h htoken n).mp ⟨by omega, by omega⟩
  have hnone : ∀ u ∈ r.scan.templates,
      ¬ StartsIn u (piece r.scan.text token first t.start) := by
    rintro u hu ⟨hlow, hhigh⟩
    obtain ⟨c, hmark, hc⟩ := hover.template_char hu
    exact not_covers_of_blank h htoken hblank hc hmark
      ((hplaced.covers_landing_iff h htoken u.start).mpr
        ⟨Int.ofNat_le.mp hlow, Int.ofNat_lt.mp hhigh⟩)
  have hpieces : r.piecesOf token = [piece r.scan.text token first t.start] := by
    obtain ⟨-, heq⟩ := hplaced.pieces.resolve_left (by omega)
    rw [heq, withTemplates_of_none (Int.ofNat_lt.mpr (by omega)) hnone]
  have hahead : ∀ u ∈ r.scan.templates, u.start < first → u.stop ≤ n := by
    intro u hu hlt'
    by_contra hle
    have hdot := hover.dots t (List.mem_reverse.mpr ht) n ⟨hspread, by omega, hlt⟩
    exact hdot.2.2 u (List.mem_reverse.mpr (List.mem_filter.mp hu).1) ⟨by omega, by omega⟩
  obtain ⟨owner, howner, heq, -⟩ :=
    hplaced.owner?_pieces h hover.pieces htoken hfirst hlt hahead
  rw [hpieces] at howner
  exact ⟨first, List.mem_singleton.mp howner ▸ heq⟩

end Dots

/-- White space that shows the blanks of dots is finished with the dots. -/
theorem exists_dots_token {environment : Environment} {buffer : List Char} {stop : Nat}
    (hstop : stop ∈ (ofBuffer environment buffer).scan.spreadEnds) {token : Token}
    (htoken : token ∈ tokenize (ofBuffer environment buffer).transformed)
    (hblank : token.style = .blank)
    (hlow : token.start + spreadDots.length ≤
      (landing (ofBuffer environment buffer).sites stop : Nat))
    (hhigh : (landing (ofBuffer environment buffer).sites stop : Nat) ≤ token.stop) :
    ∃ dots ∈ Service.tokens (ofBuffer environment buffer), dots.text = spreadDots ∧
      dots.style = .keyword ∧ dots.start = stop - spreadDots.length ∧ dots.stop = stop := by
  have h := ofBuffer_named environment buffer
  obtain ⟨hover, -⟩ := Scan.ofBuffer_overwrites environment buffer
  obtain ⟨t, ht, hspread, rfl⟩ := Scan.mem_spreadEnds.mp hstop
  have hle : t.start ≤ buffer.length :=
    (List.getElem?_eq_some_iff.mp (hover.spread_char ht hspread)).1.le.trans h.text_length.le
  obtain ⟨n, hn⟩ : ∃ n, t.start = n + spreadDots.length :=
    ⟨_, (Nat.sub_add_cancel (hover.dotted t (List.mem_reverse.mpr ht) hspread)).symm⟩
  have hwidth : spreadDots.length = 3 := rfl
  obtain ⟨first, howner⟩ := exists_owner_of_dots h hover ht hspread htoken hblank hlow hhigh hn
  obtain ⟨source, hsource, hin, hfinished, hsubset, -⟩ :=
    exists_source_at environment buffer (show n < buffer.length by omega)
  rw [howner] at hsource
  obtain ⟨reach, -, htrimmed⟩ := hsource
  -- trimmed or not, what is finished there stops where the dots do
  have hstart : 0 ≤ source.start := by
    rw [htrimmed]
    exact (Int.natCast_nonneg first).trans
      (le_trimmed_start _ reach (piece _ token first t.start))
  have hlast : source.stop = t.start := by
    rw [htrimmed, trimmed_stop]
    rfl
  have hstyle : source.style = .blank := by
    rw [htrimmed, trimmed_style]
    exact hblank
  obtain ⟨dots, hmem, hdots, hend⟩ := exists_dots hfinished hstart
    (hlast.le.trans (Int.ofNat_le.mpr hle)) hstyle ⟨t.start, hstop, hlast⟩
    (by have := hin.1; omega)
  have hplace := start_of_isDots (hsubset hmem) hdots
  rw [hend, hlast] at hplace
  exact ⟨dots, hsubset hmem, hdots.text, hdots.style, hplace, hend.trans hlast⟩

/-- Templates and dots come back. Where no name lies inside a token of the document, the tokens that
are drawn as templates are the templates of the buffer, one for each, with its place and its text.
The dots of a spread are a keyword right in front of it if the blanks they left were white space. -/
theorem templates_restored (environment : Environment) (buffer : List Char) :
    let r := ofBuffer environment buffer
    ((∀ token ∈ tokenize r.transformed, ∀ i ∈ r.ledger.insertions,
        ¬ (token.start < i.position ∧ i.position < token.stop)) →
      ((Service.tokens r).filter (·.style = .template)).map
          (fun token => (token.start, token.text, token.stop)) =
        r.scan.templates.map fun t => ((t.start : Int), t.text, (t.stop : Int))) ∧
    ∀ stop ∈ r.scan.spreadEnds, ∀ place ∈ r.outside, r.ledger.bufferOffset place = stop →
      ∀ token ∈ tokenize r.transformed, token.style = .blank →
        token.start + spreadDots.length ≤ place → place ≤ token.stop →
        ∃ dots ∈ Service.tokens r, dots.text = spreadDots ∧ dots.style = .keyword ∧
          dots.start = stop - spreadDots.length ∧ dots.stop = stop := by
  intro r
  refine ⟨template_tokens_eq, fun stop hstop place hplace hoffset token htoken hblank => ?_⟩
  obtain ⟨k, hk, rfl⟩ := (ofBuffer_named environment buffer).exists_landing hplace.2
  obtain rfl : k = stop := Int.ofNat_inj.mp (hk.symm.trans hoffset)
  exact exists_dots_token hstop htoken hblank

/-- A named fragment with a spread, in which both come back. -/
theorem templates_restored_spread :
    let r := ofBuffer .lokka "fragment on T\x7b...$\x7bA.b\x7d\n\x7d".toList
    let token : Token := ⟨"   ".toList, .blank, 19, 22, some 1, some "SelectionSet"⟩
    ((∀ token ∈ tokenize r.transformed, ∀ i ∈ r.ledger.insertions,
        ¬ (token.start < i.position ∧ i.position < token.stop)) ∧
      ((Service.tokens r).filter (·.style = .template)).map
          (fun token => (token.start, token.text, token.stop)) =
        [(17, "$\x7bA.b\x7d".toList, 23)]) ∧
    (17 ∈ r.scan.spreadEnds ∧ 22 ∈ r.outside ∧ r.ledger.bufferOffset 22 = 17 ∧
      token ∈ tokenize r.transformed ∧ token.style = .blank ∧
      token.start + spreadDots.length ≤ 22 ∧ 22 ≤ token.stop ∧
      ∃ dots ∈ Service.tokens r, dots.text = spreadDots ∧ dots.style = .keyword ∧
        dots.start = 14 ∧ dots.stop = 17) := by
  intro r token
  have hledger : r.ledger = ⟨[⟨9, 5⟩], 0⟩ := by decide +kernel
  have htemplates : (r.scan.templates.map fun t => ((t.start : Int), t.text, (t.stop : Int))) =
      [(17, "$\x7bA.b\x7d".toList, 23)] := by decide +kernel
  have huncut : ∀ token ∈ tokenize r.transformed, ∀ i ∈ r.ledger.insertions,
      ¬ (token.start < i.position ∧ i.position < token.stop) := by decide +kernel
  have hspread : 17 ∈ r.scan.spreadEnds := by decide +kernel
  have htoken : token ∈ tokenize r.transformed := by decide +kernel
  have hplace : 22 ∈ r.outside := by
    refine ⟨by decide +kernel, fun i hi hcovers => ?_⟩
    rw [hledger] at hi
    rw [List.mem_singleton.mp hi] at hcovers
    exact absurd hcovers.2 (by decide)
  have hoffset : r.ledger.bufferOffset 22 = 17 := by
    rw [hledger]
    decide
  obtain ⟨hsame, hdots⟩ :=
    templates_restored .lokka "fragment on T\x7b...$\x7bA.b\x7d\n\x7d".toList
  exact ⟨⟨huncut, (hsame huncut).trans htemplates⟩, hspread, hplace, hoffset, htoken, rfl,
    by decide, by decide,
    hdots 17 hspread 22 hplace hoffset token htoken rfl (by decide) (by decide)⟩

end Extraction
end EmbeddedGraphQL
