import EmbeddedGraphQL.Proofs.Chaining
import EmbeddedGraphQL.Proofs.MovedTokens
import EmbeddedGraphQL.Service.Command
import Mathlib

/-!
Tokens of an extracted document, restored to the buffer. Each token is followed along its way: what
is left of it outside the names, the templates that start in it, and the text it ends up with in the
chain. A token that shows a field written for a template starts inside what the chain has reached,
and one that shows the blanks of dots is white space that ends where the dots do.
-/
namespace EmbeddedGraphQL

namespace Template

/-- Whether a field is written over a template. -/
def IsField (t : Template) : Prop := t.standIn = .field ∨ t.standIn = .spread

/-- A field and the blanks behind it hold no line break, no quote and no character of `on`. -/
theorem IsField.notMem_write {t : Template} (h : t.IsField) :
    ∀ c ∈ ['o', '\n', '"'], c ∉ t.standIn.write t.text := by
  intro c hc hmem
  have hfield : c ∈ templateField ∨ c ∈ spreadField ∨ c = ' ' := by
    rcases h with h | h <;> rw [h] at hmem <;> rcases StandIn.mem_padded hmem with hmem | rfl
    · exact Or.inl hmem
    · exact Or.inr (Or.inr rfl)
    · exact Or.inr (Or.inl hmem)
    · exact Or.inr (Or.inr rfl)
  fin_cases hc <;> rcases hfield with hfield | hfield | hfield <;> exact absurd hfield (by decide)

end Template

namespace Overwrites
open Text Restoration

variable {environment : Environment} {r : Extraction}
  (h : Overwrites environment r.buffer r.scan.text r.scan.found.reverse)
include h

theorem spreads_dotted : Dotted r.buffer r.scan.spreadEnds := by
  intro stop hstop
  obtain ⟨t, ht, hspread, rfl⟩ := Scan.mem_spreadEnds.mp hstop
  exact h.slice_dots (List.mem_reverse.mpr ht) hspread

theorem start_lt_stop {t : Template} (ht : t ∈ r.scan.found) : t.start < t.stop :=
  (Nat.lt_add_of_pos_right Nat.two_pos).trans_le (h.add_two_le_stop (List.mem_reverse.mpr ht))

theorem pieces : Pieces r.buffer r.scan.templates := by
  have hfound {t : Template} (ht : t ∈ r.scan.templates) : t ∈ r.scan.found :=
    (List.mem_filter.mp ht).1
  refine ⟨?_, fun t ht => h.start_lt_stop (hfound ht), fun t ht => ?_, fun t ht => ?_⟩
  · have hordered := h.ordered
    rw [List.pairwise_reverse] at hordered
    exact hordered.filter _
  · exact (h.stop_le t (List.mem_reverse.mpr (hfound ht))).trans h.length_le
  · exact (h.slice_buffer (List.mem_reverse.mpr (hfound ht))).symm

/-- A character written for a field is none of a line break, a quote and an `o`. -/
theorem field_char {t : Template} (ht : t ∈ r.scan.found) (hfield : t.IsField) {k : Nat}
    (hk : t.Covers k) : ∃ c, r.scan.text[k]? = some c ∧ c ∉ ['o', '\n', '"'] := by
  have ht := List.mem_reverse.mpr ht
  have hlt := h.lt_of_covers ht hk
  refine ⟨r.scan.text[k], List.getElem?_eq_getElem hlt, fun hc => ?_⟩
  have hwritten := h.written_of_covers ht hk
  rw [List.getElem?_eq_getElem hlt] at hwritten
  exact hfield.notMem_write _ hc (List.mem_of_getElem? hwritten.symm)

/-- Behind the first character a comment shows the template. -/
theorem comment_char {t : Template} (ht : t ∈ r.scan.found) (hcomment : t.standIn = .comment)
    {k : Nat} (hk : t.Covers k) (hlt : t.start < k) : r.scan.text[k]? = r.buffer[k]? := by
  have ht := List.mem_reverse.mpr ht
  rw [h.written_of_covers ht hk, h.buffer_of_covers ht hk, hcomment]
  obtain ⟨j, hj⟩ : ∃ j, k - t.start = j + 1 := ⟨k - t.start - 1, by omega⟩
  rw [hj, StandIn.write, List.getElem?_cons_succ, List.getElem?_tail]

/-- Two underscores are written over a spread. -/
theorem spread_char {t : Template} (ht : t ∈ r.scan.found) (hspread : t.standIn = .spread) :
    r.scan.text[t.start]? = some '_' := by
  have hlt := h.start_lt_stop ht
  rw [h.written_of_covers (List.mem_reverse.mpr ht) ⟨le_rfl, hlt⟩, hspread, Nat.sub_self]
  rfl

end Overwrites

namespace Extraction
open Text FragmentName Restoration

/-- Every field written for a template in front of an offset ends there, or in what has been
reached. -/
def Caught (r : Extraction) (k : Nat) (reach : Int) : Prop :=
  ∀ t ∈ r.scan.found, t.IsField → t.start < k → (t.stop : Int) ≤ reach ∨ t.stop ≤ k

/-- A token of the document, with the blanks it can follow. -/
structure TokenAt (r : Extraction) (token : Token) (a b : Nat) : Prop where
  start : token.start = a
  stop : token.stop = b
  lt : a < b
  le : b ≤ r.transformed.length
  text : token.text = slice r.transformed a b
  bounded : Bounded token r.transformed[b]?
  follows : ∀ j, a = j + 1 → r.transformed[j]? = some ' ' → r.transformed[a]? ≠ some ' '

namespace TokenAt

variable {r : Extraction} {token : Token} {a b : Nat}

theorem getLast? (htoken : r.TokenAt token a b) :
    token.text.getLast? = r.transformed[b - 1]? := by
  have := htoken.lt
  rw [List.getLast?_eq_getElem?, htoken.text, length_slice htoken.le, getElem?_slice,
    if_pos (by omega)]
  congr 1
  omega

theorem getElem? (htoken : r.TokenAt token a b) {j : Nat} (hlow : a ≤ j) (hhigh : j < b) :
    token.text[j - a]? = r.transformed[j]? := by
  rw [htoken.text, getElem?_slice, Nat.add_sub_of_le hlow, if_pos hhigh]

end TokenAt

namespace Named

variable {r : Extraction} {a b k m : Nat}

/-- An offset of the document whose place is no site is the landing of its place. -/
theorem eq_landing (h : r.Named) (hk : r.ledger.bufferOffset a = k) (hsite : k ∉ r.sites) :
    a = landing r.sites k := by
  have hlow := (le_bufferOffset_iff h.sorted h.insertions k a).mp hk.ge
  have hhigh : a < boundary r.sites (k + 1) := by
    rw [← not_le, ← le_bufferOffset_iff h.sorted h.insertions, hk]
    omega
  rw [boundary_succ h.sorted, if_neg hsite] at hhigh
  rw [landing_eq h.sorted, if_neg hsite]
  omega

/-- The characters around such an offset are those around its place. -/
theorem chars_around (h : r.Named) (hk : r.ledger.bufferOffset a = k) (hsite : k ∉ r.sites)
    (hpos : 0 < k) :
    0 < a ∧ r.transformed[a - 1]? = r.scan.text[k - 1]? ∧ r.transformed[a]? = r.scan.text[k]? := by
  have ha := h.eq_landing hk hsite
  have hnext := landing_add_one r.sites (k - 1)
  rw [Nat.sub_add_cancel hpos] at hnext
  have hlanding := landing_eq h.sorted k
  rw [if_neg hsite] at hlanding
  have hbefore : a - 1 = landing r.sites (k - 1) := by omega
  exact ⟨by omega, by rw [hbefore, h.getElem?_landing], by rw [ha, h.getElem?_landing]⟩

theorem notMem_sites {c : Char} (hc : r.scan.text[k]? = some c) (hne : c ≠ 'o') :
    k ∉ r.sites := by
  intro hsite
  have hword := (site_spec hsite).1
  rw [hc] at hword
  exact hne (Option.some.inj hword)

/-- No place of the document lies behind the end of the buffer. -/
theorem place_le (h : r.Named) (hm : r.ledger.bufferOffset b = m)
    (hle : b ≤ r.transformed.length) : m ≤ r.buffer.length := by
  by_contra hlt
  have hbound := boundary_lt r.sites (Nat.lt_of_not_le hlt)
  have hlow := (le_bufferOffset_iff h.sorted h.insertions m b).mp hm.ge
  rw [h.transformed_length] at hle
  omega

/-- A name starts at the place where the text before its site ends. -/
theorem name_char (h : r.Named) {site : Nat} (hsite : site ∈ r.sites) :
    r.transformed[boundary r.sites site]? = some '_' := by
  have hname := h.name_at hsite (show 0 < fragmentNameText.length by decide)
  rwa [Nat.add_zero] at hname

/-- The character in front of a name is a blank. -/
theorem blank_before_name (h : r.Named) {site : Nat} (hsite : site ∈ r.sites) :
    ∃ c, r.transformed[boundary r.sites site - 1]? = some c ∧ isBlank c = true := by
  obtain ⟨-, hpos, c, hc, hblank⟩ := site_spec hsite
  have hnext := landing_add_one r.sites (site - 1)
  rw [Nat.sub_add_cancel hpos] at hnext
  refine ⟨c, ?_, hblank⟩
  rw [← hnext, Nat.add_sub_cancel, h.getElem?_landing]
  exact hc

end Named

section Along

variable {environment : Environment} {r : Extraction} {token : Token} {a b k m stop : Nat}
  (h : r.Named) (hover : Overwrites environment r.buffer r.scan.text r.scan.found.reverse)
  (htoken : r.TokenAt token a b) (hk : r.ledger.bufferOffset a = k)
  (hm : r.ledger.bufferOffset b = m)
include h hover htoken hk hm

/-- A token that shows blanked dots, but not the spread behind them, is white space that ends where
the dots do and starts at or before the first. -/
theorem dots_of_token (hlast : stop ≤ m) (hend : stop = m ∨ stop ∈ r.sites) {t : Template}
    (ht : t ∈ r.scan.found) {j : Nat} (hdot : t.CoversDot j) (hlow : k ≤ j) (hhigh : j < stop)
    (hbehind : stop ≤ t.start) :
    token.style = .blank ∧ stop = t.start ∧ k + spreadDots.length ≤ t.start := by
  obtain ⟨hspread, hfirst, hbefore⟩ := hdot
  have hwidth : spreadDots.length = 3 := rfl
  have hfound := List.mem_reverse.mpr ht
  have hblank {i : Nat} (hlow : t.start ≤ i + spreadDots.length) (hhigh : i < t.start) :
      r.scan.text[i]? = some ' ' := (hover.dots t hfound i ⟨hspread, hlow, hhigh⟩).2.1
  have hnext : r.scan.text[stop]? = some ' ' ∧ stop < t.start ∨
      r.scan.text[stop]? = some '_' ∧ stop = t.start := by
    rcases hbehind.lt_or_eq with hlt | rfl
    · exact Or.inl ⟨hblank (by omega) hlt, hlt⟩
    · exact Or.inr ⟨hover.spread_char ht hspread, rfl⟩
  have hsite : stop ∉ r.sites := by
    rcases hnext with ⟨hc, -⟩ | ⟨hc, -⟩ <;> exact Named.notMem_sites hc (by decide)
  obtain rfl : stop = m := hend.resolve_right hsite
  obtain ⟨-, hlastChar, hnextChar⟩ := h.chars_around hm hsite (by omega)
  have hlastBlank : token.text.getLast? = some ' ' := by
    rw [htoken.getLast?, hlastChar]
    exact hblank (by omega) (by omega)
  have hafter : r.transformed[b]? = some ' ' ∨ r.transformed[b]? = some '_' := by
    rw [hnextChar]
    exact hnext.imp And.left And.left
  obtain ⟨hunderscore, hstyle⟩ := htoken.bounded.blank hlastBlank hafter
  have hstop : stop = t.start := by
    rcases hnext with ⟨hc, -⟩ | ⟨-, heq⟩
    · rw [hnextChar, hc] at hunderscore
      exact absurd hunderscore (by decide)
    · exact heq
  refine ⟨hstyle, hstop, ?_⟩
  by_contra hlate
  have hdotted := hover.dotted t hfound hspread
  have hchar := hblank (show t.start ≤ k + spreadDots.length by omega) (by omega)
  obtain ⟨hpos, hbeforeChar, hfirstChar⟩ :=
    h.chars_around hk (Named.notMem_sites hchar (by decide)) (by omega)
  refine htoken.follows (a - 1) (by omega) ?_ (hfirstChar.trans hchar)
  rw [hbeforeChar]
  exact hblank (by omega) (by omega)

/-- A token that is cut at a site ends at a line break, a quote or the end of the document, and so
not inside a field. -/
theorem stop_le_of_cut (hsite : stop ∈ r.sites) (hbehind : k < stop) (hcut : stop < m)
    {t : Template} (ht : t ∈ r.scan.found) (hfield : t.IsField) (hlt : t.start < m) :
    t.stop ≤ m := by
  by_contra hgt
  obtain ⟨c, hc, hnot⟩ := hover.field_char ht hfield ⟨hlt.le, Nat.lt_of_not_le hgt⟩
  obtain ⟨d, hd, hnot'⟩ := hover.field_char ht hfield
    (show t.Covers (m - 1) from ⟨by omega, by omega⟩)
  have hfree : m ∉ r.sites := by
    refine Named.notMem_sites hc ?_
    rintro rfl
    exact hnot (by decide)
  obtain ⟨-, hlastChar, hnextChar⟩ := h.chars_around hm hfree (by omega)
  obtain ⟨blank, hblank, hisBlank⟩ := h.blank_before_name hsite
  have hlow : a < boundary r.sites stop := by
    rw [← not_le, h.position_le_iff hk]
    omega
  have hhigh : boundary r.sites stop < b := by
    have := boundary_lt r.sites hcut
    have := (le_bufferOffset_iff h.sorted h.insertions m b).mp hm.ge
    omega
  have hfirst := (htoken.getElem? (by omega) (by omega)).trans hblank
  have hsecond := (htoken.getElem? hlow.le hhigh).trans (h.name_char hsite)
  rw [show boundary r.sites stop - a = boundary r.sites stop - 1 - a + 1 by omega] at hsecond
  rcases htoken.bounded.inner _ _ hfirst hisBlank hsecond with hnext | hlast
  · rw [hnextChar, hc] at hnext
    simp at hnext hnot
    tauto
  · rw [htoken.getLast?, hlastChar, hd] at hlast
    rw [Option.some.inj hlast] at hnot'
    exact hnot' (by decide)

/-- What is left of a token is finished to the text at its place, if no template starts in it and
what has been reached does not trim it. -/
theorem finish_untouched {reach : Int} (hcaught : r.Caught k reach) (hreach : reach ≤ k)
    (hbehind : k < stop) (hlast : stop ≤ m) (hend : stop = m ∨ stop ∈ r.sites)
    (hnone : ∀ t ∈ r.scan.templates, ¬ (k ≤ t.start ∧ t.start < stop)) :
    Tiles r.buffer k stop (finish r (piece r.scan.text token k stop)) := by
  have hle := hlast.trans (h.place_le hm htoken.le)
  have htemplate {t : Template} (ht : t ∈ r.scan.found) (hne : t.standIn ≠ .blank) {j : Nat}
      (hcover : t.Covers j) (hlow : k ≤ j) (hhigh : j < stop) : t.start < k := by
    have := hnone t (List.mem_filter.mpr ⟨ht, by simpa using hne⟩)
    have := hcover.1
    omega
  refine finish_tiles hover.spreads_dotted (piece r.scan.text token k stop) rfl rfl hbehind hle
    fun hblank => ⟨length_slice (hle.trans h.text_length.ge), fun j hlow hhigh => ?_⟩
  simp only [piece, getElem?_slice, Nat.add_sub_of_le hlow, if_pos hhigh]
  by_cases hcover : ∃ t ∈ r.scan.found, t.Covers j
  · obtain ⟨t, ht, hcover⟩ := hcover
    left
    cases hkind : t.standIn with
    | blank =>
      have hoverlap : r.scan.isBlanked k stop = true := by
        refine List.any_eq_true.mpr ⟨t, List.mem_filter.mpr ⟨ht, by simp [hkind]⟩, ?_⟩
        obtain ⟨hfirst, hstop⟩ := hcover
        simp only [Bool.and_eq_true, decide_eq_true_eq]
        omega
      rw [hblank] at hoverlap
      cases hoverlap
    | comment =>
      have hlt := htemplate ht (by simp [hkind]) hcover hlow hhigh
      exact hover.comment_char ht hkind hcover (hlt.trans_le hlow)
    | field | spread =>
      have hlt := htemplate ht (by simp [hkind]) hcover hlow hhigh
      have hfield : t.IsField := by simp [Template.IsField, hkind]
      have hstop := hcover.2
      rcases hcaught t ht hfield hlt with hcaught | hcaught <;> omega
  by_cases hdot : ∃ t ∈ r.scan.found, t.CoversDot j
  · obtain ⟨t, ht, hdot⟩ := hdot
    have hbefore := hdot.2.2
    have hstart := hnone t (List.mem_filter.mpr ⟨ht, by simp [hdot.1]⟩)
    obtain ⟨hstyle, rfl, hwide⟩ := dots_of_token h hover htoken hk hm hlast hend ht hdot hlow hhigh
      (by omega)
    exact Or.inr ⟨hstyle, Scan.mem_spreadEnds.mpr ⟨t, ht, hdot.1, rfl⟩, hwide, hdot.2.1⟩
  · simp only [not_exists, not_and] at hcover hdot
    left
    exact hover.outside j (h.text_length ▸ hhigh.trans_le hle)
      (fun t ht => hcover t (List.mem_reverse.mp ht)) fun t ht => hdot t (List.mem_reverse.mp ht)

/-- The pieces of what is left of a token make a sound chain, which reaches its end and the end of
every template that starts in it. -/
theorem pieces_sound {reach : Int} (hcaught : r.Caught k reach) (hbehind : k < stop)
    (hlast : stop ≤ m) (hend : stop = m ∨ stop ∈ r.sites) :
    let pieces := withTemplates r.buffer r.scan.templates (piece r.scan.text token k stop)
    Sound r reach pieces ∧ (stop : Int) ≤ reached reach pieces ∧
      ∀ t ∈ r.scan.templates, k ≤ t.start → t.start < stop →
        (t.stop : Int) ≤ reached reach pieces := by
  intro pieces
  have hle := hlast.trans (h.place_le hm htoken.le)
  have hplace : Placed r.buffer (piece r.scan.text token k stop) :=
    ⟨Int.natCast_nonneg k, Int.ofNat_lt.mpr hbehind, Int.ofNat_le.mpr hle⟩
  by_cases hstart : ∃ t ∈ r.scan.templates, StartsIn t (piece r.scan.text token k stop)
  · have hshows : Shows r.buffer (piece r.buffer token k stop) :=
      shows_piece token hplace.start_nonneg hplace.start_lt hplace.stop_le
    have hpieces :
        pieces = withTemplates r.buffer r.scan.templates (piece r.buffer token k stop) :=
      withTemplates_congr hover.pieces hstart (slice r.buffer k stop)
    have hrestores := withTemplates_restores hover.pieces hshows
    rw [← hpieces] at hrestores
    obtain ⟨last, hmem, hstop⟩ := hrestores.exists_stop hshows.start_lt
    have hall := hrestores.shows hover.pieces hshows.toPlaced
    refine ⟨sound_of_shows hover.spreads_dotted hall reach,
      hstop.trans (stop_le_reached reach hmem), fun t ht hfirst hlt => ?_⟩
    obtain ⟨piece, hpiece, hreached⟩ := hrestores.exists_template_stop hover.pieces ht
      ⟨Int.ofNat_le.mpr hfirst, Int.ofNat_lt.mpr hlt⟩
    exact hreached.trans (stop_le_reached reach hpiece)
  · simp only [not_exists, not_and] at hstart
    have hnone : ∀ t ∈ r.scan.templates, ¬ (k ≤ t.start ∧ t.start < stop) :=
      fun t ht hin => hstart t ht ⟨Int.ofNat_le.mpr hin.1, Int.ofNat_lt.mpr hin.2⟩
    have hpieces : pieces = _ := withTemplates_of_none hplace.start_lt hstart
    rw [hpieces]
    have hfinish (hreach : reach ≤ k) :=
      finish_untouched h hover htoken hk hm hcaught hreach hbehind hlast hend hnone
    exact ⟨⟨hplace, hfinish, trivial⟩, le_max_right _ _,
      fun t ht hfirst hlt => absurd ⟨hfirst, hlt⟩ (hnone t ht)⟩

/-- Behind a token, the fields in front of its end are caught by what its pieces have reached. -/
theorem caught_next {reach : Int} (hcaught : r.Caught k reach) (hbehind : k < stop)
    (hlast : stop ≤ m) (hend : stop = m ∨ stop ∈ r.sites) :
    r.Caught m (reached reach
      (withTemplates r.buffer r.scan.templates (piece r.scan.text token k stop))) := by
  obtain ⟨-, -, htemplates⟩ := pieces_sound h hover htoken hk hm hcaught hbehind hlast hend
  intro t ht hfield hlt
  have htemplate : t ∈ r.scan.templates := by
    refine List.mem_filter.mpr ⟨ht, ?_⟩
    rcases hfield with hkind | hkind <;> simp [hkind]
  rcases Nat.lt_or_ge t.start k with hbefore | hfirst
  · rcases hcaught t ht hfield hbefore with hreach | hstop
    · exact Or.inl (hreach.trans (le_reached reach _))
    · exact Or.inr (by omega)
  rcases Nat.lt_or_ge t.start stop with hin | hcut
  · exact Or.inl (htemplates t htemplate hfirst hin)
  · have hsite := hend.resolve_left (by omega)
    exact Or.inr (stop_le_of_cut h hover htoken hk hm hsite hbehind (by omega) ht hfield hlt)

end Along

/-- The moved and restored tokens from an offset of the document on make a sound chain. -/
theorem sound_of_tiles {environment : Environment} {r : Extraction} (h : r.Named)
    (hover : Overwrites environment r.buffer r.scan.text r.scan.found.reverse)
    {tokens : List Token} {a k : Nat} {reach : Int}
    (htiles : BoundedTiles r.transformed a r.transformed.length tokens)
    (hfollows : ∀ j, a = j + 1 → r.transformed[j]? = some ' ' → r.transformed[a]? ≠ some ' ')
    (hk : r.ledger.bufferOffset a = k) (hcaught : r.Caught k reach) :
    Sound r reach ((tokens.filterMap (moved? r.ledger)).flatMap
      (withTemplates r.buffer r.scan.templates)) := by
  induction tokens generalizing a k reach with
  | nil => trivial
  | cons token rest ih =>
    obtain ⟨⟨hstart, hlt, htext, hrest⟩, hbounded⟩ := htiles
    obtain ⟨hbound, hbounded⟩ := List.forall_mem_cons.mp hbounded
    obtain ⟨b, hstop⟩ := Int.eq_ofNat_of_zero_le
      (show 0 ≤ token.stop from (hstart ▸ Int.natCast_nonneg a).trans hlt.le)
    rw [hstop, Int.toNat_natCast] at hbound
    rw [hstart, hstop] at hlt htext
    rw [hstop] at hrest
    have htoken : r.TokenAt token a b :=
      ⟨hstart, hstop, Int.ofNat_lt.mp hlt, Int.ofNat_le.mp hrest.le, htext, hbound, hfollows⟩
    have hnext : ∀ j, b = j + 1 → r.transformed[j]? = some ' ' →
        r.transformed[b]? ≠ some ' ' := by
      rintro j rfl hlast hfirst
      have hblank := (hbound.blank (htoken.getLast?.trans hlast) (Or.inl hfirst)).1
      rw [hfirst] at hblank
      exact absurd hblank (by decide)
    obtain ⟨m, hm⟩ := h.bufferOffset_eq b
    rcases h.moved?_eq hstart hstop htoken.lt htext hk hm with
      ⟨hnone, rfl⟩ | ⟨stop, hbehind, hlast, hend, -, hmoved⟩
    · rw [List.filterMap_cons, hnone]
      exact ih ⟨hrest, hbounded⟩ hnext hm hcaught
    · rw [List.filterMap_cons, hmoved, List.flatMap_cons]
      exact (pieces_sound h hover htoken hk hm hcaught hbehind hlast hend).1.append
        (ih ⟨hrest, hbounded⟩ hnext hm
          (caught_next h hover htoken hk hm hcaught hbehind hlast hend))

/-- The tokens of a document, moved to the buffer and split at the templates in them. -/
def pieces (r : Extraction) : List Token :=
  ((Highlight.tokenize r.transformed).filterMap (moved? r.ledger)).flatMap
    (withTemplates r.buffer r.scan.templates)

/-- The tokens of a buffer are the chain of those pieces. -/
theorem tokens_eq_chain (environment : Environment) (buffer : List Char) :
    let r := ofBuffer environment buffer
    Service.tokens r = chainFrom r none 0 r.pieces := by
  intro r
  have h : r.Named := ofBuffer_named environment buffer
  have htiles := Highlight.tokenize_tiles r.transformed
  unfold Service.tokens restore pieces
  split
  next hnone =>
    rw [hnone] at htiles ⊢
    have hlength : r.transformed.length = 0 := Int.ofNat_inj.mp htiles.1.symm
    have hempty : r.buffer = [] := by
      have hboundary := h.transformed_length
      unfold boundary at hboundary
      exact List.length_eq_zero_iff.mp (by omega)
    simp [hempty, chainFrom]
  next => rw [unshift_eq htiles.1.sorted]

theorem sound_pieces (environment : Environment) (buffer : List Char) :
    let r := ofBuffer environment buffer
    Sound r 0 r.pieces := by
  intro r
  have h : r.Named := ofBuffer_named environment buffer
  obtain ⟨hover, -⟩ := Scan.ofBuffer_overwrites environment buffer
  have hzero : r.ledger.bufferOffset (0 : Nat) = (0 : Nat) := by
    have hboundary := bufferOffset_boundary h.sorted h.insertions 0
    rwa [boundary_zero] at hboundary
  exact sound_of_tiles h hover (Highlight.tokenize_tiles r.transformed) (by simp) hzero
    fun t _ _ hlt => absurd hlt (Nat.not_lt_zero _)

/-- The tokens of a buffer tile it. -/
theorem tokens_tile (environment : Environment) (buffer : List Char) :
    Tiles buffer 0 buffer.length (Service.tokens (ofBuffer environment buffer)) := by
  obtain ⟨hover, -⟩ := Scan.ofBuffer_overwrites environment buffer
  rw [tokens_eq_chain]
  exact chainFrom_tiles hover.spreads_dotted (sound_pieces environment buffer) le_rfl
    (Int.natCast_nonneg _) none

theorem tokens_text (environment : Environment) (buffer : List Char) :
    (Service.tokens (ofBuffer environment buffer)).flatMap (·.text) = buffer := by
  rw [(tokens_tile environment buffer).texts le_rfl]
  exact slice_zero_length buffer

/-- Every template has the text at its place. -/
theorem templates_unmoved (environment : Environment) (buffer : List Char) :
    let r := ofBuffer environment buffer
    r.scan.templates.filter (fun t => slice r.buffer t.start t.stop != t.text) = [] := by
  intro r
  obtain ⟨hover, -⟩ := Scan.ofBuffer_overwrites environment buffer
  refine List.filter_eq_nil_iff.mpr fun t ht => ?_
  have hfound := List.mem_reverse.mpr (List.mem_filter.mp ht).1
  have htext : slice r.buffer t.start t.stop = t.text := hover.slice_buffer hfound
  simp [htext]

/-- Tokens go round. Whatever the buffer and the embedding conventions, the tokens of the extracted
document, restored to the buffer, tile it from its start to its end: none is empty, each starts
where the one before it stops and shows the text at its place. Their texts make up the buffer, and
nothing is found to be wrong with them. -/
theorem tokens_round_trip (environment : Environment) (buffer : List Char) :
    let r := ofBuffer environment buffer
    let restored := Service.tokens r
    Tiles buffer 0 buffer.length restored ∧
      restored.flatMap (·.text) = buffer ∧
      faults r (Highlight.tokenize r.transformed) = [] := by
  intro r restored
  have htext : (restore r (Highlight.tokenize r.transformed)).flatMap (·.text) = r.buffer :=
    tokens_text environment buffer
  have hmoved := templates_unmoved environment buffer
  refine ⟨tokens_tile environment buffer, tokens_text environment buffer, ?_⟩
  unfold faults
  split_ifs with hempty
  · rfl
  · exact List.map_eq_nil_iff.mpr hmoved

end Extraction
end EmbeddedGraphQL
