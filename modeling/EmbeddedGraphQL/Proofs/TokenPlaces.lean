import EmbeddedGraphQL.Proofs.Coverage
import EmbeddedGraphQL.Proofs.Owners
import EmbeddedGraphQL.Proofs.RoundTrip
import EmbeddedGraphQL.Proofs.Shorthands
import Mathlib

/-!
Tokens of a document and the places of the buffer that come from them. What is left of a token stops
at the first name inside it, and a token with a name inside it is a string. Up to that name its
places are owned by its pieces; behind it nothing owns them.
-/
namespace EmbeddedGraphQL.Extraction
open Text FragmentName Restoration Highlight

/-- The pieces of a token of a document: what is left of it, split at the templates in it. -/
def piecesOf (r : Extraction) (token : Token) : List Token :=
  (moved? r.ledger token).toList.flatMap (withTemplates r.buffer r.scan.templates)

theorem pieces_eq_flatMap (r : Extraction) :
    r.pieces = (tokenize r.transformed).flatMap r.piecesOf := by
  unfold pieces piecesOf
  rw [List.filterMap_eq_flatMap_toList, List.flatMap_assoc]

/-- The places of a token in the buffer. It starts at `first` and stops at `last`, and what is left
of it stops at `stop`, which is a site if it is not the end. -/
structure PlacedAt (r : Extraction) (token : Token) (first stop last : Nat) : Prop where
  first_eq : r.ledger.bufferOffset token.start = first
  last_eq : r.ledger.bufferOffset token.stop = last
  first_le : first ≤ stop
  stop_le : stop ≤ last
  last_le : last ≤ r.buffer.length
  cut : stop = last ∨ stop ∈ r.sites
  uncut : ∀ site ∈ r.sites, ¬ (first < site ∧ site < stop)
  pieces : first = last ∧ r.piecesOf token = [] ∨ first < stop ∧
    r.piecesOf token =
      withTemplates r.buffer r.scan.templates (piece r.scan.text token first stop)

namespace Named

variable {r : Extraction} (h : r.Named)
include h

theorem exists_placedAt {token : Token} (htoken : token ∈ tokenize r.transformed) :
    ∃ first stop last, r.PlacedAt token first stop last := by
  have htiles := (tokenize_tiles r.transformed).1
  obtain ⟨a, b, ha, hb, hlt, hstop⟩ := htiles.exists_offsets le_rfl htoken
  have htext := htiles.text_eq token htoken
  rw [ha, hb] at htext
  obtain ⟨first, hfirst⟩ := h.bufferOffset_eq a
  obtain ⟨last, hlast⟩ := h.bufferOffset_eq b
  have hle := h.place_le hlast (Int.ofNat_le.mp hstop)
  rcases h.moved?_eq ha hb hlt htext hfirst hlast with
    ⟨hnone, rfl⟩ | ⟨stop, hbehind, hstop, hcut, hfree, hmoved⟩
  · exact ⟨first, first, first, ⟨ha ▸ hfirst, hb ▸ hlast, le_rfl, le_rfl, hle, Or.inl rfl,
      fun site _ hin => by omega, Or.inl ⟨rfl, by simp [piecesOf, hnone]⟩⟩⟩
  · exact ⟨first, stop, last, ⟨ha ▸ hfirst, hb ▸ hlast, hbehind.le, hstop, hle, hcut, hfree,
      Or.inr ⟨hbehind, by simp [piecesOf, hmoved]⟩⟩⟩

end Named

namespace PlacedAt

variable {r : Extraction} {token : Token} {first stop last : Nat}
  (hplaced : r.PlacedAt token first stop last)
include hplaced

theorem lt_of_lt (hlt : first < last) : first < stop :=
  hplaced.pieces.elim (fun h => absurd h.1 hlt.ne) And.left

theorem pieceOf (hpieces : Pieces r.buffer r.scan.templates) {part : Token}
    (hpart : part ∈ r.piecesOf token) :
    PieceOf r.scan.templates (piece r.scan.text token first stop) part := by
  rcases hplaced.pieces with ⟨-, hnone⟩ | ⟨hlt, heq⟩
  · rw [hnone] at hpart
    cases hpart
  · rw [heq] at hpart
    have hplace : Placed r.buffer (piece r.scan.text token first stop) :=
      ⟨Int.natCast_nonneg first, Int.ofNat_lt.mpr hlt,
        Int.ofNat_le.mpr (hplaced.stop_le.trans hplaced.last_le)⟩
    exact (withTemplates_owner hpieces hplace).1 part hpart

theorem exists_owner (hpieces : Pieces r.buffer r.scan.templates) {place : Nat}
    (hlow : first ≤ place) (hhigh : place < stop) :
    ∃ owner, owner? (r.piecesOf token) place = some owner := by
  have hlast := hplaced.stop_le
  rcases hplaced.pieces with ⟨rfl, -⟩ | ⟨hlt, heq⟩
  · omega
  · rw [heq]
    have hplace : Placed r.buffer (piece r.scan.text token first stop) :=
      ⟨Int.natCast_nonneg first, Int.ofNat_lt.mpr hlt,
        Int.ofNat_le.mpr (hplaced.stop_le.trans hplaced.last_le)⟩
    exact (withTemplates_owner hpieces hplace).2 place (Int.ofNat_le.mpr hlow)
      (Int.ofNat_lt.mpr hhigh)

/-- A piece stops with the token it is left from, or it is a template and stops where that does. -/
theorem stop_of_piece (hpieces : Pieces r.buffer r.scan.templates) {part : Token}
    (hpart : part ∈ r.piecesOf token) {place : Int} (hstop : (stop : Int) ≤ place)
    (htemplates : ∀ t ∈ r.scan.templates, t.start < stop → (t.stop : Int) ≤ place) :
    part.stop ≤ place := by
  cases hplaced.pieceOf hpieces hpart with
  | part _ _ hle => exact hle.trans hstop
  | template ht hstarts _ _ heq => exact heq ▸ htemplates _ ht (Int.ofNat_lt.mp hstarts.2)

end PlacedAt

namespace Named

variable {r : Extraction} (h : r.Named)
include h

theorem landing_lt_length {offset : Nat} (hoffset : offset < r.buffer.length) :
    landing r.sites offset < r.transformed.length := by
  rw [← h.landing_length]
  exact landing_strictMono r.sites hoffset

/-- The token of the document that an offset of the buffer stands in. -/
theorem existsUnique_token {offset : Nat} (hoffset : offset < r.buffer.length) :
    ∃ owner, ∀ token,
      token ∈ tokenize r.transformed ∧ token.Covers (landing r.sites offset) ↔ token = owner :=
  (tokenize_tiles r.transformed).1.existsUnique_covers (Int.natCast_nonneg _)
    (Int.ofNat_lt.mpr (h.landing_lt_length hoffset))

end Named

/-- The pieces in front of those of a token and behind them. -/
theorem pieces_split {r : Extraction} {token : Token} (htoken : token ∈ tokenize r.transformed) :
    ∃ earlier later : List Token,
      r.pieces = earlier.flatMap r.piecesOf ++ (r.piecesOf token ++ later.flatMap r.piecesOf) ∧
      (∀ other ∈ earlier, other ∈ tokenize r.transformed ∧ other.stop ≤ token.start) ∧
      ∀ other ∈ later, other ∈ tokenize r.transformed ∧ token.stop ≤ other.start := by
  obtain ⟨earlier, later, hsplit⟩ := List.append_of_mem htoken
  have hordered := (tokenize_tiles r.transformed).1.ordered
  rw [hsplit] at hordered
  obtain ⟨-, hrest, hearlier⟩ := List.pairwise_append.mp hordered
  refine ⟨earlier, later, ?_, fun other hother => ⟨?_, hearlier other hother token (by simp)⟩,
    fun other hother => ⟨?_, (List.pairwise_cons.mp hrest).1 other hother⟩⟩
  · rw [pieces_eq_flatMap, hsplit, List.flatMap_append, List.flatMap_cons]
  · rw [hsplit]
    exact List.mem_append_left _ hother
  · rw [hsplit]
    exact List.mem_append_right _ (List.mem_cons_of_mem _ hother)

namespace PlacedAt

variable {r : Extraction} {token : Token} {first stop last : Nat}
  (hplaced : r.PlacedAt token first stop last) (h : r.Named)
  (hpieces : Pieces r.buffer r.scan.templates)
include hplaced h hpieces

/-- The pieces of earlier tokens stop in front of a token, except templates. -/
private theorem earlier_stop {other part : Token} (hother : other ∈ tokenize r.transformed)
    (hle : other.stop ≤ token.start) (hpart : part ∈ r.piecesOf other) {place : Nat}
    (hlow : first ≤ place)
    (htemplates : ∀ t ∈ r.scan.templates, t.start < first → t.stop ≤ place) :
    part.stop ≤ place := by
  obtain ⟨first', stop', last', hplaced'⟩ := h.exists_placedAt hother
  have hmono := Ledger.bufferOffset_mono h.ordered hle
  rw [hplaced'.last_eq, hplaced.first_eq] at hmono
  have hstop := hplaced'.stop_le
  exact hplaced'.stop_of_piece hpieces hpart (by omega)
    fun t ht hlt => Int.ofNat_le.mpr (htemplates t ht (by omega))

/-- In front of the first name in a token, a place is owned by one of its pieces. -/
theorem owner?_pieces (htoken : token ∈ tokenize r.transformed) {place : Nat}
    (hlow : first ≤ place) (hhigh : place < stop)
    (htemplates : ∀ t ∈ r.scan.templates, t.start < first → t.stop ≤ place) :
    ∃ owner ∈ r.piecesOf token, owner? r.pieces place = some owner ∧ owner.Covers place := by
  obtain ⟨earlier, later, hsplit, hearlier, -⟩ := pieces_split htoken
  obtain ⟨owner, howner⟩ := hplaced.exists_owner hpieces hlow hhigh
  obtain ⟨hmem, hcovers⟩ := mem_of_owner? howner
  refine ⟨owner, hmem, ?_, hcovers⟩
  -- the search passes over the pieces of earlier tokens
  rw [hsplit, owner?_append_of_stop_le, owner?_append_of_some howner]
  intro part hpart
  obtain ⟨other, hother, hpart⟩ := List.mem_flatMap.mp hpart
  obtain ⟨hother, hle⟩ := hearlier other hother
  exact hplaced.earlier_stop h hpieces hother hle hpart hlow htemplates

/-- Behind the first name in a token, a place is owned by nothing. -/
theorem owner?_pieces_eq_none (htoken : token ∈ tokenize r.transformed) {place : Nat}
    (hlow : stop ≤ place) (hhigh : place < last)
    (htemplates : ∀ t ∈ r.scan.templates, t.start < stop → t.stop ≤ place) :
    owner? r.pieces place = none := by
  obtain ⟨earlier, later, hsplit, hearlier, hlater⟩ := pieces_split htoken
  have hfirst := hplaced.first_le
  refine owner?_eq_none fun part hpart => ?_
  rw [hsplit] at hpart
  rcases List.mem_append.mp hpart with hpart | hpart
  · obtain ⟨other, hother, hpart⟩ := List.mem_flatMap.mp hpart
    obtain ⟨hother, hle⟩ := hearlier other hother
    exact Or.inl (hplaced.earlier_stop h hpieces hother hle hpart (hfirst.trans hlow)
      fun t ht hlt => htemplates t ht (by omega))
  rcases List.mem_append.mp hpart with hpart | hpart
  · exact Or.inl (hplaced.stop_of_piece hpieces hpart (Int.ofNat_le.mpr hlow)
      fun t ht hlt => Int.ofNat_le.mpr (htemplates t ht hlt))
  · obtain ⟨other, hother, hpart⟩ := List.mem_flatMap.mp hpart
    obtain ⟨hother, hle⟩ := hlater other hother
    obtain ⟨first', stop', last', hplaced'⟩ := h.exists_placedAt hother
    have hmono := Ledger.bufferOffset_mono h.ordered hle
    rw [hplaced.last_eq, hplaced'.first_eq] at hmono
    have hstart := (hplaced'.pieceOf hpieces hpart).start_le
    simp only [piece] at hstart
    exact Or.inr (by omega)

end PlacedAt

namespace Named

variable {r : Extraction} (h : r.Named)
include h

/-- A token with a name inside it is a string. -/
theorem style_of_inside {token : Token} (htoken : token ∈ tokenize r.transformed) {i : Insertion}
    (hi : i ∈ r.ledger.insertions) (hlow : token.start < i.position)
    (hhigh : i.position < token.stop) : token.style = .string := by
  obtain ⟨_, _, _, _, -, hshape, hsource⟩ := tokenize_source htoken
  have hcomment := (h.named_insertion hi).2 token htoken
  obtain ⟨site, hsite, rfl⟩ := h.mem_insertions hi
  have htiles := (tokenize_tiles r.transformed).1
  have hchar {k : Nat} (hcovers : token.Covers k) :=
    htiles.getElem?_of_covers le_rfl htoken hcovers
  obtain ⟨a, -, ha, -⟩ := htiles.exists_offsets le_rfl htoken
  dsimp only at hlow hhigh
  -- a blank in front of an underscore: only strings and comments go on behind it
  obtain ⟨c, hc, hblank⟩ := h.blank_before_name hsite
  have hname := h.name_char hsite
  rw [← hchar ⟨by omega, by omega⟩, ha, Int.toNat_natCast] at hc hname
  rw [show boundary r.sites site - a = boundary r.sites site - 1 - a + 1 by omega] at hname
  refine (hsource.of_inner_blank hshape hc hblank hname).resolve_left fun hstyle => ?_
  rcases hcomment hstyle with hbefore | hbehind
  · exact absurd hbefore hlow.not_gt
  · exact absurd hbehind hhigh.not_ge

end Named

namespace PlacedAt

variable {r : Extraction} {token : Token} {first stop last : Nat}
  (hplaced : r.PlacedAt token first stop last) (h : r.Named)
include hplaced

/-- A token of the document has offsets for its ends, and they move to the ends of its place. -/
theorem exists_bounds (htoken : token ∈ tokenize r.transformed) :
    ∃ a b : Nat, token.start = a ∧ token.stop = b ∧ r.ledger.bufferOffset a = first ∧
      r.ledger.bufferOffset b = last := by
  obtain ⟨a, b, ha, hb, -⟩ := (tokenize_tiles r.transformed).1.exists_offsets le_rfl htoken
  exact ⟨a, b, ha, hb, ha ▸ hplaced.first_eq, hb ▸ hplaced.last_eq⟩

include h

/-- What lies behind the first name in a token is cut off. -/
theorem stop_le_iff (htoken : token ∈ tokenize r.transformed) {place : Nat} (hlow : first ≤ place)
    (hhigh : place < last) :
    stop ≤ place ↔ ∃ i ∈ r.ledger.insertions,
      token.start < i.position ∧ i.position < token.stop ∧ i.position ≤ landing r.sites place := by
  obtain ⟨a, b, ha, hb, hfirst, hlast⟩ := hplaced.exists_bounds htoken
  rw [ha, hb]
  constructor
  · intro hcut
    have hsite := hplaced.cut.resolve_left (by omega)
    have hstop := hplaced.lt_of_lt (hlow.trans_lt hhigh)
    refine ⟨_, h.mem_insertions_of_site hsite, ?_, ?_, ?_⟩
    · rw [Int.ofNat_lt, ← not_le, h.position_le_iff hfirst]
      exact hstop.not_ge
    · have := boundary_lt r.sites (hcut.trans_lt hhigh)
      have := (le_bufferOffset_iff h.sorted h.insertions last b).mp hlast.ge
      exact Int.ofNat_lt.mpr (by omega)
    · exact Int.ofNat_le.mpr ((boundary_le r.sites hcut).trans (boundary_le_landing r.sites place))
  · rintro ⟨i, hi, hbehind, -, hle⟩
    obtain ⟨site, hsite, rfl⟩ := h.mem_insertions hi
    have hlt : first < site := by
      rw [Int.ofNat_lt, ← not_le, h.position_le_iff hfirst] at hbehind
      exact not_le.mp hbehind
    have hle : site ≤ place :=
      (h.position_le_iff (bufferOffset_landing h.sorted h.insertions place) site).mp
        (Int.ofNat_le.mp hle)
    have := hplaced.uncut site hsite
    omega

/-- The places of a token in the buffer are those whose characters stand in it. -/
theorem covers_landing_iff (htoken : token ∈ tokenize r.transformed) (place : Nat) :
    token.Covers (landing r.sites place) ↔ first ≤ place ∧ place < last := by
  obtain ⟨a, b, ha, hb, hfirst, hlast⟩ := hplaced.exists_bounds htoken
  have hnext := landing_add_one r.sites place
  have hlow : a ≤ landing r.sites place ↔ first ≤ place := by
    have hbehind := le_bufferOffset_iff h.sorted h.insertions (place + 1) a
    rw [hfirst] at hbehind
    omega
  have hhigh : landing r.sites place < b ↔ place < last := by
    have hbehind := le_bufferOffset_iff h.sorted h.insertions (place + 1) b
    rw [hlast] at hbehind
    omega
  rw [Token.Covers, ha, hb, Int.ofNat_le, Int.ofNat_lt, hlow, hhigh]

/-- Nothing is cut off from a token without a name inside it. -/
theorem stop_eq_last (htoken : token ∈ tokenize r.transformed)
    (hnone : ∀ i ∈ r.ledger.insertions,
      ¬ (token.start < i.position ∧ i.position < token.stop)) : stop = last := by
  by_contra hne
  have hlt := hplaced.stop_le.lt_of_ne hne
  obtain ⟨i, hi, hbehind, hinside, -⟩ :=
    (hplaced.stop_le_iff h htoken hplaced.first_le hlt).mp le_rfl
  exact hnone i hi ⟨hbehind, hinside⟩

end PlacedAt

section Restored

variable (environment : Environment) (buffer : List Char)

theorem ofBuffer_pieces : Pieces buffer (ofBuffer environment buffer).scan.templates :=
  (Scan.ofBuffer_overwrites environment buffer).1.pieces (r := ofBuffer environment buffer)

/-- What the tokens at a place of the buffer are finished from. -/
theorem exists_source_at {offset : Nat} (hoffset : offset < buffer.length) :
    let r := ofBuffer environment buffer
    ∃ source, IsSource r offset source (owner? r.pieces offset) ∧ source.Covers offset ∧
      Tiles buffer source.start source.stop (finish r source) ∧
      finish r source ⊆ Service.tokens r ∧
      ∀ token ∈ Service.tokens r, token.Covers offset → token ∈ finish r source := by
  intro r
  obtain ⟨hover, -⟩ := Scan.ofBuffer_overwrites environment buffer
  have hlow := Int.natCast_nonneg offset
  have hhigh : (offset : Int) < buffer.length := Int.ofNat_lt.mpr hoffset
  obtain ⟨source, hsource, hin, hfinished, hsubset⟩ := exists_source hover.spreads_dotted
    (sound_pieces environment buffer) le_rfl hlow hhigh none
  rw [← tokens_eq_chain] at hsubset
  refine ⟨source, hsource, hin, hfinished, hsubset, fun token htoken hcovers => ?_⟩
  obtain ⟨drawn, hdrawn⟩ := hfinished.existsUnique_covers hin.1 hin.2
  obtain ⟨hmem, hdrawn⟩ := (hdrawn drawn).mpr rfl
  obtain ⟨owner, howner⟩ := (tokens_tile environment buffer).existsUnique_covers hlow hhigh
  rw [(howner token).mp ⟨htoken, hcovers⟩, ← (howner drawn).mp ⟨hsubset hmem, hdrawn⟩]
  exact hmem

variable {environment buffer}

/-- The dots of a spread are where they end. -/
theorem start_of_isDots {token : Token}
    (htoken : token ∈ Service.tokens (ofBuffer environment buffer))
    (hdots : IsDots (ofBuffer environment buffer) token) :
    token.start = token.stop - spreadDots.length := by
  refine hdots.start_eq ?_
  exact (tokens_tile environment buffer).length_text le_rfl le_rfl token htoken

end Restored
end EmbeddedGraphQL.Extraction
