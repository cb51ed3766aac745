import EmbeddedGraphQL.Proofs.Placement
import EmbeddedGraphQL.Proofs.TokenWalk
import Mathlib

/-!
Tokens of an extracted document, moved to the buffer. What is left of a token shows the scanned text
from the place of its start on. It reaches up to the place of its end, or only up to the first site
behind its start if that comes before.
-/
namespace EmbeddedGraphQL.Extraction.Named
open Text FragmentName Restoration

variable {r : Extraction}

/-- The text between two offsets without a site between them. -/
theorem slice_transformed (h : r.Named) {k m : Nat} (hlt : k < m)
    (hfree : ∀ site ∈ r.sites, ¬ (k < site ∧ site < m)) :
    slice r.transformed (landing r.sites k) (boundary r.sites m) = slice r.scan.text k m := by
  have hwhole := boundary_add hlt hfree
  apply List.ext_getElem?
  intro j
  rw [getElem?_slice, getElem?_slice]
  by_cases hj : k + j < m
  · have hpart := boundary_add (show k < k + j + 1 by omega) fun site hsite hbetween =>
      hfree site hsite ⟨hbetween.1, by omega⟩
    have hlanding := landing_add_one r.sites (k + j)
    rw [if_pos (by omega), if_pos hj, show landing r.sites k + j = landing r.sites (k + j) by omega,
      h.getElem?_landing]
  · rw [if_neg (by omega), if_neg hj]

section Walk

variable {a k : Nat}

theorem position_le_iff (h : r.Named) (hk : r.ledger.bufferOffset a = k) (site : Nat) :
    boundary r.sites site ≤ a ↔ site ≤ k := by
  rw [← le_bufferOffset_iff h.sorted h.insertions, hk, Int.ofNat_le]

/-- The insertions passed are those at sites up to the place of the offset. -/
theorem passed_landing (h : r.Named) (hk : r.ledger.bufferOffset a = k) :
    r.ledger.passed a = r.ledger.passed (landing r.sites k) := by
  rw [passed_eq_filter h.ordered, passed_eq_filter h.ordered]
  refine List.filter_congr fun i hi => ?_
  obtain ⟨site, -, rfl⟩ := h.mem_insertions hi
  have hlanding := h.position_le_iff (bufferOffset_landing h.sorted h.insertions k) site
  rw [decide_eq_decide, Int.ofNat_le, Int.ofNat_le, h.position_le_iff hk, hlanding]

theorem sum_passed (h : r.Named) (hk : r.ledger.bufferOffset a = k) :
    Insertion.total (r.ledger.passed a) = (landing r.sites k : Int) - k := by
  have hsum := bufferOffset_eq_sub_passed h.ordered
    (not_covers_landing h.sorted h.insertions k)
  rw [bufferOffset_landing h.sorted h.insertions] at hsum
  rw [h.passed_landing hk]
  omega

/-- What is left of a token starts where the character at the place of its start stands. -/
theorem trimFront?_eq (h : r.Named) (hk : r.ledger.bufferOffset a = k) {token : Token} {b : Nat}
    (hstart : token.start = a) (hstop : token.stop = b) (hlt : a < b)
    (htext : token.text = slice r.transformed a b) :
    (Walk.after r.ledger (r.ledger.passed token.start).length).trimFront? token =
      if b ≤ landing r.sites k then none
      else some { token with
        text := slice r.transformed (landing r.sites k) b
        start := (landing r.sites k : Nat) } := by
  by_cases hout : ∀ i ∈ r.ledger.insertions, ¬ i.Covers a
  · have ha := eq_landing_of_not_covers h.sorted h.insertions hk hout
    rw [← hstart] at hout
    rw [trimFront?_of_not_covers h.ordered hout, ← ha, if_neg (by omega), ← htext, ← hstart]
  · simp only [not_forall, not_not] at hout
    obtain ⟨i, hi, hcovers⟩ := hout
    have hlast := getLast?_passed h.ordered hi hcovers
    obtain ⟨site, hsite, rfl⟩ := h.mem_insertions hi
    have hend : (⟨boundary r.sites site, fragmentNameText.length⟩ : Insertion).stop =
        (landing r.sites site : Nat) := by
      rw [landing_site h.sorted hsite]
      rfl
    have hbefore : a < landing r.sites site := Int.ofNat_lt.mp (hend ▸ hcovers.2)
    obtain rfl : site = k := by
      have hle := (h.position_le_iff hk site).mp (Int.ofNat_le.mp hcovers.1)
      by_contra hne
      have hnext := landing_lt r.sites (lt_of_le_of_ne hle hne)
      have := (h.position_le_iff hk k).mpr le_rfl
      omega
    unfold Walk.trimFront? Walk.after
    rw [take_passed, hstart, hlast]
    simp only [hend, hstop, Int.ofNat_lt, Int.ofNat_le, if_pos hbefore]
    split_ifs with hinside
    · rfl
    · have htake : token.text.drop ((landing r.sites site : Int) - a).toNat =
          slice r.transformed (landing r.sites site) b := by
        rw [htext, slice_eq_take_drop, slice_eq_take_drop, List.drop_take, List.drop_drop]
        congr 1
        · omega
        · congr 1
          omega
      rw [htake]

/-- The next insertion is the one at the first site behind the place of the offset. -/
theorem peek_eq (h : r.Named) (hk : r.ledger.bufferOffset a = k) :
    (∃ site ∈ r.sites, k < site ∧ (∀ other ∈ r.sites, ¬ (k < other ∧ other < site)) ∧
      (Walk.after r.ledger (r.ledger.passed a).length).ledger.peek =
        some ⟨boundary r.sites site, fragmentNameText.length⟩) ∨
    (∀ site ∈ r.sites, site ≤ k) ∧
      (Walk.after r.ledger (r.ledger.passed a).length).ledger.peek = none := by
  have hpassed {other : Nat}
      (hother : ⟨boundary r.sites other, fragmentNameText.length⟩ ∈ r.ledger.passed a) :
      other ≤ k := by
    have := position_le_of_mem_passed hother
    exact (h.position_le_iff hk other).mp (Int.ofNat_le.mp this)
  have hsplit := insertions_split r.ledger a
  unfold Ledger.peek Ledger.pending Walk.after
  dsimp only
  cases hdrop : r.ledger.insertions.drop (r.ledger.passed a).length with
  | nil =>
    refine Or.inr ⟨fun site hsite => hpassed ?_, rfl⟩
    have hmem := h.mem_insertions_of_site hsite
    rwa [hsplit, hdrop, List.append_nil] at hmem
  | cons i rest =>
    have hlate := lt_of_mem_drop h.ordered (hdrop ▸ List.mem_cons_self : i ∈ _)
    obtain ⟨site, hsite, rfl⟩ := h.mem_insertions
      (List.mem_of_mem_drop (hdrop ▸ List.mem_cons_self : i ∈ _))
    have hk_lt : k < site := by
      by_contra hle
      have := (h.position_le_iff hk site).mpr (Nat.le_of_not_lt hle)
      exact absurd (Int.ofNat_lt.mp hlate) (by omega)
    refine Or.inl ⟨site, hsite, hk_lt, fun other hother hbetween => ?_, rfl⟩
    have hlt := boundary_lt r.sites hbetween.2
    have hmem := h.mem_insertions_of_site hother
    have hordered := h.ordered.2
    rw [hsplit, hdrop] at hmem hordered
    rcases List.mem_append.mp hmem with hmem | hmem
    · exact absurd (hpassed hmem) (by omega)
    rcases List.mem_cons.mp hmem with heq | hmem
    · have := congrArg Insertion.position heq
      dsimp only at this
      omega
    · have hafter := (List.pairwise_cons.mp (List.pairwise_append.mp hordered).2.1).1 _ hmem
      simp only [Insertion.stop] at hafter
      omega

/-- Without a site behind the start of a token, its end is where the text before the place of its
end stands. -/
theorem boundary_of_free (h : r.Named) {b m : Nat} (hm : r.ledger.bufferOffset b = m)
    (hfree : ∀ site ∈ r.sites, k < site → b ≤ boundary r.sites site) (hlt : k < m) :
    b = boundary r.sites m := by
  have hlow := (le_bufferOffset_iff h.sorted h.insertions m b).mp hm.ge
  have hhigh : b < boundary r.sites (m + 1) := by
    rw [← not_le, ← le_bufferOffset_iff h.sorted h.insertions, hm]
    omega
  rw [boundary_succ h.sorted] at hhigh
  split_ifs at hhigh with hsite
  · have := hfree m hsite hlt
    omega
  · omega

/-- What is left of a token ends where the text before some place ends, with no site in it. -/
theorem trimBack_eq (h : r.Named) (hk : r.ledger.bufferOffset a = k) {b m : Nat}
    (hm : r.ledger.bufferOffset b = m) (hlt : k < m) (token : Token)
    (hstart : token.start = (landing r.sites k : Nat)) (hstop : token.stop = b)
    (htext : token.text = slice r.transformed (landing r.sites k) b) :
    ∃ stop, k < stop ∧ stop ≤ m ∧ (stop = m ∨ stop ∈ r.sites) ∧
      (∀ site ∈ r.sites, ¬ (k < site ∧ site < stop)) ∧
      (Walk.after r.ledger (r.ledger.passed a).length).trimBack token =
        { token with
          text := slice r.transformed (landing r.sites k) (boundary r.sites stop)
          stop := (boundary r.sites stop : Nat) } := by
  have hwhole (hfree : ∀ site ∈ r.sites, k < site → b ≤ boundary r.sites site) :
      (∀ site ∈ r.sites, ¬ (k < site ∧ site < m)) ∧ token =
        { token with
          text := slice r.transformed (landing r.sites k) (boundary r.sites m)
          stop := (boundary r.sites m : Nat) } := by
    have hb := h.boundary_of_free hm hfree hlt
    refine ⟨fun site hsite hbetween => ?_, by rw [← hb, ← htext, ← hstop]⟩
    have := hfree site hsite hbetween.1
    have := boundary_lt r.sites hbetween.2
    omega
  unfold Walk.trimBack
  rcases h.peek_eq hk with ⟨site, hsite, hbehind, hfirst, hpeek⟩ | ⟨hnone, hpeek⟩
  · rw [hpeek]
    by_cases hcut : boundary r.sites site < b
    · have hle : site ≤ m := by
        have := (le_bufferOffset_iff h.sorted h.insertions site b).mpr hcut.le
        omega
      have hafter := landing_lt r.sites hbehind
      have htake : token.text.take ((boundary r.sites site : Int) - landing r.sites k).toNat =
          slice r.transformed (landing r.sites k) (boundary r.sites site) := by
        rw [htext, slice_eq_take_drop, slice_eq_take_drop, List.take_take]
        congr 1
        omega
      refine ⟨site, hbehind, hle, Or.inr hsite, hfirst, ?_⟩
      simp only [hstart, hstop, Int.ofNat_lt, if_pos (And.intro hafter hcut), htake]
    · obtain ⟨hfree, htoken⟩ := hwhole fun other hother hlate => by
        by_contra hlt
        have hne := hfirst other hother
        have := boundary_le r.sites (show site ≤ other by omega)
        omega
      refine ⟨m, hlt, le_rfl, Or.inl rfl, hfree, ?_⟩
      simp only [hstop, Int.ofNat_lt, hcut, and_false, if_false]
      exact htoken
  · rw [hpeek]
    obtain ⟨hfree, htoken⟩ := hwhole fun other hother hlate =>
      absurd (hnone other hother) (Nat.not_le.mpr hlate)
    exact ⟨m, hlt, le_rfl, Or.inl rfl, hfree, htoken⟩

end Walk

/-- A token is dropped if it lies inside a name. Otherwise it is left with the scanned text from the
place of its start to the place of its end, or to the first site between them. -/
theorem moved?_eq (h : r.Named) {token : Token} {a b k m : Nat} (hstart : token.start = a)
    (hstop : token.stop = b) (hlt : a < b) (htext : token.text = slice r.transformed a b)
    (hk : r.ledger.bufferOffset a = k) (hm : r.ledger.bufferOffset b = m) :
    (moved? r.ledger token = none ∧ k = m) ∨
    ∃ stop : Nat, k < stop ∧ stop ≤ m ∧ (stop = m ∨ stop ∈ r.sites) ∧
      (∀ site ∈ r.sites, ¬ (k < site ∧ site < stop)) ∧
      moved? r.ledger token = some (piece r.scan.text token k stop) := by
  have hfront := h.trimFront?_eq hk hstart hstop hlt htext
  have hlow := (le_bufferOffset_iff h.sorted h.insertions m b).mp hm.ge
  have hmono := Ledger.bufferOffset_mono h.ordered (Int.ofNat_le.mpr hlt.le)
  have hdelta : (Walk.after r.ledger (r.ledger.passed a).length).delta =
      (landing r.sites k : Int) - k := by
    rw [← h.sum_passed hk]
    unfold Walk.after
    rw [take_passed]
  by_cases hinside : b ≤ landing r.sites k
  · rw [if_pos hinside] at hfront
    refine Or.inl ⟨by rw [moved?, hfront, Option.map_none], ?_⟩
    by_contra hne
    have := landing_lt r.sites (show k < m by omega)
    omega
  · rw [if_neg hinside] at hfront
    have hkm : k < m := by
      have hnext := (le_bufferOffset_iff h.sorted h.insertions (k + 1) b).mpr (by
        rw [← landing_add_one]
        omega)
      omega
    obtain ⟨stop, hbehind, hle, hend, hfree, hback⟩ := h.trimBack_eq hk hm hkm
      { token with
        text := slice r.transformed (landing r.sites k) b, start := (landing r.sites k : Nat) }
      rfl hstop rfl
    refine Or.inr ⟨stop, hbehind, hle, hend, hfree, ?_⟩
    have hplace := boundary_add hbehind hfree
    rw [moved?, hfront, Option.map_some, hstart, hback]
    simp only [piece, hdelta, h.slice_transformed hbehind hfree, Option.some.injEq, Token.mk.injEq,
      true_and, and_true]
    omega

end EmbeddedGraphQL.Extraction.Named
