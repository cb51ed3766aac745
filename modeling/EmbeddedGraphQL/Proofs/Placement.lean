import EmbeddedGraphQL.Embedding.Answer
import EmbeddedGraphQL.Proofs.FragmentSites
import EmbeddedGraphQL.Proofs.LineBuckets
import EmbeddedGraphQL.Proofs.Overwriting
import EmbeddedGraphQL.Proofs.TokenWalk
import Mathlib

/-!
Places of an extracted document. The ledger holds one insertion for each name, lines stay where they
are, and so the offset, the column on a line, the table of lines and the walk over tokens all move a
place to the same place of the buffer.
-/
namespace EmbeddedGraphQL
open Text FragmentName

namespace Ledger

/-- A place looked up in the table of lines moves as its column does. -/
theorem bufferPosition_byLine (ledger : Ledger) (text : List Char) (p : Position) :
    Extraction.bufferPosition (ledger.byLine text) (lineStarts text) p =
      ⟨p.line, ledger.bufferColumn text p.line p.ch⟩ := by
  unfold Extraction.bufferPosition bufferColumn
  rw [lookup_byLine]
  by_cases hline : p.line ∈ ledger.insertions.map (lineOf text)
  · obtain ⟨i, -, hi⟩ := List.mem_map.mp hline
    have hlt := lineAt_lt text i.position
    have hi : (lineAt text i.position : Int) = p.line := hi
    rw [if_pos hline, ← hi]
    dsimp only
    rw [if_pos (by exact_mod_cast hlt), lineStart, if_pos (Int.natCast_nonneg _),
      Int.toNat_natCast, List.getD_eq_getElem _ _ hlt, List.getD_eq_getElem _ _ hlt]
  · rw [if_neg hline, onLine_eq_nil hline]
    simp [columns, moveLeft]

end Ledger

namespace Extraction

def sites (r : Extraction) : List Nat := FragmentName.sites r.scan.text

/-- A document whose scanned text gets a name at each site, with the lines of its buffer. -/
structure Named (r : Extraction) : Prop where
  transformed : r.transformed = insertAt 0 r.sites r.scan.text
  insertions : r.ledger.insertions = FragmentName.insertions r.sites
  text_length : r.scan.text.length = r.buffer.length
  text_break_iff : ∀ k : Nat, r.scan.text[k]? = some '\n' ↔ r.buffer[k]? = some '\n'

theorem ofBuffer_ledger (environment : Environment) (buffer : List Char) :
    let r := ofBuffer environment buffer
    r.ledger = ⟨FragmentName.insertions r.sites, 0⟩ := by
  intro r
  exact recordAll_eq Ledger.empty (insertions_ordered (sites_sorted r.scan.text))

theorem ofBuffer_named (environment : Environment) (buffer : List Char) :
    (ofBuffer environment buffer).Named where
  transformed := rfl
  insertions := by rw [ofBuffer_ledger]
  text_length := Scan.text_length environment buffer
  text_break_iff := Scan.text_break_iff environment buffer

namespace Named

variable {r : Extraction}

theorem sorted (_ : r.Named) : r.sites.Pairwise (· < ·) := sites_sorted r.scan.text

theorem site_lt (h : r.Named) {site : Nat} (hsite : site ∈ r.sites) : site < r.buffer.length := by
  rw [← h.text_length]
  exact (List.getElem?_eq_some_iff.mp (site_spec hsite).1).1

theorem ordered (h : r.Named) : Ordered r.ledger.insertions :=
  h.insertions ▸ insertions_ordered h.sorted

theorem transformed_length (h : r.Named) :
    r.transformed.length = boundary r.sites r.buffer.length := by
  have hlength := length_insertAt h.sorted 0 r.scan.text
  rw [boundary_zero, zero_add, zero_add, ← h.transformed, h.text_length] at hlength
  exact hlength

theorem getElem?_landing (h : r.Named) (k : Nat) :
    r.transformed[landing r.sites k]? = r.scan.text[k]? := by
  have hat := FragmentName.getElem?_landing h.sorted (Nat.zero_le k) r.scan.text
  rwa [boundary_zero, ← h.transformed] at hat

/-- The name at a site, character by character. -/
theorem name_at (h : r.Named) {site : Nat} (hsite : site ∈ r.sites) {i : Nat}
    (hi : i < fragmentNameText.length) :
    r.transformed[boundary r.sites site + i]? = fragmentNameText[i]? := by
  have hlength : site < 0 + r.scan.text.length := by
    rw [Nat.zero_add, h.text_length]
    exact h.site_lt hsite
  have hname := getElem?_name h.sorted hsite (Nat.zero_le site) hlength hi
  rwa [boundary_zero, Nat.sub_zero, ← h.transformed] at hname

/-- A place of the document in the buffer, as a number of characters. -/
theorem bufferOffset_eq (h : r.Named) (offset : Nat) :
    ∃ k : Nat, r.ledger.bufferOffset offset = k :=
  Int.eq_ofNat_of_zero_le (bufferOffset_nonneg h.sorted h.insertions offset)

theorem lineStarts_transformed (h : r.Named) :
    lineStarts r.transformed = (lineStarts r.buffer).map (boundary r.sites) := by
  have hstarts := startsAfter_insertAt h.sorted 0 r.scan.text
  rw [startsAfter_congr h.text_length h.text_break_iff, boundary_zero, ← h.transformed] at hstarts
  rw [lineStarts, lineStarts, List.map_cons, boundary_zero, hstarts]

theorem mem_insertions (h : r.Named) {i : Insertion} (hi : i ∈ r.ledger.insertions) :
    ∃ site ∈ r.sites, i = ⟨boundary r.sites site, fragmentNameText.length⟩ := by
  rw [h.insertions, insertions_eq h.sorted] at hi
  obtain ⟨site, hsite, rfl⟩ := List.mem_map.mp hi
  exact ⟨site, hsite, rfl⟩

theorem mem_insertions_of_site (h : r.Named) {site : Nat} (hsite : site ∈ r.sites) :
    ⟨boundary r.sites site, fragmentNameText.length⟩ ∈ r.ledger.insertions := by
  rw [h.insertions, insertions_eq h.sorted]
  exact List.mem_map.mpr ⟨site, hsite, rfl⟩

theorem position_nonneg (h : r.Named) {i : Insertion} (hi : i ∈ r.ledger.insertions) :
    0 ≤ i.position := by
  obtain ⟨site, -, rfl⟩ := h.mem_insertions hi
  exact Int.natCast_nonneg _

/-- No line starts inside a name. -/
theorem stop_le_lineStart (h : r.Named) {i : Insertion} (hi : i ∈ r.ledger.insertions)
    {start : Nat} (hstart : start ∈ lineStarts r.transformed) (hlt : i.position < start) :
    i.stop ≤ start := by
  obtain ⟨site, hsite, rfl⟩ := h.mem_insertions hi
  rw [h.lineStarts_transformed] at hstart
  obtain ⟨k, -, rfl⟩ := List.mem_map.mp hstart
  have hsite_lt : site < k := by
    by_contra hle
    have := boundary_le r.sites (Nat.le_of_not_lt hle)
    dsimp only at hlt
    omega
  have hnext := landing_lt r.sites hsite_lt
  rw [landing_site h.sorted hsite] at hnext
  simp only [Insertion.stop]
  omega

/-- Offsets of the document lie on the lines of their places in the buffer. -/
theorem lineAt_transformed (h : r.Named) (offset : Nat) :
    lineAt r.transformed offset = lineAt r.buffer (r.ledger.bufferOffset offset) := by
  unfold lineAt
  rw [h.lineStarts_transformed, List.filter_map, List.length_map]
  congr 2
  refine List.filter_congr fun start _ => ?_
  rw [Function.comp_apply, decide_eq_decide, le_bufferOffset_iff h.sorted h.insertions]
  exact Int.ofNat_le

/-- A place on a line of the document is moved to the place of its offset. -/
theorem bufferColumn_positionAt (h : r.Named) (offset : Nat) :
    let p := positionAt r.transformed offset
    (⟨p.line, r.ledger.bufferColumn r.transformed p.line p.ch⟩ : Position) =
      positionAt r.buffer (r.ledger.bufferOffset offset) := by
  intro p
  have hline := lineAt_lt r.buffer (r.ledger.bufferOffset offset)
  have hstart : (lineStarts r.transformed).getD (lineAt r.transformed offset) 0 =
      boundary r.sites ((lineStarts r.buffer).getD
        (lineAt r.buffer (r.ledger.bufferOffset offset)) 0) := by
    rw [h.lineAt_transformed, h.lineStarts_transformed, ← boundary_zero r.sites,
      List.getD_map, boundary_zero]
  have hcolumn := Ledger.bufferColumn_eq h.ordered (fun i => h.position_nonneg)
    (fun i hi start => h.stop_le_lineStart hi) (Int.natCast_nonneg offset)
  dsimp only at hcolumn
  rw [hstart, bufferOffset_boundary h.sorted h.insertions] at hcolumn
  simp only [p, positionAt_eq, hstart]
  rw [hcolumn, h.lineAt_transformed]

/-- An offset outside the names is the landing of its place in the buffer. -/
theorem exists_landing (h : r.Named) {offset : Nat}
    (hout : ∀ i ∈ r.ledger.insertions, ¬ i.Covers offset) :
    ∃ k : Nat, r.ledger.bufferOffset offset = k ∧ offset = landing r.sites k := by
  obtain ⟨k, hk⟩ := h.bufferOffset_eq offset
  exact ⟨k, hk, eq_landing_of_not_covers h.sorted h.insertions hk hout⟩

theorem landing_length (h : r.Named) :
    landing r.sites r.buffer.length = r.transformed.length := by
  have hnot : r.buffer.length ∉ r.sites := fun hsite => Nat.lt_irrefl _ (h.site_lt hsite)
  rw [landing_eq h.sorted, if_neg hnot, h.transformed_length, Nat.add_zero]

theorem landing_le_length_iff (h : r.Named) (k : Nat) :
    landing r.sites k ≤ r.transformed.length ↔ k ≤ r.buffer.length := by
  rw [← h.landing_length]
  constructor
  · intro hle
    by_contra hlt
    have := landing_lt r.sites (Nat.lt_of_not_le hlt)
    have := boundary_le_landing r.sites k
    omega
  · exact landing_le r.sites

end Named

/-- The offsets of a document that lie in none of its names, its end included. -/
def outside (r : Extraction) : Set Nat :=
  {offset | offset ≤ r.transformed.length ∧ ∀ i ∈ r.ledger.insertions, ¬ i.Covers offset}

namespace Named

variable {r : Extraction}

theorem bufferOffset_strictMonoOn (h : r.Named) :
    StrictMonoOn (fun offset : Nat => r.ledger.bufferOffset offset) r.outside := by
  intro first hfirst second hsecond hlt
  obtain ⟨k, hk, rfl⟩ := h.exists_landing hfirst.2
  obtain ⟨k', hk', rfl⟩ := h.exists_landing hsecond.2
  have hne : ¬ k' ≤ k := fun hle => absurd (landing_le r.sites hle) (Nat.not_le.mpr hlt)
  dsimp only
  rw [hk, hk']
  exact Int.ofNat_lt.mpr (Nat.not_le.mp hne)

/-- The offsets outside the names are moved onto the offsets of the buffer. -/
theorem bufferOffset_bijOn (h : r.Named) :
    Set.BijOn (fun offset : Nat => r.ledger.bufferOffset offset) r.outside
      {k : Int | 0 ≤ k ∧ k ≤ r.buffer.length} := by
  refine ⟨fun offset hoffset => ?_, h.bufferOffset_strictMonoOn.injOn, fun k hk => ?_⟩
  · obtain ⟨k, hk, rfl⟩ := h.exists_landing hoffset.2
    have hle := (h.landing_le_length_iff k).mp hoffset.1
    change 0 ≤ r.ledger.bufferOffset _ ∧ r.ledger.bufferOffset _ ≤ _
    rw [hk]
    exact ⟨Int.natCast_nonneg k, Int.ofNat_le.mpr hle⟩
  · obtain ⟨k, rfl⟩ := Int.eq_ofNat_of_zero_le hk.1
    exact ⟨landing r.sites k, ⟨(h.landing_le_length_iff k).mpr (Int.ofNat_le.mp hk.2),
      not_covers_landing h.sorted h.insertions k⟩, bufferOffset_landing h.sorted h.insertions k⟩

theorem getElem?_outside (h : r.Named) {offset : Nat} (hoffset : offset ∈ r.outside) :
    r.transformed[offset]? = r.scan.text[(r.ledger.bufferOffset offset).toNat]? := by
  obtain ⟨k, hk, rfl⟩ := h.exists_landing hoffset.2
  rw [hk, Int.toNat_natCast, h.getElem?_landing]

end Named

/-- Diagnostics move as columns do, on lines with and without names. -/
theorem diagnostics_eq (r : Extraction) (found : List Diagnostic) :
    r.diagnostics found = Artifact.visible r.environment (found.map fun d =>
      { d with
        start := ⟨d.start.line, r.ledger.bufferColumn r.transformed d.start.line d.start.ch⟩
        stop := ⟨d.stop.line, r.ledger.bufferColumn r.transformed d.stop.line d.stop.ch⟩ }) := by
  unfold diagnostics
  simp only [Ledger.bufferPosition_byLine]

/-- The place of a parse error moves as its column does, one being the first. -/
theorem errorPlace_eq (r : Extraction) (p : Position) :
    r.errorPlace ⟨some (p.line + 1), some (p.ch + 1)⟩ =
      ⟨some (p.line + 1), some (r.ledger.bufferColumn r.transformed p.line p.ch + 1)⟩ := by
  unfold errorPlace
  split_ifs with hempty
  · have hnone : r.ledger.onLine r.transformed p.line = [] := by
      simp [Ledger.onLine_eq_filter, List.isEmpty_iff.mp hempty]
    simp [Ledger.bufferColumn, hnone, Ledger.columns, Ledger.moveLeft]
  · simp

/-- All ways back agree. Offsets outside the names are moved one to one onto the offsets of the
buffer and keep their characters. The place of any offset, moved by its column, as a diagnostic or
as a parse error, is the place of the moved offset. A token that starts outside the names starts
where its offset is moved. -/
theorem placement_agrees (environment : Environment) (buffer : List Char) :
    let r := ofBuffer environment buffer
    let moved (p : Position) : Position :=
      ⟨p.line, r.ledger.bufferColumn r.transformed p.line p.ch⟩
    (StrictMonoOn (fun offset : Nat => r.ledger.bufferOffset offset) r.outside ∧
      Set.BijOn (fun offset : Nat => r.ledger.bufferOffset offset) r.outside
        {k : Int | 0 ≤ k ∧ k ≤ buffer.length} ∧
      ∀ offset ∈ r.outside,
        r.transformed[offset]? = r.scan.text[(r.ledger.bufferOffset offset).toNat]?) ∧
    (∀ offset : Nat, offset ≤ r.transformed.length →
      let p := positionAt r.transformed offset
      moved p = positionAt buffer (r.ledger.bufferOffset offset) ∧
      offsetAt buffer (moved p) = r.ledger.bufferOffset offset ∧
      r.errorPlace ⟨some (p.line + 1), some (p.ch + 1)⟩ =
        ⟨some ((moved p).line + 1), some ((moved p).ch + 1)⟩) ∧
    (∀ found : List Diagnostic, r.diagnostics found = Artifact.visible environment
      (found.map fun d => { d with start := moved d.start, stop := moved d.stop })) ∧
    ∀ tokens : List Token, (tokens.Pairwise fun t u => t.start ≤ u.start) →
      Restoration.unshift r.ledger tokens =
        tokens.filterMap (Restoration.moved? r.ledger) ∧
      ∀ token ∈ tokens, (∀ i ∈ r.ledger.insertions, ¬ i.Covers token.start) →
        ∃ back, Restoration.moved? r.ledger token = some back ∧
          back.start = r.ledger.bufferOffset token.start := by
  intro r moved
  have h : r.Named := ofBuffer_named environment buffer
  refine ⟨⟨h.bufferOffset_strictMonoOn, h.bufferOffset_bijOn, fun offset => h.getElem?_outside⟩,
    fun offset _ => ?_, r.diagnostics_eq, fun tokens hsorted =>
      ⟨Restoration.unshift_eq hsorted r.ledger, fun token _ hout =>
        Restoration.moved?_start h.ordered hout⟩⟩
  have hmoved : moved (positionAt r.transformed offset) =
      positionAt buffer (r.ledger.bufferOffset offset) := h.bufferColumn_positionAt offset
  have hoffset : offsetAt buffer (moved (positionAt r.transformed offset)) =
      r.ledger.bufferOffset offset := by
    rw [hmoved]
    exact offsetAt_positionAt buffer (bufferOffset_nonneg h.sorted h.insertions offset)
  exact ⟨hmoved, hoffset, r.errorPlace_eq _⟩

/-- A name inserted at the start of a line, and the word right behind it. -/
theorem placement_agrees_shorthand :
    let r := ofBuffer .relay "fragment\non T".toList
    let token : Token := ⟨"on".toList, .keyword, 14, 16, none, none⟩
    (14 ∈ r.outside ∧ r.transformed[14]? = r.scan.text[(r.ledger.bufferOffset 14).toNat]?) ∧
    (14 ≤ r.transformed.length ∧ offsetAt "fragment\non T".toList
      ⟨1, r.ledger.bufferColumn r.transformed 1 5⟩ = r.ledger.bufferOffset 14) ∧
    [token].Pairwise (fun t u => t.start ≤ u.start) ∧
    (∀ i ∈ r.ledger.insertions, ¬ i.Covers token.start) ∧
    (∃ back, Restoration.moved? r.ledger token = some back ∧
      back.start = r.ledger.bufferOffset 14) ∧
    r.ledger.bufferOffset 14 = 9 := by
  intro r token
  have hledger : r.ledger = ⟨[⟨9, 5⟩], 0⟩ := by decide +kernel
  have htext : r.transformed = "fragment\n____ on T".toList := by decide +kernel
  have hposition : positionAt r.transformed 14 = ⟨1, 5⟩ := by
    rw [htext]
    decide
  have hlength : 14 ≤ r.transformed.length := by
    rw [htext]
    decide
  have hout : ∀ i ∈ r.ledger.insertions, ¬ i.Covers token.start := by
    rw [hledger]
    rintro i hi ⟨-, hlt⟩
    rw [List.mem_singleton.mp hi] at hlt
    exact absurd hlt (by decide)
  have hoffset : 14 ∈ r.outside := ⟨hlength, hout⟩
  have hsorted : [token].Pairwise fun t u => t.start ≤ u.start := List.pairwise_singleton _ token
  obtain ⟨⟨-, -, hsame⟩, hplaces, -, htokens⟩ :=
    placement_agrees .relay "fragment\non T".toList
  have hplace := (hplaces 14 hlength).2.1
  rw [Nat.cast_ofNat, hposition] at hplace
  refine ⟨⟨hoffset, hsame 14 hoffset⟩, ⟨hlength, hplace⟩, hsorted, hout,
    (htokens [token] hsorted).2 token List.mem_cons_self hout, ?_⟩
  rw [hledger]
  decide

end Extraction
end EmbeddedGraphQL
