import EmbeddedGraphQL.Embedding.FragmentName
import EmbeddedGraphQL.Proofs.OrderedInsertions
import Mathlib

/-!
Names inserted at the sites of shorthand fragments. The sites increase, so every character keeps its
order and moves right by the names inserted at or before it, and the ledger takes every insertion.
-/
namespace EmbeddedGraphQL.FragmentName
open Text

theorem keyword_eq : keyword = ['f', 'r', 'a', 'g', 'm', 'e', 'n', 't'] := rfl

theorem after?_eq_some_iff {word text rest : List Char} :
    after? word text = some rest ↔ text = word ++ rest := by
  unfold after?
  constructor
  · intro h
    split_ifs at h with hprefix
    obtain ⟨after, rfl⟩ := List.isPrefixOf_iff_prefix.mp hprefix
    cases h
    rw [List.drop_left]
  · rintro rfl
    rw [if_pos (List.isPrefixOf_iff_prefix.mpr (List.prefix_append word rest)), List.drop_left]

theorem startsWithWordChar_eq_false_iff {text : List Char} :
    startsWithWordChar text = false ↔ ∀ c ∈ text.head?, isWordChar c = false := by
  cases text <;> simp [startsWithWordChar]

/-- A shorthand definition is the keyword, blanks and the whole word `on`. -/
theorem shorthandLength?_eq_some_iff {text : List Char} {n : Nat} :
    shorthandLength? text = some n ↔
      ∃ blanks rest, text = keyword ++ blanks ++ 'o' :: 'n' :: rest ∧ blanks ≠ [] ∧
        (∀ c ∈ blanks, isBlank c = true) ∧ (∀ c ∈ rest.head?, isWordChar c = false) ∧
        n = keyword.length + blanks.length := by
  constructor
  · intro h
    obtain ⟨rest, hrest, h⟩ := Option.bind_eq_some_iff.mp h
    dsimp only at h
    split_ifs at h with hempty
    obtain ⟨rest', hrest', h⟩ := Option.bind_eq_some_iff.mp h
    split_ifs at h with hword
    cases h
    have htake : rest.take (rest.takeWhile isBlank).length = rest.takeWhile isBlank :=
      List.prefix_iff_eq_take.mp (List.takeWhile_prefix _) |>.symm
    refine ⟨rest.takeWhile isBlank, rest', ?_, by simpa using hempty,
      fun c hc => List.mem_takeWhile_imp hc,
      startsWithWordChar_eq_false_iff.mp (by simpa using hword), rfl⟩
    rw [after?_eq_some_iff.mp hrest, List.append_assoc]
    congr 1
    conv_lhs =>
      rw [← List.take_append_drop (rest.takeWhile isBlank).length rest, htake,
        after?_eq_some_iff.mp hrest']
    rfl
  · rintro ⟨blanks, rest, rfl, hne, hblank, hword, rfl⟩
    have htake : (blanks ++ 'o' :: 'n' :: rest).takeWhile isBlank = blanks := by
      rw [List.takeWhile_append_of_pos hblank, List.takeWhile_cons_of_neg (by decide),
        List.append_nil]
    have hon : after? "on".toList ('o' :: 'n' :: rest) = some rest :=
      after?_eq_some_iff.mpr rfl
    rw [List.append_assoc, shorthandLength?, after?_eq_some_iff.mpr rfl]
    simp only [Option.bind_some, htake, List.isEmpty_eq_false_iff.mpr hne, Bool.false_eq_true,
      ↓reduceIte, List.drop_left, hon, startsWithWordChar_eq_false_iff.mpr hword]

/-- A site is the end of a keyword with its blanks. -/
theorem mem_sitesFrom {offset site : Nat} {inWord commented : Bool} {text : List Char}
    (h : site ∈ sitesFrom offset inWord commented text) :
    ∃ skipped n, shorthandLength? (text.drop skipped) = some n ∧ site = offset + skipped + n := by
  induction text generalizing offset inWord commented with
  | nil => simp [sitesFrom] at h
  | cons c rest ih =>
    have hothers {b b' : Bool} (h : site ∈ sitesFrom (offset + 1) b b' rest) :
        ∃ skipped n, shorthandLength? ((c :: rest).drop skipped) = some n ∧
          site = offset + skipped + n := by
      obtain ⟨skipped, n, hn, hsite⟩ := ih h
      exact ⟨skipped + 1, n, hn, by omega⟩
    rw [sitesFrom] at h
    split at h
    · exact hothers h
    · split at h
      next n hn =>
        rcases List.mem_cons.mp h with rfl | h
        · exact ⟨0, n, hn, rfl⟩
        · exact hothers h
      next => exact hothers h

/-- No definition starts inside another one's keyword or blanks. -/
private theorem le_of_shorthandLength? {text : List Char} {n skipped m : Nat}
    (hn : shorthandLength? text = some n) (hpos : 0 < skipped)
    (hm : shorthandLength? (text.drop skipped) = some m) : n ≤ skipped := by
  by_contra hlt
  obtain ⟨blanks, rest, htext, -, hblank, -, rfl⟩ := shorthandLength?_eq_some_iff.mp hn
  obtain ⟨blanks', rest', hdrop, -, -, -, -⟩ := shorthandLength?_eq_some_iff.mp hm
  have hf : text[skipped]? = some 'f' := by
    rw [← Nat.add_zero skipped, ← List.getElem?_drop, hdrop, keyword_eq]
    rfl
  rw [htext, List.getElem?_append_left (by rw [List.length_append]; omega)] at hf
  rcases Nat.lt_or_ge skipped keyword.length with hk | hk
  · rw [List.getElem?_append_left hk, keyword_eq] at hf
    rw [keyword_eq] at hk
    match skipped, hpos, hk with
    | k + 1, _, hk =>
      have hmem := List.mem_of_getElem? (List.getElem?_cons_succ ▸ hf)
      simp at hmem
  · rw [List.getElem?_append_right hk] at hf
    have hfblank : isBlank 'f' = true := hblank 'f' (List.mem_of_getElem? hf)
    exact absurd hfblank (by decide)

theorem sitesFrom_sorted (offset : Nat) (inWord commented : Bool) (text : List Char) :
    (sitesFrom offset inWord commented text).Pairwise (· < ·) := by
  induction text generalizing offset inWord commented with
  | nil => exact List.Pairwise.nil
  | cons c rest ih =>
    rw [sitesFrom]
    split
    · exact ih _ _ _
    · split
      next n hn =>
        refine List.pairwise_cons.mpr ⟨fun site hsite => ?_, ih _ _ _⟩
        obtain ⟨skipped, m, hm, rfl⟩ := mem_sitesFrom hsite
        obtain ⟨blanks, -, -, hne, -, -, rfl⟩ := shorthandLength?_eq_some_iff.mp hm
        have hle : n ≤ skipped + 1 := le_of_shorthandLength? hn (Nat.succ_pos skipped) hm
        have := List.length_pos_iff.mpr hne
        omega
      next => exact ih _ _ _

theorem sites_sorted (text : List Char) : (sites text).Pairwise (· < ·) :=
  sitesFrom_sorted 0 false false text

/-- A name goes between a blank and the `o` of `on`. -/
theorem site_spec {text : List Char} {site : Nat} (h : site ∈ sites text) :
    text[site]? = some 'o' ∧ 0 < site ∧ ∃ c, text[site - 1]? = some c ∧ isBlank c = true := by
  obtain ⟨skipped, n, hn, rfl⟩ := mem_sitesFrom h
  obtain ⟨blanks, rest, hdrop, hne, hblank, -, rfl⟩ := shorthandLength?_eq_some_iff.mp hn
  have hat (k : Nat) : text[skipped + k]? = (keyword ++ blanks ++ 'o' :: 'n' :: rest)[k]? := by
    rw [← List.getElem?_drop, hdrop]
  have hpos := List.length_pos_iff.mpr hne
  have hlast : blanks[blanks.length - 1]? = some (blanks.getLast hne) := by
    rw [← List.getLast?_eq_getElem?, List.getLast?_eq_some_getLast hne]
  refine ⟨?_, by omega, blanks.getLast hne, ?_, hblank _ (List.getLast_mem hne)⟩
  · rw [Nat.zero_add, hat, List.getElem?_append_right (by simp)]
    simp
  · rw [show 0 + skipped + (keyword.length + blanks.length) - 1 =
      skipped + (keyword.length + (blanks.length - 1)) by omega, hat,
      List.getElem?_append_left (by rw [List.length_append]; omega),
      List.getElem?_append_right (by omega), Nat.add_sub_cancel_left, hlast]

/-- Where the text before an offset ends once the names are inserted. -/
def boundary (sites : List Nat) (k : Nat) : Nat :=
  k + fragmentNameText.length * sites.countP (· < k)

/-- Where the character at an offset stands once the names are inserted. -/
def landing (sites : List Nat) (k : Nat) : Nat :=
  k + fragmentNameText.length * sites.countP (· ≤ k)

theorem length_fragmentNameText : fragmentNameText.length = 5 := rfl

theorem boundary_zero (sites : List Nat) : boundary sites 0 = 0 := by
  simp [boundary]

theorem landing_add_one (sites : List Nat) (k : Nat) :
    landing sites k + 1 = boundary sites (k + 1) := by
  unfold landing boundary
  simp only [Nat.lt_succ_iff]
  omega

private theorem countP_le {sites : List Nat} (h : sites.Pairwise (· < ·)) (k : Nat) :
    sites.countP (· ≤ k) = sites.countP (· < k) + if k ∈ sites then 1 else 0 := by
  induction sites with
  | nil => rfl
  | cons site rest ih =>
    obtain ⟨hsite, hrest⟩ := List.pairwise_cons.mp h
    have hlt : k ∈ rest → site < k := hsite k
    rw [List.countP_cons, List.countP_cons, ih hrest]
    simp only [decide_eq_true_eq, List.mem_cons]
    grind

theorem landing_eq {sites : List Nat} (h : sites.Pairwise (· < ·)) (k : Nat) :
    landing sites k = boundary sites k + if k ∈ sites then fragmentNameText.length else 0 := by
  unfold landing boundary
  rw [countP_le h, length_fragmentNameText]
  split_ifs <;> omega

theorem boundary_succ {sites : List Nat} (h : sites.Pairwise (· < ·)) (k : Nat) :
    boundary sites (k + 1) =
      boundary sites k + (if k ∈ sites then fragmentNameText.length else 0) + 1 := by
  rw [← landing_add_one, landing_eq h]

theorem boundary_lt (sites : List Nat) {k k' : Nat} (h : k < k') :
    boundary sites k < boundary sites k' := by
  have hcount : sites.countP (· < k) ≤ sites.countP (· < k') := by
    refine List.countP_mono_left fun site _ hsite => ?_
    simp only [decide_eq_true_eq] at hsite ⊢
    omega
  have := Nat.mul_le_mul_left fragmentNameText.length hcount
  unfold boundary
  omega

theorem boundary_le (sites : List Nat) {k k' : Nat} (h : k ≤ k') :
    boundary sites k ≤ boundary sites k' := by
  rcases Nat.eq_or_lt_of_le h with rfl | hlt
  · exact le_rfl
  · exact (boundary_lt sites hlt).le

theorem landing_lt (sites : List Nat) {k k' : Nat} (h : k < k') :
    landing sites k < boundary sites k' := by
  have := landing_add_one sites k
  have : boundary sites (k + 1) ≤ boundary sites k' := boundary_le sites h
  omega

theorem landing_le (sites : List Nat) {k k' : Nat} (h : k ≤ k') :
    landing sites k ≤ landing sites k' := by
  have := landing_add_one sites k
  have := landing_add_one sites k'
  have := boundary_le sites (Nat.add_le_add_right h 1)
  omega

theorem boundary_le_landing (sites : List Nat) (k : Nat) : boundary sites k ≤ landing sites k := by
  have := landing_add_one sites k
  have := boundary_lt sites (Nat.lt_add_one k)
  omega

theorem landing_strictMono (sites : List Nat) : StrictMono (landing sites) :=
  fun _ _ h => (landing_lt sites h).trans_le (boundary_le_landing sites _)

/-- A name ends where the character at its site stands. -/
theorem landing_site {sites : List Nat} (h : sites.Pairwise (· < ·)) {site : Nat}
    (hsite : site ∈ sites) :
    landing sites site = boundary sites site + fragmentNameText.length := by
  rw [landing_eq h, if_pos hsite]

/-- Where no site lies between two offsets, the text between them stays in one piece. -/
theorem boundary_add {sites : List Nat} {k m : Nat} (hlt : k < m)
    (hfree : ∀ site ∈ sites, ¬ (k < site ∧ site < m)) :
    boundary sites m + k = landing sites k + m := by
  have hcount : sites.countP (· < m) = sites.countP (· ≤ k) := by
    refine List.countP_congr fun site hsite => ?_
    have := hfree site hsite
    simp only [decide_eq_true_eq]
    omega
  unfold boundary landing
  rw [hcount]
  omega

theorem length_insertAt {sites : List Nat} (h : sites.Pairwise (· < ·)) (offset : Nat)
    (text : List Char) :
    boundary sites offset + (insertAt offset sites text).length =
      boundary sites (offset + text.length) := by
  induction text generalizing offset with
  | nil => rfl
  | cons c rest ih =>
    have hrest := ih (offset + 1)
    rw [boundary_succ h] at hrest
    rw [insertAt, List.length_cons, show offset + (rest.length + 1) = offset + 1 + rest.length by
      omega, ← hrest]
    split_ifs
    · rw [List.length_append, List.length_cons]
      omega
    · rw [List.length_cons]
      omega

/-- Every character is kept, with a name in front of it if it stands at a site. -/
theorem insertAt_eq_flatMap (offset : Nat) (sites : List Nat) (text : List Char) :
    insertAt offset sites text = (text.zipIdx offset).flatMap fun (c, k) =>
      if k ∈ sites then fragmentNameText ++ [c] else [c] := by
  induction text generalizing offset with
  | nil => rfl
  | cons c rest ih =>
    rw [insertAt, List.zipIdx_cons, List.flatMap_cons, ih]
    dsimp only
    split_ifs
    · rw [List.append_assoc, List.singleton_append]
    · rfl

/-- The text from an offset on, read at the place where the text before the offset ends. -/
private theorem getElem?_insertAt_cons {sites : List Nat} (h : sites.Pairwise (· < ·)) {k : Nat}
    {c : Char} {rest : List Char} {i : Nat} (hi : boundary sites (k + 1) ≤ boundary sites k + i) :
    (insertAt k sites (c :: rest))[i]? =
      (insertAt (k + 1) sites rest)[boundary sites k + i - boundary sites (k + 1)]? := by
  rw [boundary_succ h] at hi ⊢
  rw [insertAt]
  split_ifs at hi ⊢ with hsite
  · rw [List.getElem?_append_right (by omega), List.getElem?_cons, if_neg (by omega)]
    congr 1
    omega
  · rw [List.getElem?_cons, if_neg (by omega)]
    congr 1
    omega

/-- Every character of the text stands at its landing. -/
theorem getElem?_landing {sites : List Nat} (h : sites.Pairwise (· < ·)) {offset k : Nat}
    (hk : offset ≤ k) (text : List Char) :
    (insertAt offset sites text)[landing sites k - boundary sites offset]? =
      text[k - offset]? := by
  induction text generalizing offset with
  | nil => rfl
  | cons c rest ih =>
    have hle := boundary_le_landing sites k
    rcases Nat.eq_or_lt_of_le hk with rfl | hlt
    · rw [landing_eq h, Nat.add_sub_cancel_left, Nat.sub_self, insertAt]
      split_ifs
      · rw [List.getElem?_append_right le_rfl, Nat.sub_self]
        rfl
      · rfl
    · have hmono := boundary_le sites hk
      have hnext : boundary sites (offset + 1) ≤ _ := boundary_le sites hlt
      rw [getElem?_insertAt_cons h (by omega), Nat.add_sub_cancel' (by omega), ih hlt,
        show k - offset = k - (offset + 1) + 1 by omega, List.getElem?_cons_succ]

/-- The name stands between the end of the text before its site and the landing of the site. -/
theorem getElem?_name {sites : List Nat} (h : sites.Pairwise (· < ·)) {offset site : Nat}
    (hsite : site ∈ sites) (hle : offset ≤ site) {text : List Char}
    (hlength : site < offset + text.length) {i : Nat} (hi : i < fragmentNameText.length) :
    (insertAt offset sites text)[boundary sites site + i - boundary sites offset]? =
      fragmentNameText[i]? := by
  induction text generalizing offset with
  | nil => simp at hlength; omega
  | cons c rest ih =>
    rcases Nat.eq_or_lt_of_le hle with rfl | hlt
    · rw [insertAt, if_pos hsite, Nat.add_sub_cancel_left, List.getElem?_append_left hi]
    · have hmono := boundary_le sites hle
      have hnext : boundary sites (offset + 1) ≤ _ := boundary_le sites hlt
      rw [getElem?_insertAt_cons h (by omega), Nat.add_sub_cancel' (by omega),
        ih hlt (by rw [List.length_cons] at hlength; omega)]

/-- Inserted names hold no line break, so the lines of the text start where the text before them
ends. -/
theorem startsAfter_insertAt {sites : List Nat} (h : sites.Pairwise (· < ·)) (offset : Nat)
    (text : List Char) :
    startsAfter (boundary sites offset) (insertAt offset sites text) =
      (startsAfter offset text).map (boundary sites) := by
  induction text generalizing offset with
  | nil => rfl
  | cons c rest ih =>
    have hrest := ih (offset + 1)
    have hnext := boundary_succ h offset
    rw [insertAt]
    split_ifs at hnext ⊢ with hsite
    · rw [startsAfter_append (by decide), startsAfter, startsAfter, ← hnext]
      split_ifs
      · rw [hrest, List.map_cons]
      · exact hrest
    · rw [Nat.add_zero] at hnext
      rw [startsAfter, startsAfter, ← hnext]
      split_ifs
      · rw [hrest, List.map_cons]
      · exact hrest

private theorem countP_lt_getElem {sites : List Nat} (h : sites.Pairwise (· < ·)) {i : Nat}
    (hi : i < sites.length) : sites.countP (· < sites[i]) = i := by
  induction sites generalizing i with
  | nil => simp at hi
  | cons site rest ih =>
    obtain ⟨hsite, hrest⟩ := List.pairwise_cons.mp h
    cases i with
    | zero =>
      refine List.countP_eq_zero.mpr fun other hother => ?_
      rcases List.mem_cons.mp hother with rfl | hother
      · simp
      · have := hsite other hother
        simp only [List.getElem_cons_zero, decide_eq_true_eq]
        omega
    | succ i =>
      rw [List.length_cons, Nat.succ_lt_succ_iff] at hi
      have := hsite _ (List.getElem_mem hi)
      rw [List.getElem_cons_succ, List.countP_cons_of_pos (by simpa using this), ih hrest hi]

/-- Each name starts where the text before its site ends. -/
theorem insertions_eq {sites : List Nat} (h : sites.Pairwise (· < ·)) :
    insertions sites =
      sites.map fun site => ⟨boundary sites site, fragmentNameText.length⟩ := by
  refine List.ext_getElem (by simp [insertions]) fun i hi _ => ?_
  have hlength : i < sites.length := by simpa [insertions] using hi
  simp [insertions, boundary, countP_lt_getElem h hlength]

theorem insertions_ordered {sites : List Nat} (h : sites.Pairwise (· < ·)) :
    Ordered (insertions sites) := by
  rw [insertions_eq h]
  refine ⟨fun i hi => ?_,
    List.pairwise_map.mpr (h.imp_of_mem fun {first second} hfirst _ hlt => ?_)⟩
  · obtain ⟨site, -, rfl⟩ := List.mem_map.mp hi
    exact Int.natCast_pos.mpr (by decide)
  · have hnext := landing_lt sites hlt
    rw [landing_site h hfirst] at hnext
    simp only [Insertion.stop]
    omega

/-- An insertion behind all others is taken. -/
theorem record_eq (ledger : Ledger) {i : Insertion} {rest : List Insertion}
    (h : Ordered (ledger.insertions ++ i :: rest)) :
    ledger.record i.position i.length =
      .ok { ledger with insertions := ledger.insertions ++ [i] } := by
  have hlength := h.1 i (by simp)
  unfold Ledger.record
  rw [if_neg (by omega)]
  split
  next last hlast =>
    have hlast := List.mem_of_getLast? hlast
    have hafter := (List.pairwise_append.mp h.2).2.2 last hlast i List.mem_cons_self
    rw [if_neg (by omega)]
  next hnone => rw [List.getLast?_eq_none_iff.mp hnone, List.nil_append]

/-- Ordered insertions are all taken, and none is refused. -/
theorem foldlM_record (ledger : Ledger) {insertions : List Insertion}
    (h : Ordered (ledger.insertions ++ insertions)) :
    insertions.foldlM (fun ledger i => ledger.record i.position i.length) ledger =
      .ok { ledger with insertions := ledger.insertions ++ insertions } := by
  induction insertions generalizing ledger with
  | nil => simp [pure, Except.pure]
  | cons i rest ih =>
    rw [List.foldlM_cons, record_eq ledger h]
    have hrest := ih { ledger with insertions := ledger.insertions ++ [i] } (by simpa using h)
    simpa [bind, Except.bind] using hrest

/-- Recording goes on behind a refused insertion, which makes no difference where none is refused. -/
theorem recordAll_of_foldlM {ledger last : Ledger} {insertions : List Insertion}
    (h : insertions.foldlM (fun ledger i => ledger.record i.position i.length) ledger = .ok last) :
    recordAll ledger insertions = last := by
  induction insertions generalizing ledger with
  | nil => exact Except.ok.inj h
  | cons i rest ih =>
    rw [List.foldlM_cons] at h
    cases hrecord : ledger.record i.position i.length with
    | error refusal =>
      rw [hrecord] at h
      cases h
    | ok next =>
      rw [hrecord] at h
      rw [recordAll, List.foldl_cons, hrecord]
      exact ih h

theorem recordAll_eq (ledger : Ledger) {insertions : List Insertion}
    (h : Ordered (ledger.insertions ++ insertions)) :
    recordAll ledger insertions =
      { ledger with insertions := ledger.insertions ++ insertions } :=
  recordAll_of_foldlM (foldlM_record ledger h)

private theorem sum_map_ite (passed : Nat → Bool) (width : Int) (sites : List Nat) :
    (sites.map fun site => if passed site then width else 0).sum =
      width * sites.countP passed := by
  induction sites with
  | nil => simp
  | cons site rest ih =>
    rw [List.map_cons, List.sum_cons, ih, List.countP_cons]
    split_ifs
    · push_cast
      ring
    · rw [Nat.add_zero, zero_add]

section Ledger

variable {sites : List Nat} {ledger : Ledger}

/-- A place between the names moves left by all those before it. -/
private theorem bufferOffset_eq (h : sites.Pairwise (· < ·))
    (hledger : ledger.insertions = insertions sites) (passed : Nat → Bool) {place : Nat}
    (hbefore : ∀ site ∈ sites, passed site = true →
      boundary sites site + fragmentNameText.length ≤ place)
    (hafter : ∀ site ∈ sites, passed site = false → place ≤ boundary sites site) :
    ledger.bufferOffset place = place - fragmentNameText.length * sites.countP passed := by
  have hsum : ((insertions sites).map (·.before place)).sum =
      fragmentNameText.length * sites.countP passed := by
    rw [insertions_eq h, List.map_map, ← sum_map_ite]
    congr 1
    refine List.map_congr_left fun site hsite => ?_
    cases hpassed : passed site with
    | false =>
      exact Insertion.before_eq_zero (Int.ofNat_le.mpr (hafter site hsite hpassed))
    | true =>
      exact Insertion.before_eq_length (Int.natCast_nonneg _)
        (Int.ofNat_le.mpr (hbefore site hsite hpassed))
  rw [Ledger.bufferOffset, hledger, Ledger.moveLeft_eq (insertions_ordered h), hsum]
  omega

theorem bufferOffset_boundary (h : sites.Pairwise (· < ·))
    (hledger : ledger.insertions = insertions sites) (k : Nat) :
    ledger.bufferOffset (boundary sites k) = k := by
  rw [bufferOffset_eq h hledger fun site => decide (site < k)]
  · unfold boundary
    omega
  · intro site hsite hlt
    have hnext := landing_lt sites (of_decide_eq_true hlt)
    rw [landing_site h hsite] at hnext
    exact hnext.le
  · intro site _ hle
    exact boundary_le sites (Nat.le_of_not_lt (of_decide_eq_false hle))

theorem bufferOffset_landing (h : sites.Pairwise (· < ·))
    (hledger : ledger.insertions = insertions sites) (k : Nat) :
    ledger.bufferOffset (landing sites k) = k := by
  rw [bufferOffset_eq h hledger fun site => decide (site ≤ k)]
  · unfold landing
    omega
  · intro site hsite hle
    rw [← landing_site h hsite]
    exact landing_le sites (of_decide_eq_true hle)
  · intro site _ hlt
    exact (landing_lt sites (Nat.lt_of_not_le (of_decide_eq_false hlt))).le

/-- The offset in the buffer is the last one whose text before it ends at or before the place. -/
theorem le_bufferOffset_iff (h : sites.Pairwise (· < ·))
    (hledger : ledger.insertions = insertions sites) (k offset : Nat) :
    (k : Int) ≤ ledger.bufferOffset offset ↔ boundary sites k ≤ offset := by
  have hordered : Ordered ledger.insertions := hledger ▸ insertions_ordered h
  constructor
  · intro hk
    by_contra hlt
    cases k with
    | zero => exact hlt (by rw [boundary_zero]; exact Nat.zero_le offset)
    | succ k =>
      have hlanding := landing_add_one sites k
      have hmono : ledger.bufferOffset offset ≤ ledger.bufferOffset (landing sites k) :=
        Ledger.bufferOffset_mono hordered (by omega)
      rw [bufferOffset_landing h hledger] at hmono
      omega
  · intro hle
    rw [← bufferOffset_boundary h hledger k]
    exact Ledger.bufferOffset_mono hordered (by exact_mod_cast hle)

theorem bufferOffset_nonneg (h : sites.Pairwise (· < ·))
    (hledger : ledger.insertions = insertions sites) (offset : Nat) :
    0 ≤ ledger.bufferOffset offset := by
  have hzero := le_bufferOffset_iff h hledger 0 offset
  rw [boundary_zero] at hzero
  exact hzero.mpr (Nat.zero_le offset)

/-- A place outside the names is the landing of its offset in the buffer. -/
theorem eq_landing_of_not_covers (h : sites.Pairwise (· < ·))
    (hledger : ledger.insertions = insertions sites) {offset k : Nat}
    (hk : ledger.bufferOffset offset = k) (hout : ∀ i ∈ ledger.insertions, ¬ i.Covers offset) :
    offset = landing sites k := by
  have hfirst := (le_bufferOffset_iff h hledger k offset).mp hk.ge
  have hlast : offset < boundary sites (k + 1) := by
    rw [← not_le, ← le_bufferOffset_iff h hledger, hk]
    omega
  rw [← landing_add_one, landing_eq h] at hlast
  rw [landing_eq h]
  split_ifs at hlast ⊢ with hsite
  · by_contra hne
    rw [hledger, insertions_eq h] at hout
    refine hout _ (List.mem_map.mpr ⟨k, hsite, rfl⟩) ⟨Int.ofNat_le.mpr hfirst, ?_⟩
    simp only [Insertion.stop]
    omega
  · omega

theorem not_covers_landing (h : sites.Pairwise (· < ·))
    (hledger : ledger.insertions = insertions sites) (k : Nat) :
    ∀ i ∈ ledger.insertions, ¬ i.Covers (landing sites k) := by
  rw [hledger, insertions_eq h]
  intro i hi hcovers
  obtain ⟨site, hsite, rfl⟩ := List.mem_map.mp hi
  obtain ⟨hfirst, hlast⟩ := hcovers
  simp only [Insertion.stop] at hfirst hlast
  have hstop := landing_site h hsite
  rcases Nat.lt_or_ge k site with hlt | hle
  · have := landing_lt sites hlt
    omega
  · have := landing_le sites hle
    omega

end Ledger

end EmbeddedGraphQL.FragmentName
