import EmbeddedGraphQL.Proofs.Coverage
import EmbeddedGraphQL.Proofs.Placement
import Mathlib

/-!
Shorthand definitions and the names inserted into them. A site is found for every shorthand
definition outside comments and for nothing else. Inserted names are made of underscores and end
with a blank, so no definition reaches into one; hence a changed text has no shorthand definition
left, and no name lies in a comment.
-/
namespace EmbeddedGraphQL.FragmentName
open Text

/-- A shorthand definition of a text: the word `fragment` at `start`, blanks, at least one, and the
word `on` at `site`. -/
structure Shorthand (text : List Char) (start site : Nat) : Prop where
  keyword_at : ∀ j < keyword.length, text[start + j]? = keyword[j]?
  blanks_lt : start + keyword.length < site
  blank_at : ∀ k, start + keyword.length ≤ k → k < site → ∃ c, text[k]? = some c ∧ isBlank c = true
  on_at : text[site]? = some 'o' ∧ text[site + 1]? = some 'n'
  before : ∀ k c, start = k + 1 → text[k]? = some c → isWordChar c = false
  after : ∀ c, text[site + 2]? = some c → isWordChar c = false

/-- No `#` stands before an offset on its line: behind every `#` there is a line break. -/
def Uncommented (text : List Char) (start : Nat) : Prop :=
  ∀ j < start, text[j]? = some '#' → ∃ i, j < i ∧ i < start ∧ text[i]? = some '\n'

theorem uncommented_zero (text : List Char) : Uncommented text 0 :=
  fun j hj => absurd hj (Nat.not_lt_zero j)

theorem uncommented_succ_iff (text : List Char) (k : Nat) :
    Uncommented text (k + 1) ↔
      text[k]? = some '\n' ∨ Uncommented text k ∧ text[k]? ≠ some '#' := by
  constructor
  · intro h
    by_cases hbreak : text[k]? = some '\n'
    · exact Or.inl hbreak
    refine Or.inr ⟨fun j hj hmark => ?_, fun hmark => ?_⟩
    · obtain ⟨i, hji, hik, hi⟩ := h j (Nat.lt_succ_of_lt hj) hmark
      have hne : i ≠ k := by
        rintro rfl
        exact hbreak hi
      exact ⟨i, hji, by omega, hi⟩
    · obtain ⟨i, hki, hik, -⟩ := h k (Nat.lt_succ_self k) hmark
      omega
  · rintro (hbreak | ⟨h, hmark⟩) j hj hj'
    · refine ⟨k, ?_, Nat.lt_succ_self k, hbreak⟩
      have hne : j ≠ k := by
        rintro rfl
        rw [hbreak] at hj'
        exact absurd hj' (by decide)
      omega
    · have hne : j ≠ k := by
        rintro rfl
        exact hmark hj'
      obtain ⟨i, hji, hik, hi⟩ := h j (by omega) hj'
      exact ⟨i, hji, Nat.lt_succ_of_lt hik, hi⟩

/-- What follows the start of a shorthand definition, as one text. -/
theorem Shorthand.drop_eq {text : List Char} {start site : Nat} (h : Shorthand text start site) :
    text.drop start = keyword ++ (text.drop (start + keyword.length)).take
      (site - (start + keyword.length)) ++ 'o' :: 'n' :: text.drop (site + 2) := by
  have hkeyword : (text.drop start).take keyword.length = keyword := by
    refine List.ext_getElem? fun j => ?_
    rw [List.getElem?_take, List.getElem?_drop]
    split_ifs with hj
    · exact h.keyword_at j hj
    · rw [List.getElem?_eq_none (Nat.not_lt.mp hj)]
  have hword : text.drop site = 'o' :: 'n' :: text.drop (site + 2) := by
    obtain ⟨ho, hn⟩ := h.on_at
    obtain ⟨hsite, ho⟩ := List.getElem?_eq_some_iff.mp ho
    obtain ⟨hsite', hn⟩ := List.getElem?_eq_some_iff.mp hn
    rw [List.drop_eq_getElem_cons hsite, ho, List.drop_eq_getElem_cons hsite', hn]
  have hlt := h.blanks_lt
  calc text.drop start
      = keyword ++ text.drop (start + keyword.length) := by
        conv_lhs => rw [← List.take_append_drop keyword.length (text.drop start), hkeyword,
          List.drop_drop]
    _ = _ := by
        rw [← hword, List.append_assoc]
        congr 1
        conv_lhs => rw [← List.take_append_drop (site - (start + keyword.length))
          (text.drop (start + keyword.length)), List.drop_drop]
        rw [Nat.add_sub_of_le hlt.le]

/-- The characters of a shorthand definition and those next to it make it one. -/
theorem Shorthand.congr {text other : List Char} {start first n : Nat}
    (h : Shorthand text start (start + n))
    (hchar : ∀ j ≤ n + 1, other[first + j]? = text[start + j]?)
    (hbefore : ∀ k c, first = k + 1 → other[k]? = some c → isWordChar c = false)
    (hafter : ∀ c, other[first + n + 2]? = some c → isWordChar c = false) :
    Shorthand other first (first + n) where
  keyword_at j hj := by
    have hlt := h.blanks_lt
    rw [hchar j (by omega)]
    exact h.keyword_at j hj
  blanks_lt := by
    have hlt := h.blanks_lt
    omega
  blank_at k hlow hhigh := by
    obtain ⟨j, rfl⟩ : ∃ j, k = first + j := ⟨k - first, by omega⟩
    rw [hchar j (by omega)]
    exact h.blank_at (start + j) (by omega) (by omega)
  on_at := by
    rw [hchar n (Nat.le_succ n), Nat.add_assoc first, hchar (n + 1) le_rfl]
    exact h.on_at
  before := hbefore
  after := hafter

/-- A shorthand definition is where one is read, unless it starts inside a word. -/
theorem shorthand_iff {text : List Char} {start site : Nat} :
    Shorthand text start site ↔
      (∀ k c, start = k + 1 → text[k]? = some c → isWordChar c = false) ∧
        ∃ n, shorthandLength? (text.drop start) = some n ∧ site = start + n := by
  constructor
  · intro h
    have hlt := h.blanks_lt
    have hsite := (List.getElem?_eq_some_iff.mp h.on_at.1).1
    have hlength : ((text.drop (start + keyword.length)).take
        (site - (start + keyword.length))).length = site - (start + keyword.length) := by
      rw [List.length_take, List.length_drop]
      omega
    refine ⟨h.before, site - start, shorthandLength?_eq_some_iff.mpr
      ⟨_, _, h.drop_eq, ?_, fun c hc => ?_, fun c hc => ?_, ?_⟩, by omega⟩
    · refine List.length_pos_iff.mp ?_
      rw [hlength]
      omega
    · obtain ⟨k, hk⟩ := List.mem_iff_getElem?.mp hc
      rw [List.getElem?_take, List.getElem?_drop] at hk
      split_ifs at hk with hlast
      obtain ⟨d, hd, hblank⟩ := h.blank_at (start + keyword.length + k) (by omega) (by omega)
      rw [hk] at hd
      exact Option.some.inj hd ▸ hblank
    · rw [List.head?_drop] at hc
      exact h.after c hc
    · rw [hlength]
      omega
  · rintro ⟨hbefore, n, hn, rfl⟩
    obtain ⟨blanks, rest, hdrop, hne, hblank, hword, rfl⟩ := shorthandLength?_eq_some_iff.mp hn
    have hpos := List.length_pos_iff.mpr hne
    have hat (k : Nat) : text[start + k]? = (keyword ++ (blanks ++ 'o' :: 'n' :: rest))[k]? := by
      rw [← List.getElem?_drop, hdrop, List.append_assoc]
    have hbehind (k : Nat) : text[start + (keyword.length + blanks.length) + k]? =
        ('o' :: 'n' :: rest)[k]? := by
      rw [Nat.add_assoc start, hat, List.getElem?_append_right (by omega),
        List.getElem?_append_right (by omega)]
      congr 1
      omega
    refine ⟨fun j hj => ?_, by omega, fun k hlow hhigh => ?_, ⟨hbehind 0, hbehind 1⟩, hbefore,
      fun c hc => ?_⟩
    · rw [hat, List.getElem?_append_left hj]
    · have hk : k - (start + keyword.length) < blanks.length := by omega
      refine ⟨blanks[k - (start + keyword.length)], ?_, hblank _ (List.getElem_mem hk)⟩
      have hplace := hat (k - start)
      rw [Nat.add_sub_of_le (by omega), List.getElem?_append_right (by omega),
        List.getElem?_append_left (by omega), ← Nat.sub_add_eq, List.getElem?_eq_getElem hk]
        at hplace
      exact hplace
    · rw [hbehind 2] at hc
      refine hword c ?_
      rw [List.head?_eq_getElem?]
      exact hc

/-- From an offset on, the sites are those of the shorthand definitions outside comments that start
there or later, for flags that tell what stands before the offset. -/
theorem mem_sitesFrom_drop {text : List Char} {offset site : Nat} {inWord commented : Bool}
    (hword : inWord = false ↔ ∀ k c, offset = k + 1 → text[k]? = some c → isWordChar c = false)
    (hcomment : commented = false ↔ Uncommented text offset) :
    site ∈ sitesFrom offset inWord commented (text.drop offset) ↔
      ∃ start, offset ≤ start ∧ Shorthand text start site ∧ Uncommented text start := by
  -- on what is left of the text; the two flags carry what the skipped characters decide
  induction hm : text.length - offset using Nat.strong_induction_on
    generalizing offset inWord commented with
  | _ m ih =>
  rcases Nat.lt_or_ge offset text.length with hlt | hge
  · have hc : text[offset]? = some text[offset] := List.getElem?_eq_getElem hlt
    have hothers : site ∈ sitesFrom (offset + 1) (isWordChar text[offset])
          (if text[offset] = '\n' then false else commented || text[offset] == '#')
          (text.drop (offset + 1)) ↔
        ∃ start, offset + 1 ≤ start ∧ Shorthand text start site ∧ Uncommented text start := by
      refine ih (text.length - (offset + 1)) (by omega) ?_ ?_ rfl
      · constructor
        · rintro h k c hk hc'
          obtain rfl : offset = k := by omega
          rw [hc] at hc'
          exact Option.some.inj hc' ▸ h
        · exact fun h => h offset _ rfl hc
      · rw [uncommented_succ_iff, hc, ← hcomment]
        by_cases hbreak : text[offset] = '\n'
        · simp [hbreak]
        · simp [hbreak]
    have hhere : (∃ start, offset ≤ start ∧ Shorthand text start site ∧ Uncommented text start) ↔
        Shorthand text offset site ∧ Uncommented text offset ∨
          ∃ start, offset + 1 ≤ start ∧ Shorthand text start site ∧ Uncommented text start := by
      constructor
      · rintro ⟨start, hle, h⟩
        rcases Nat.eq_or_lt_of_le hle with rfl | hlt
        · exact Or.inl h
        · exact Or.inr ⟨start, hlt, h⟩
      · rintro (h | ⟨start, hle, h⟩)
        · exact ⟨offset, le_rfl, h⟩
        · exact ⟨start, by omega, h⟩
    have hdrop := List.drop_eq_getElem_cons hlt
    rw [hhere, ← hothers, shorthand_iff, ← hword, ← hcomment, hdrop, sitesFrom, ← hdrop]
    cases inWord <;> cases commented <;> simp only [Bool.or_false, Bool.or_true,
      Bool.false_eq_true, Bool.true_eq_false, ↓reduceIte, false_and, and_false, false_or,
      true_and, and_true]
    split
    next n hn => simp [hn]
    next hn => simp [hn]
  · rw [List.drop_of_length_le hge]
    simp only [sitesFrom, List.not_mem_nil, false_iff, not_exists, not_and]
    intro start hle h
    have hlt := h.blanks_lt
    have hsite := (List.getElem?_eq_some_iff.mp h.on_at.1).1
    omega

/-- The sites are those of the shorthand definitions outside comments. -/
theorem mem_sites_iff {text : List Char} {site : Nat} :
    site ∈ sites text ↔ ∃ start, Shorthand text start site ∧ Uncommented text start := by
  have h : site ∈ sitesFrom 0 false false (text.drop 0) ↔
      ∃ start, 0 ≤ start ∧ Shorthand text start site ∧ Uncommented text start :=
    mem_sitesFrom_drop (by simp) (by simp [uncommented_zero])
  simpa [sites] using h

/-- No character of a shorthand definition is an underscore or a comment mark. -/
theorem Shorthand.char {text : List Char} {start site : Nat} (h : Shorthand text start site)
    {k : Nat} (hlow : start ≤ k) (hhigh : k < site + 2) :
    ∃ c, text[k]? = some c ∧ c ∉ ['_', '#'] := by
  rcases Nat.lt_or_ge k (start + keyword.length) with hk | hk
  · have hj : k - start < keyword.length := by omega
    obtain ⟨c, hc⟩ : ∃ c, keyword[k - start]? = some c := ⟨_, List.getElem?_eq_getElem hj⟩
    have hchar := h.keyword_at _ hj
    rw [Nat.add_sub_of_le hlow, hc] at hchar
    have hmem := List.mem_of_getElem? hc
    rw [keyword_eq] at hmem
    refine ⟨c, hchar, fun hnot => ?_⟩
    fin_cases hnot <;> exact absurd hmem (by decide)
  rcases Nat.lt_or_ge k site with hk' | hk'
  · obtain ⟨c, hchar, hblank⟩ := h.blank_at k hk hk'
    refine ⟨c, hchar, fun hc => ?_⟩
    fin_cases hc <;> exact absurd hblank (by decide)
  · have hword : k = site ∨ k = site + 1 := by omega
    rcases hword with rfl | rfl
    · exact ⟨'o', h.on_at.1, by decide⟩
    · exact ⟨'n', h.on_at.2, by decide⟩

end EmbeddedGraphQL.FragmentName

namespace EmbeddedGraphQL.Extraction
open Text FragmentName

namespace Named

variable {r : Extraction}

/-- An offset in a name, counted from the start of the name. -/
theorem exists_name (h : r.Named) {offset : Nat}
    (hin : ¬ ∀ i ∈ r.ledger.insertions, ¬ i.Covers offset) :
    ∃ site ∈ r.sites, ∃ i < fragmentNameText.length, offset = boundary r.sites site + i := by
  simp only [not_forall, not_not] at hin
  obtain ⟨i, hi, hlow, hhigh⟩ := hin
  obtain ⟨site, hsite, rfl⟩ := h.mem_insertions hi
  simp only [Insertion.stop] at hlow hhigh
  exact ⟨site, hsite, offset - boundary r.sites site, by omega, by omega⟩

/-- A character that no name has stands at the landing of its place. -/
theorem exists_landing_of_char (h : r.Named) {offset : Nat} {c : Char}
    (hc : r.transformed[offset]? = some c) (hname : c ∉ fragmentNameText) :
    ∃ k, offset = landing r.sites k ∧ r.scan.text[k]? = some c := by
  by_cases hout : ∀ i ∈ r.ledger.insertions, ¬ i.Covers offset
  · obtain ⟨k, -, rfl⟩ := h.exists_landing hout
    exact ⟨k, rfl, by rw [← h.getElem?_landing, hc]⟩
  · obtain ⟨site, hsite, i, hi, rfl⟩ := h.exists_name hout
    rw [h.name_at hsite hi] at hc
    exact absurd (List.mem_of_getElem? hc) hname

/-- Behind a character of the scanned text comes the next one, or a name. -/
theorem landing_succ (h : r.Named) {k : Nat} (hsite : k + 1 ∉ r.sites) :
    landing r.sites (k + 1) = landing r.sites k + 1 := by
  rw [landing_add_one, landing_eq h.sorted, if_neg hsite, Nat.add_zero]

theorem boundary_covered (h : r.Named) {site : Nat} (hsite : site ∈ r.sites) :
    ∃ i ∈ r.ledger.insertions, i.Covers (boundary r.sites site) := by
  refine ⟨_, h.mem_insertions_of_site hsite, le_rfl, ?_⟩
  have := length_fragmentNameText
  simp only [Insertion.stop]
  omega

/-- Where no name covers what follows a character, the text stays in one piece. -/
theorem landing_add (h : r.Named) {k n : Nat}
    (hout : ∀ j ≤ n, ∀ i ∈ r.ledger.insertions, ¬ i.Covers (landing r.sites k + j : Nat))
    {j : Nat} (hj : j ≤ n) : landing r.sites (k + j) = landing r.sites k + j := by
  induction j with
  | zero => rfl
  | succ j ih =>
    have hprev := ih (Nat.le_of_succ_le hj)
    have hnext := landing_add_one r.sites (k + j)
    rw [hprev] at hnext
    rw [← Nat.add_assoc, ← Nat.add_assoc, h.landing_succ ?_, hprev]
    intro hsite
    obtain ⟨i, hi, hcovers⟩ := h.boundary_covered hsite
    rw [← hnext] at hcovers
    exact hout (j + 1) hj i hi hcovers

/-- No name reaches into a shorthand definition of the changed text. -/
theorem shorthand_outside (h : r.Named) {start site : Nat}
    (hs : Shorthand r.transformed start site) {offset : Nat} (hlow : start ≤ offset)
    (hhigh : offset < site + 2) : ∀ i ∈ r.ledger.insertions, ¬ i.Covers offset := by
  by_contra hin
  obtain ⟨other, hother, i, hi, rfl⟩ := h.exists_name hin
  have hunderscore {j : Nat} (hj : j < 4) (hfirst : start ≤ boundary r.sites other + j)
      (hlast : boundary r.sites other + j < site + 2) : False := by
    have hname := h.name_at hother (show j < fragmentNameText.length from hj.trans (by decide))
    obtain ⟨c, hc, hnot⟩ := hs.char hfirst hlast
    rw [hname] at hc
    interval_cases j <;> exact hnot (Option.some.inj hc ▸ List.mem_cons_self)
  rw [length_fragmentNameText] at hi
  rcases Nat.lt_or_ge i 4 with hlt | hge
  · exact hunderscore hlt hlow hhigh
  obtain rfl : i = 4 := by omega
  rcases Nat.eq_or_lt_of_le hlow with heq | hlt
  · have hname := h.name_at hother (show 4 < fragmentNameText.length by decide)
    have hkeyword := hs.keyword_at 0 (by decide)
    rw [Nat.add_zero, heq, hname] at hkeyword
    exact absurd hkeyword (by decide)
  · exact hunderscore (show 3 < 4 by decide) (by omega) (by omega)

/-- A shorthand definition of the changed text is one of the scanned text, in one piece. -/
theorem exists_shorthand (h : r.Named) {start site : Nat}
    (hs : Shorthand r.transformed start site) :
    ∃ k n, start = landing r.sites k ∧ site = start + n ∧
      (∀ j ≤ n + 1, landing r.sites (k + j) = start + j) ∧
      Shorthand r.scan.text k (k + n) := by
  have hlt := hs.blanks_lt
  obtain ⟨n, rfl⟩ : ∃ n, site = start + n := ⟨site - start, by omega⟩
  obtain ⟨k, -, rfl⟩ := h.exists_landing (h.shorthand_outside hs le_rfl (by omega))
  have hplace (j : Nat) (hj : j ≤ n + 1) : landing r.sites (k + j) = landing r.sites k + j :=
    h.landing_add (fun i hi => h.shorthand_outside hs (Nat.le_add_right _ i) (by omega)) hj
  have hchar (j : Nat) (hj : j ≤ n + 1) :
      r.scan.text[k + j]? = r.transformed[landing r.sites k + j]? := by
    rw [← h.getElem?_landing, hplace j hj]
  refine ⟨k, n, rfl, rfl, hplace, hs.congr hchar (fun j c hj hc => ?_) fun c hc => ?_⟩
  · have hnot : k ∉ r.sites := by
      intro hsite
      have hf := hs.keyword_at 0 (by decide)
      rw [← hchar 0 (Nat.zero_le _), Nat.add_zero, (site_spec hsite).1] at hf
      exact absurd hf (by decide)
    subst hj
    exact hs.before _ c (h.landing_succ hnot) (by rw [h.getElem?_landing, hc])
  · have hlast : boundary r.sites (k + n + 2) = landing r.sites k + n + 2 := by
      have hnext := landing_add_one r.sites (k + (n + 1))
      rw [hplace (n + 1) le_rfl] at hnext
      exact hnext.symm
    by_cases hsite : k + n + 2 ∈ r.sites
    · have hname := h.name_at hsite (show 0 < fragmentNameText.length by decide)
      rw [Nat.add_zero, hlast] at hname
      exact absurd (hs.after '_' hname) (by decide)
    · have hland : landing r.sites (k + n + 2) = landing r.sites k + n + 2 := by
        rw [landing_eq h.sorted, if_neg hsite, Nat.add_zero, hlast]
      exact hs.after c (by rw [← hland, h.getElem?_landing, hc])

/-- Comment marks and line breaks keep their places, so a comment of the scanned text is one of the
changed text. -/
theorem uncommented_of_landing (h : r.Named) {k : Nat}
    (hk : Uncommented r.transformed (landing r.sites k)) : Uncommented r.scan.text k := by
  have hlt {i j : Nat} : landing r.sites i < landing r.sites j ↔ i < j :=
    (landing_strictMono r.sites).lt_iff_lt
  intro j hj hmark
  obtain ⟨offset, hlow, hhigh, hbreak⟩ :=
    hk (landing r.sites j) (hlt.mpr hj) (by rw [h.getElem?_landing, hmark])
  obtain ⟨i, rfl, hi⟩ := h.exists_landing_of_char hbreak (by decide)
  exact ⟨i, hlt.mp hlow, hlt.mp hhigh, hi⟩

/-- No shorthand definition outside comments is left. -/
theorem sites_transformed (h : r.Named) : FragmentName.sites r.transformed = [] := by
  refine List.eq_nil_iff_forall_not_mem.mpr fun site hsite => ?_
  obtain ⟨start, hs, huncommented⟩ := mem_sites_iff.mp hsite
  obtain ⟨k, n, rfl, rfl, hplace, hscanned⟩ := h.exists_shorthand hs
  have hnamed : k + n ∈ r.sites :=
    mem_sites_iff.mpr ⟨k, hscanned, h.uncommented_of_landing huncommented⟩
  have hname := landing_site h.sorted hnamed
  have hlt := hs.blanks_lt
  rw [hplace n (Nat.le_succ n), length_fragmentNameText] at hname
  -- the name ends right in front of the word `on`, inside the definition
  refine h.shorthand_outside hs (show landing r.sites k ≤ landing r.sites k + n - 1 by omega)
    (by omega) _ (h.mem_insertions_of_site hnamed) ⟨by dsimp only; omega, ?_⟩
  simp only [Insertion.stop, length_fragmentNameText]
  omega

/-- A name lies in no comment. A comment in front of its definition ends at a line break there, and
one inside the definition would need a mark. -/
theorem not_in_comment (h : r.Named) {site : Nat} (hsite : site ∈ r.sites) {token : Token}
    (htoken : token ∈ Highlight.tokenize r.transformed) (hcomment : token.style = .comment) :
    (boundary r.sites site : Int) < token.start ∨ token.stop ≤ boundary r.sites site := by
  by_contra hin
  rw [not_or, not_lt, not_le] at hin
  obtain ⟨start, hs, huncommented⟩ := mem_sites_iff.mp hsite
  obtain ⟨_, _, _, _, -, hshape, hsource⟩ := Highlight.tokenize_source htoken
  obtain ⟨body, hbody, hbreak⟩ := hsource.of_comment hshape hcomment
  have htiles := (Highlight.tokenize_tiles r.transformed).1
  obtain ⟨a, b, ha, hb, hlt, -⟩ := htiles.exists_offsets le_rfl htoken
  have hchar {k : Nat} (hcovers : token.Covers k) :
      ('#' :: body)[k - a]? = r.transformed[k]? := by
    rw [← htiles.getElem?_of_covers le_rfl htoken hcovers, hbody, ha, Int.toNat_natCast]
  have hmark : r.transformed[a]? = some '#' := by
    rw [← hchar ⟨ha.le, hb ▸ Int.ofNat_lt.mpr hlt⟩, Nat.sub_self]
    rfl
  -- its mark stands in front of the definition, and a line break of the scanned text in between
  obtain ⟨j, rfl, hj⟩ := h.exists_landing_of_char hmark (by decide)
  have hname := landing_site h.sorted hsite
  have hj_lt : j < site := by
    rw [← (landing_strictMono r.sites).lt_iff_lt, hname, length_fragmentNameText]
    omega
  have hj_start : j < start := by
    by_contra hle
    obtain ⟨c, hc, hnot⟩ := hs.char (Nat.not_lt.mp hle) (by omega)
    rw [hj] at hc
    exact hnot (Option.some.inj hc ▸ by decide)
  obtain ⟨i, hji, hi_lt, hi⟩ := huncommented j hj_start hj
  have hafter := landing_strictMono r.sites hji
  have hbefore : landing r.sites i < boundary r.sites site :=
    landing_lt r.sites (hi_lt.trans ((Nat.le_add_right _ _).trans_lt hs.blanks_lt))
  have hend := hchar (k := landing r.sites i) ⟨by omega, by omega⟩
  rw [h.getElem?_landing, hi] at hend
  rcases List.mem_cons.mp (List.mem_of_getElem? hend) with hmark | hmem
  · exact absurd hmark (by decide)
  · exact hbreak hmem

/-- Each insertion has the name at its place, and lies in no comment. -/
theorem named_insertion (h : r.Named) {i : Insertion} (hi : i ∈ r.ledger.insertions) :
    slice r.transformed i.position i.stop = fragmentNameText ∧
      ∀ token ∈ Highlight.tokenize r.transformed, token.style = .comment →
        i.position < token.start ∨ token.stop ≤ i.position := by
  obtain ⟨site, hsite, rfl⟩ := h.mem_insertions hi
  refine ⟨List.ext_getElem? fun k => ?_, fun token => h.not_in_comment hsite⟩
  simp only [Insertion.stop]
  rw [← Nat.cast_add, getElem?_slice]
  split_ifs with hk
  · exact h.name_at hsite (by omega)
  · rw [List.getElem?_eq_none (by omega)]

end Named

/-- Shorthand definitions get names. A name is inserted right before the `on` of every shorthand
definition whose keyword no `#` precedes on its line, and nothing else changes. The ledger refuses
none of the insertions and holds them in their order, each at the place of its name, which lies in
no comment. In the changed text there is nothing left to name. -/
theorem shorthands_named (environment : Environment) (buffer : List Char) :
    let r := ofBuffer environment buffer
    let text := r.scan.text
    let sites := FragmentName.sites text
    (∀ site, site ∈ sites ↔ ∃ start, Shorthand text start site ∧ Uncommented text start) ∧
    sites.Pairwise (· < ·) ∧
    r.transformed = (text.zipIdx.flatMap fun (c, k) =>
      if k ∈ sites then fragmentNameText ++ [c] else [c]) ∧
    (FragmentName.insertions sites).foldlM (fun ledger i => ledger.record i.position i.length)
      Ledger.empty = .ok r.ledger ∧
    r.ledger.insertions = sites.map (fun site =>
      ⟨site + fragmentNameText.length * sites.countP (· < site), fragmentNameText.length⟩) ∧
    (∀ i ∈ r.ledger.insertions,
      slice r.transformed i.position i.stop = fragmentNameText ∧
        ∀ token ∈ Highlight.tokenize r.transformed, token.style = .comment →
          i.position < token.start ∨ token.stop ≤ i.position) ∧
    (namesOnly environment r.transformed).transformed = r.transformed ∧
    (namesOnly environment r.transformed).ledger.insertions = [] := by
  intro r text sites
  have h : r.Named := ofBuffer_named environment buffer
  have hagain : FragmentName.sites r.transformed = [] := h.sites_transformed
  have hrecorded := foldlM_record Ledger.empty
    (show Ordered (Ledger.empty.insertions ++ FragmentName.insertions sites) from
      insertions_ordered h.sorted)
  refine ⟨fun site => mem_sites_iff, h.sorted, insertAt_eq_flatMap 0 sites text,
    hrecorded.trans (congrArg Except.ok (ofBuffer_ledger environment buffer).symm), ?_,
    fun i => h.named_insertion, ?_, ?_⟩
  · rw [h.insertions, insertions_eq h.sorted]
    exact List.map_congr_left fun site _ => by simp [boundary, sites, text, Extraction.sites]
  · change insertAt 0 (FragmentName.sites r.transformed) r.transformed = r.transformed
    rw [hagain, insertAt_eq_flatMap]
    simp only [List.not_mem_nil, if_false]
    rw [← List.map_eq_flatMap, List.zipIdx_map_fst]
  · change (recordAll Ledger.empty (FragmentName.insertions
      (FragmentName.sites r.transformed))).insertions = []
    rw [hagain]
    rfl

/-- A definition over two lines, below another one in a comment. -/
theorem shorthands_named_below_comment :
    let r := ofBuffer .relay "#fragment on A\nfragment\non T".toList
    let i : Insertion := ⟨24, 5⟩
    let comment : Token := ⟨"#fragment on A".toList, .comment, 0, 14, some 0, some "Document"⟩
    r.transformed = "#fragment on A\nfragment\n____ on T".toList ∧
    (i ∈ r.ledger.insertions ∧ slice r.transformed i.position i.stop = fragmentNameText) ∧
    (comment ∈ Highlight.tokenize r.transformed ∧ comment.style = .comment ∧
      (i.position < comment.start ∨ comment.stop ≤ i.position)) := by
  intro r i comment
  have hledger : r.ledger = ⟨[⟨24, 5⟩], 0⟩ := by decide +kernel
  have htext : r.transformed = "#fragment on A\nfragment\n____ on T".toList := by decide +kernel
  have hi : i ∈ r.ledger.insertions := by
    rw [hledger]
    exact List.mem_cons_self
  have hcomment : comment ∈ Highlight.tokenize r.transformed := by
    have htokens : (Highlight.tokenize "#fragment on A\nfragment\n____ on T".toList).head? =
        some comment := by cbv
    rw [htext]
    exact List.mem_of_mem_head? htokens
  obtain ⟨-, -, -, -, -, hnames, -⟩ :=
    shorthands_named .relay "#fragment on A\nfragment\non T".toList
  obtain ⟨hname, hout⟩ := hnames i hi
  exact ⟨htext, ⟨hi, hname⟩, hcomment, rfl, hout comment hcomment rfl⟩

end EmbeddedGraphQL.Extraction
