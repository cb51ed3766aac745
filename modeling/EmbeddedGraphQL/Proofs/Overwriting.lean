import EmbeddedGraphQL.Embedding.Template
import EmbeddedGraphQL.Text.Slice
import Mathlib

/-!
What the scan of a buffer changes. The scan overwrites each template expression where it stands and
blanks the dots in front of a spread, so the expressions found and the buffer determine the written
text character by character, and in the other direction the written text and the expressions give
the buffer back.
-/
namespace EmbeddedGraphQL

namespace Template

/-- Whether an offset lies in an expression. -/
def Covers (t : Template) (k : Nat) : Prop := t.start ≤ k ∧ k < t.stop

/-- Whether an offset is that of a dot blanked in front of a spread. -/
def CoversDot (t : Template) (k : Nat) : Prop :=
  t.standIn = .spread ∧ t.start ≤ k + spreadDots.length ∧ k < t.start

instance (t : Template) (k : Nat) : Decidable (t.Covers k) :=
  inferInstanceAs (Decidable (_ ∧ _))

instance (t : Template) (k : Nat) : Decidable (t.CoversDot k) :=
  inferInstanceAs (Decidable (_ ∧ _ ∧ _))

/-- Of two expressions in a list ordered by places, one ends before the other starts. -/
theorem apart_of_ordered {templates : List Template}
    (h : templates.Pairwise fun t u => t.stop ≤ u.start) {t u : Template} (ht : t ∈ templates)
    (hu : u ∈ templates) (hne : t ≠ u) : t.stop ≤ u.start ∨ u.stop ≤ t.start := by
  have hsymm : Std.Symm fun t u : Template => t.stop ≤ u.start ∨ u.stop ≤ t.start :=
    ⟨fun _ _ => Or.symm⟩
  have hapart : templates.Pairwise fun t u => t.stop ≤ u.start ∨ u.stop ≤ t.start :=
    h.imp Or.inl
  exact hapart.forall ht hu hne

/-- Which stand-in goes with an environment and with the width of an expression. -/
def Fits (environment : Environment) (t : Template) : Prop :=
  match t.standIn with
  | .blank => environment = .apollo
  | .spread => environment = .lokka
  | .comment => t.text.length < templateField.length
  | .field => templateField.length ≤ t.text.length

theorem bodyLength?_spec {opened n : Nat} {text : List Char}
    (h : bodyLength? opened text = some n) :
    n ≤ text.length ∧ '\n' ∉ text.take n ∧
      ((text.take n).getLast? = some '}' ∨ text[n]? = some '\n') := by
  induction text generalizing opened n with
  | nil => simp [bodyLength?] at h
  | cons c rest ih =>
    have step {opened m : Nat} (hc : c ≠ '\n') (hm : bodyLength? opened rest = some m) :
        m + 1 ≤ (c :: rest).length ∧ '\n' ∉ (c :: rest).take (m + 1) ∧
          (((c :: rest).take (m + 1)).getLast? = some '}' ∨ (c :: rest)[m + 1]? = some '\n') := by
      obtain ⟨hle, hbreak, hlast⟩ := ih hm
      refine ⟨by simpa using hle, by simp [hbreak, Ne.symm hc], ?_⟩
      rcases hlast with hlast | hlast
      · exact Or.inl (by rw [List.take_succ_cons, List.getLast?_cons, hlast]; rfl)
      · exact Or.inr (by simpa using hlast)
    rw [bodyLength?] at h
    split_ifs at h with hbreak hopen hclose hlast
    · cases h
      exact ⟨by simp, by simp, Or.inr (by simp [hbreak])⟩
    · obtain ⟨m, hm, rfl⟩ := Option.map_eq_some_iff.mp h
      exact step hbreak hm
    · cases h
      exact ⟨by simp, by simpa using Ne.symm hbreak, Or.inl (by simp [hclose])⟩
    · obtain ⟨m, hm, rfl⟩ := Option.map_eq_some_iff.mp h
      exact step hbreak hm
    · obtain ⟨m, hm, rfl⟩ := Option.map_eq_some_iff.mp h
      exact step hbreak hm

/-- A terminated expression opens with its mark and brace, holds no line break, and ends with a
brace or right before a line break. -/
theorem length?_spec {n : Nat} {text : List Char} (h : length? text = some n) :
    n ≤ text.length ∧ ['$', '{'] <+: text.take n ∧ '\n' ∉ text.take n ∧
      ((text.take n).getLast? = some '}' ∨ text[n]? = some '\n') := by
  unfold length? at h
  split at h
  next rest =>
    obtain ⟨m, hm, rfl⟩ := Option.map_eq_some_iff.mp h
    obtain ⟨hle, hbreak, hlast⟩ := bodyLength?_spec hm
    refine ⟨by simpa using hle, by simp, by simpa using hbreak, ?_⟩
    rcases hlast with hlast | hlast
    · exact Or.inl (by simp [List.getLast?_cons, hlast])
    · exact Or.inr (by simpa using hlast)
  next => simp at h

end Template

namespace StandIn

theorem padded_length {field text : List Char} (h : field.length ≤ text.length) :
    (padded field text).length = text.length := by
  simp [padded, h]

/-- A stand-in that fits is as wide as the expression it covers. -/
theorem write_length {environment : Environment} {t : Template} (hfits : t.Fits environment)
    (hopen : ['$', '{'] <+: t.text) : (t.standIn.write t.text).length = t.text.length := by
  have htwo := hopen.length_le
  unfold Template.Fits at hfits
  cases hkind : t.standIn <;> simp only [hkind] at hfits <;> simp only [write]
  case blank => simp
  case comment =>
    simp only [List.length_cons, List.length_nil, List.length_tail] at htwo ⊢
    omega
  case field => exact padded_length hfits
  case spread => exact padded_length htwo

theorem choose_fits (environment : Environment) (depth : Int) (before text : List Char)
    (start : Nat) : Template.Fits environment
      ⟨start, text, choose environment depth before text⟩ := by
  unfold Template.Fits choose
  dsimp only
  split_ifs with happollo hlokka hshort
  · exact happollo.1
  · exact hlokka.1
  · exact hshort
  · exact Nat.le_of_not_lt hshort

theorem mem_padded {field text : List Char} {c : Char} (h : c ∈ padded field text) :
    c ∈ field ∨ c = ' ' :=
  (List.mem_append.mp h).imp_right List.eq_of_mem_replicate

/-- A stand-in holds no line break that is not in the expression. -/
theorem break_notMem_write {text : List Char} (h : '\n' ∉ text) (standIn : StandIn) :
    '\n' ∉ standIn.write text := by
  intro hmem
  cases standIn with
  | blank => exact absurd (List.eq_of_mem_replicate hmem) (by decide)
  | comment =>
    rcases List.mem_cons.mp hmem with hmem | hmem
    · exact absurd hmem (by decide)
    · exact h (List.mem_of_mem_tail hmem)
  | field | spread => rcases mem_padded hmem with hmem | hmem <;> exact absurd hmem (by decide)

/-- No dot ends the stand-in for an expression that ends with its brace. -/
theorem write_getLast_ne_dot {text : List Char} (hopen : ['$', '{'] <+: text)
    (hlast : text.getLast? = some '}') (standIn : StandIn) :
    (standIn.write text).getLast? ≠ some '.' := by
  intro hdot
  have hmem := List.mem_of_getLast? hdot
  cases standIn with
  | blank => exact absurd (List.eq_of_mem_replicate hmem) (by decide)
  | comment =>
    obtain ⟨rest, rfl⟩ := hopen
    simp_all [write, List.getLast?_cons]
  | field | spread => rcases mem_padded hmem with hmem | hmem <;> exact absurd hmem (by decide)

end StandIn

namespace StandIn

variable {environment : Environment} {depth : Int} {before text : List Char}

theorem choose_eq_blank_iff :
    choose environment depth before text = .blank ↔ environment = .apollo ∧ depth = 0 := by
  unfold choose
  split_ifs with happollo <;> simp [happollo]

theorem choose_eq_spread_iff {written : List Char} :
    choose environment depth written.reverse text = .spread ↔
      environment = .lokka ∧ spreadDots <:+ written := by
  have hdots : spreadDots.isPrefixOf written.reverse = true ↔ spreadDots <:+ written := by
    rw [List.isPrefixOf_iff_prefix, ← List.reverse_suffix, List.reverse_reverse]
    rfl
  rw [← hdots]
  unfold choose
  split_ifs with happollo hlokka hshort
  · simp [happollo.1]
  · exact iff_of_true rfl hlokka
  · exact iff_of_false (by decide) hlokka
  · exact iff_of_false (by decide) hlokka

end StandIn

/-- The text `written` over the start of a buffer, and the expressions found there, last one first:
each expression shows its stand-in, the dots of a spread are blanks, and all else is unchanged. -/
structure Overwrites (environment : Environment) (buffer written : List Char)
    (found : List Template) : Prop where
  length_le : written.length ≤ buffer.length
  text_eq : ∀ t ∈ found, t.text = (buffer.drop t.start).take t.text.length
  stop_le : ∀ t ∈ found, t.stop ≤ written.length
  opening : ∀ t ∈ found, ['$', '{'] <+: t.text
  unbroken : ∀ t ∈ found, '\n' ∉ t.text
  closed : ∀ t ∈ found, t.text.getLast? = some '}' ∨ buffer[t.stop]? = some '\n'
  fits : ∀ t ∈ found, t.Fits environment
  ordered : found.Pairwise fun later earlier => earlier.stop ≤ later.start
  inside : ∀ t ∈ found, ∀ k, k < t.text.length →
    written[t.start + k]? = (t.standIn.write t.text)[k]?
  dotted : ∀ t ∈ found, t.standIn = .spread → spreadDots.length ≤ t.start
  dots : ∀ t ∈ found, ∀ k, t.CoversDot k →
    buffer[k]? = some '.' ∧ written[k]? = some ' ' ∧ ∀ u ∈ found, ¬ u.Covers k
  outside : ∀ k, k < written.length → (∀ t ∈ found, ¬ t.Covers k) →
    (∀ t ∈ found, ¬ t.CoversDot k) → written[k]? = buffer[k]?

namespace Overwrites

variable {environment : Environment} {buffer written : List Char} {found : List Template}

theorem empty (environment : Environment) (buffer : List Char) :
    Overwrites environment buffer [] [] := by
  constructor <;> simp

/-- A character that starts no expression is copied. -/
theorem append_char (h : Overwrites environment buffer written found) {c : Char}
    (hc : buffer[written.length]? = some c) :
    Overwrites environment buffer (written ++ [c]) found where
  length_le := by
    have := (List.getElem?_eq_some_iff.mp hc).1
    simpa using this
  text_eq := h.text_eq
  stop_le t ht := (h.stop_le t ht).trans (by simp)
  opening := h.opening
  unbroken := h.unbroken
  closed := h.closed
  fits := h.fits
  ordered := h.ordered
  inside t ht k hk := by
    have hstop := h.stop_le t ht
    rw [List.getElem?_append_left (by unfold Template.stop at hstop; omega)]
    exact h.inside t ht k hk
  dotted := h.dotted
  dots t ht k hk := by
    obtain ⟨hdot, hblank, hfree⟩ := h.dots t ht k hk
    exact ⟨hdot, by rw [List.getElem?_append_left (List.getElem?_eq_some_iff.mp hblank).1, hblank],
      hfree⟩
  outside k hk hcover hdots := by
    rw [List.length_append, List.length_singleton] at hk
    rcases Nat.lt_succ_iff_lt_or_eq.mp hk with hk | rfl
    · rw [List.getElem?_append_left hk]
      exact h.outside k hk hcover hdots
    · simp [hc]

theorem lt_of_covers (h : Overwrites environment buffer written found) {t : Template}
    (ht : t ∈ found) {k : Nat} (hk : t.Covers k) : k < written.length :=
  hk.2.trans_le (h.stop_le t ht)

/-- A dot in front of an uncovered character is the buffer's own, for no stand-in ends with one. -/
theorem dot_uncovered (h : Overwrites environment buffer written found) {k : Nat}
    (hdot : written[k]? = some '.') (hnext : ∀ t ∈ found, ¬ t.Covers (k + 1))
    (hbreak : buffer[k + 1]? ≠ some '\n') :
    (∀ t ∈ found, ¬ t.Covers k) ∧ buffer[k]? = some '.' := by
  have hfree : ∀ t ∈ found, ¬ t.Covers k := by
    intro t ht ⟨hstart, hstop⟩
    have hend : t.stop = k + 1 := by
      by_contra hne
      exact hnext t ht ⟨by omega, by omega⟩
    rcases h.closed t ht with hlast | hlast
    · have hwidth := StandIn.write_length (h.fits t ht) (h.opening t ht)
      have hk : t.start + (t.text.length - 1) = k := by
        unfold Template.stop at hstop hend
        omega
      have hinside := h.inside t ht (t.text.length - 1) (by
        unfold Template.stop at hstop hend
        omega)
      rw [hk, hdot, ← hwidth, ← List.getLast?_eq_getElem?] at hinside
      exact StandIn.write_getLast_ne_dot (h.opening t ht) hlast t.standIn hinside.symm
    · exact hbreak (hend ▸ hlast)
  refine ⟨hfree, ?_⟩
  have hlen := (List.getElem?_eq_some_iff.mp hdot).1
  rw [← hdot]
  refine (h.outside k hlen hfree fun t ht hk => ?_).symm
  exact absurd (hdot.symm.trans (h.dots t ht k hk).2.1) (by decide)

/-- The dots in front of an expression that is about to be read as a spread. -/
theorem dots_before (h : Overwrites environment buffer written found)
    (hopen : buffer[written.length]? = some '$')
    (hdots : spreadDots <:+ written) :
    spreadDots.length ≤ written.length ∧ ∀ k, written.length ≤ k + spreadDots.length →
      k < written.length → buffer[k]? = some '.' ∧ ∀ t ∈ found, ¬ t.Covers k := by
  obtain ⟨rest, hrest⟩ := hdots
  have hwritten : written = rest ++ ['.', '.', '.'] := hrest.symm
  have hlen : written.length = rest.length + 3 := by simp [hwritten]
  have hdot (k : Nat) (hk : k < 3) : written[rest.length + k]? = some '.' := by
    rw [hwritten, List.getElem?_append_right (by simp)]
    interval_cases k <;> simp
  have third := h.dot_uncovered (hdot 2 (by omega))
    (fun t ht hk => by have := h.lt_of_covers ht hk; omega)
    (by rw [show rest.length + 2 + 1 = written.length by omega, hopen]; simp)
  have second := h.dot_uncovered (hdot 1 (by omega)) third.1 (by rw [third.2]; simp)
  have first := h.dot_uncovered (hdot 0 (by omega)) second.1 (by rw [second.2]; simp)
  refine ⟨by rw [hlen]; exact Nat.le_add_left 3 _, fun k hle hlt => ?_⟩
  have hk : k = rest.length ∨ k = rest.length + 1 ∨ k = rest.length + 2 := by
    change written.length ≤ k + 3 at hle
    omega
  rcases hk with rfl | rfl | rfl
  · exact ⟨first.2, first.1⟩
  · exact ⟨second.2, second.1⟩
  · exact ⟨third.2, third.1⟩

/-- The text before an expression once the dots of a spread are blanked. -/
def withoutDots (standIn : StandIn) (written : List Char) : List Char :=
  (if standIn = .spread
    then List.replicate spreadDots.length ' ' ++ written.reverse.drop spreadDots.length
    else written.reverse).reverse

private theorem withoutDots_eq (standIn : StandIn) (written : List Char) :
    withoutDots standIn written =
      if standIn = .spread then written.take (written.length - 3) ++ [' ', ' ', ' ']
      else written := by
  unfold withoutDots
  split_ifs with hspread
  · rw [List.reverse_append, List.drop_reverse, List.reverse_reverse]
    rfl
  · exact List.reverse_reverse written

private theorem withoutDots_length {standIn : StandIn}
    (h : standIn = .spread → 3 ≤ written.length) :
    (withoutDots standIn written).length = written.length := by
  rw [withoutDots_eq]
  split_ifs with hspread
  · have := h hspread
    simp only [List.length_append, List.length_take, List.length_cons, List.length_nil]
    omega
  · rfl

private theorem withoutDots_getElem {standIn : StandIn}
    (h : standIn = .spread → 3 ≤ written.length) (k : Nat) :
    (withoutDots standIn written)[k]? =
      if standIn = .spread ∧ written.length ≤ k + 3 ∧ k < written.length then some ' '
      else written[k]? := by
  rw [withoutDots_eq]
  by_cases hspread : standIn = .spread
  · have hlen := h hspread
    simp only [hspread, ↓reduceIte, true_and]
    rw [List.getElem?_append, List.length_take, min_eq_left (by omega)]
    split_ifs with h1 h2 h2
    · omega
    · rw [List.getElem?_take_of_lt h1]
    · obtain ⟨j, rfl⟩ : ∃ j, k = written.length - 3 + j := ⟨k - (written.length - 3), by omega⟩
      rw [Nat.add_sub_cancel_left]
      have hj : j < 3 := by omega
      interval_cases j <;> rfl
    · rw [List.getElem?_eq_none (by simp; omega), List.getElem?_eq_none (by omega)]
  · simp [hspread]

private theorem dots_before_template (h : Overwrites environment buffer written found) {n : Nat}
    (hlength : Template.length? (buffer.drop written.length) = some n) {depth : Int}
    (hspread : StandIn.choose environment depth written.reverse
      ((buffer.drop written.length).take n) = .spread) :
    spreadDots.length ≤ written.length ∧ ∀ k, written.length ≤ k + spreadDots.length →
      k < written.length → buffer[k]? = some '.' ∧ ∀ t ∈ found, ¬ t.Covers k := by
  have htwo := Template.two_le_of_length? hlength
  obtain ⟨-, ⟨rest, hrest⟩, -, -⟩ := Template.length?_spec hlength
  have hfirst : ((buffer.drop written.length).take n)[0]? = some '$' := by
    rw [← hrest]
    rfl
  rw [List.getElem?_take_of_lt (by omega), List.getElem?_drop] at hfirst
  exact h.dots_before hfirst (StandIn.choose_eq_spread_iff.mp hspread).2

private theorem write_template_length {n : Nat}
    (hlength : Template.length? (buffer.drop written.length) = some n) (depth : Int) :
    ((StandIn.choose environment depth written.reverse
      ((buffer.drop written.length).take n)).write ((buffer.drop written.length).take n)).length =
      n := by
  obtain ⟨hle, hopen, -, -⟩ := Template.length?_spec hlength
  conv_rhs => rw [← List.length_take_of_le hle]
  exact StandIn.write_length (StandIn.choose_fits environment depth _ _ written.length) hopen

theorem append_template_length (h : Overwrites environment buffer written found) {n : Nat}
    (hlength : Template.length? (buffer.drop written.length) = some n) (depth : Int) :
    let body := (buffer.drop written.length).take n
    let standIn := StandIn.choose environment depth written.reverse body
    (withoutDots standIn written ++ standIn.write body).length = written.length + n := by
  intro body standIn
  rw [List.length_append, write_template_length hlength,
    withoutDots_length fun hspread => (h.dots_before_template hlength hspread).1]

/-- A terminated expression is overwritten by its stand-in. -/
theorem append_template (h : Overwrites environment buffer written found) {n : Nat}
    (hlength : Template.length? (buffer.drop written.length) = some n) (depth : Int) :
    let body := (buffer.drop written.length).take n
    let standIn := StandIn.choose environment depth written.reverse body
    Overwrites environment buffer (withoutDots standIn written ++ standIn.write body)
      (⟨written.length, body, standIn⟩ :: found) := by
  intro body standIn
  set t : Template := ⟨written.length, body, standIn⟩ with ht
  obtain ⟨hle, hopen, hbreak, hclosed⟩ := Template.length?_spec hlength
  have hbody : body.length = n := List.length_take_of_le hle
  rw [List.length_drop] at hle
  have hdots (hspread : standIn = .spread) := h.dots_before_template hlength hspread
  have hthree (hspread : standIn = .spread) : 3 ≤ written.length := (hdots hspread).1
  have hbase := withoutDots_length hthree
  have hwidth := h.append_template_length hlength depth
  have hnew {k : Nat} (hk : k < written.length) :
      (withoutDots standIn written ++ standIn.write body)[k]? =
        if t.CoversDot k then some ' ' else written[k]? := by
    rw [List.getElem?_append_left (by omega), withoutDots_getElem hthree]
    rfl
  have hold {u : Template} (hu : u ∈ found) {k : Nat} (hk : u.Covers k) :
      (withoutDots standIn written ++ standIn.write body)[k]? = written[k]? := by
    rw [hnew (h.lt_of_covers hu hk), if_neg]
    exact fun hdot => ((hdots hdot.1).2 k hdot.2.1 hdot.2.2).2 u hu hk
  constructor
  case length_le =>
    rw [hwidth]
    have := h.length_le
    omega
  case text_eq =>
    refine List.forall_mem_cons.mpr ⟨?_, h.text_eq⟩
    change body = (buffer.drop written.length).take body.length
    rw [hbody]
  case stop_le =>
    rw [hwidth]
    refine List.forall_mem_cons.mpr ⟨?_, fun u hu => (h.stop_le u hu).trans (by omega)⟩
    change written.length + body.length ≤ _
    omega
  case opening => exact List.forall_mem_cons.mpr ⟨hopen, h.opening⟩
  case unbroken => exact List.forall_mem_cons.mpr ⟨hbreak, h.unbroken⟩
  case closed =>
    refine List.forall_mem_cons.mpr ⟨hclosed.imp_right fun hend => ?_, h.closed⟩
    rw [List.getElem?_drop] at hend
    change buffer[written.length + body.length]? = _
    rwa [hbody]
  case fits =>
    exact List.forall_mem_cons.mpr ⟨StandIn.choose_fits environment depth _ body _, h.fits⟩
  case ordered => exact List.pairwise_cons.mpr ⟨h.stop_le, h.ordered⟩
  case inside =>
    refine List.forall_mem_cons.mpr ⟨fun k hk => ?_, fun u hu k hk => ?_⟩
    · change (withoutDots standIn written ++ standIn.write body)[written.length + k]? = _
      rw [← hbase, List.getElem?_append_right (by omega), Nat.add_sub_cancel_left]
    · rw [hold hu ⟨by omega, by unfold Template.stop; omega⟩]
      exact h.inside u hu k hk
  case dotted => exact List.forall_mem_cons.mpr ⟨hthree, h.dotted⟩
  case dots =>
    refine List.forall_mem_cons.mpr ⟨fun k hk => ?_, fun u hu k hk => ?_⟩
    · obtain ⟨hdot, hfree⟩ := (hdots hk.1).2 k hk.2.1 hk.2.2
      refine ⟨hdot, by rw [hnew hk.2.2, if_pos hk], List.forall_mem_cons.mpr ⟨?_, hfree⟩⟩
      exact fun hcover => absurd hk.2.2 (Nat.not_lt.mpr hcover.1)
    · obtain ⟨hdot, hblank, hfree⟩ := h.dots u hu k hk
      have hlt := (List.getElem?_eq_some_iff.mp hblank).1
      refine ⟨hdot, by rw [hnew hlt, hblank, ite_self], List.forall_mem_cons.mpr ⟨?_, hfree⟩⟩
      exact fun hcover => absurd hlt (Nat.not_lt.mpr hcover.1)
  case outside =>
    intro k hk hcover hdot
    obtain ⟨hcover, hrest⟩ := List.forall_mem_cons.mp hcover
    obtain ⟨hdot, hdots⟩ := List.forall_mem_cons.mp hdot
    have hlt : k < written.length := by
      by_contra hge
      rw [hwidth] at hk
      refine hcover ⟨Nat.not_lt.mp hge, ?_⟩
      change k < written.length + body.length
      omega
    rw [hnew hlt, if_neg hdot]
    exact h.outside k hlt hrest hdots

end Overwrites

/-! The steps of the scan -/

/-- The expression of `n` characters behind what has been written, `depth` braces being open. -/
def Template.nextOf (environment : Environment) (buffer written : List Char) (depth : Int)
    (n : Nat) : Template :=
  let text := (buffer.drop written.length).take n
  ⟨written.length, text, StandIn.choose environment depth written.reverse text⟩

/-- What the scan can have written over the start of a buffer, with the expressions found there,
last one first, and the braces that are open. -/
inductive Scan.Reaches (environment : Environment) (buffer : List Char) :
    List Char → List Template → Int → Prop
  | start : Reaches environment buffer [] [] 0
  | char {written : List Char} {found : List Template} {depth : Int} {c : Char}
      (before : Reaches environment buffer written found depth)
      (unterminated : Template.length? (buffer.drop written.length) = none)
      (read : buffer[written.length]? = some c) :
      Reaches environment buffer (written ++ [c]) found
        (if c = '{' then depth + 1 else if c = '}' then depth - 1 else depth)
  | template {written : List Char} {found : List Template} {depth : Int} {n : Nat} {t : Template}
      (before : Reaches environment buffer written found depth)
      (terminated : Template.length? (buffer.drop written.length) = some n)
      (next : t = .nextOf environment buffer written depth n) :
      Reaches environment buffer
        (Overwrites.withoutDots t.standIn written ++ t.standIn.write t.text) (t :: found) depth

namespace Scan

variable {environment : Environment} {buffer written : List Char} {found : List Template}
  {depth : Int}

theorem Reaches.overwrites (h : Reaches environment buffer written found depth) :
    Overwrites environment buffer written found := by
  induction h with
  | start => exact .empty environment buffer
  | char _ _ read ih => exact ih.append_char read
  | template _ terminated next ih => exact next ▸ ih.append_template terminated _

/-- From what it reaches, the scan goes on to the end of the buffer. -/
theorem Reaches.go (h : Reaches environment buffer written found depth) :
    let scan := Scan.go environment written.length depth written.reverse found
      (buffer.drop written.length)
    (∃ depth, Reaches environment buffer scan.text scan.found.reverse depth) ∧
      scan.text.length = buffer.length := by
  induction hm : buffer.length - written.length using Nat.strong_induction_on
    generalizing written found depth with
  | _ m ih =>
  intro scan
  cases hdrop : buffer.drop written.length with
  | nil =>
    have hscan : scan = ⟨written, found.reverse⟩ := by
      simp only [scan, hdrop, Scan.go, List.reverse_reverse]
    have hend := List.drop_eq_nil_iff.mp hdrop
    rw [hscan, List.reverse_reverse]
    exact ⟨⟨depth, h⟩, Nat.le_antisymm h.overwrites.length_le hend⟩
  | cons c rest =>
    have hlt : written.length < buffer.length := by
      by_contra hge
      rw [List.drop_of_length_le (Nat.not_lt.mp hge)] at hdrop
      cases hdrop
    have hscan : scan = Scan.go environment written.length depth written.reverse found
      (c :: rest) := by rw [← hdrop]
    rw [Scan.go] at hscan
    split at hscan
    next n hlength =>
      have htwo := Template.two_le_of_length? hlength
      rw [← hdrop] at hlength
      have hnext := h.template hlength rfl
      set t := Template.nextOf environment buffer written depth n with ht
      have hwidth : (Overwrites.withoutDots t.standIn written ++ t.standIn.write t.text).length =
          written.length + n := h.overwrites.append_template_length hlength depth
      have := ih (buffer.length - (written.length + n)) (by omega) hnext (by rw [hwidth])
      rw [hwidth, ← List.drop_drop, hdrop] at this
      rw [hscan]
      simpa only [ht, Template.nextOf, hdrop, Overwrites.withoutDots, List.reverse_append,
        List.reverse_reverse] using this
    next hlength =>
      rw [← hdrop] at hlength
      have hc : buffer[written.length]? = some c := by
        rw [← Nat.add_zero written.length, ← List.getElem?_drop, hdrop]
        rfl
      have := ih (buffer.length - (written.length + 1)) (by omega) (h.char hlength hc) (by simp)
      simp only [List.length_append, List.length_singleton, List.reverse_append,
        List.reverse_singleton, List.singleton_append] at this
      rw [hscan]
      have hrest : buffer.drop (written.length + 1) = rest := by
        rw [← List.drop_drop, hdrop]
        rfl
      rwa [hrest] at this

theorem ofBuffer_reaches (environment : Environment) (buffer : List Char) :
    (∃ depth, Reaches environment buffer (ofBuffer environment buffer).text
        (ofBuffer environment buffer).found.reverse depth) ∧
      (ofBuffer environment buffer).text.length = buffer.length :=
  Reaches.start.go

/-- The scan of a buffer overwrites it from one end to the other. -/
theorem ofBuffer_overwrites (environment : Environment) (buffer : List Char) :
    Overwrites environment buffer (ofBuffer environment buffer).text
        (ofBuffer environment buffer).found.reverse ∧
      (ofBuffer environment buffer).text.length = buffer.length :=
  (ofBuffer_reaches environment buffer).imp_left fun ⟨_, h⟩ => h.overwrites

end Scan

namespace Overwrites

variable {environment : Environment} {buffer written : List Char} {found : List Template}

/-! What the invariant says of single characters and of whole expressions. -/

theorem add_two_le_stop (h : Overwrites environment buffer written found) {t : Template}
    (ht : t ∈ found) : t.start + 2 ≤ t.stop :=
  Nat.add_le_add_left (h.opening t ht).length_le _

theorem slice_buffer (h : Overwrites environment buffer written found) {t : Template}
    (ht : t ∈ found) : Text.slice buffer t.start t.stop = t.text := by
  rw [Text.slice_eq_take_drop, Template.stop, Nat.add_sub_cancel_left]
  exact (h.text_eq t ht).symm

theorem slice_written (h : Overwrites environment buffer written found) {t : Template}
    (ht : t ∈ found) : Text.slice written t.start t.stop = t.standIn.write t.text := by
  have hwidth := StandIn.write_length (h.fits t ht) (h.opening t ht)
  apply List.ext_getElem?
  intro k
  rw [Text.getElem?_slice, Template.stop]
  split_ifs with hk
  · exact h.inside t ht k (by omega)
  · rw [List.getElem?_eq_none (by omega)]

theorem buffer_of_covers (h : Overwrites environment buffer written found) {t : Template}
    (ht : t ∈ found) {k : Nat} (hk : t.Covers k) : buffer[k]? = t.text[k - t.start]? := by
  obtain ⟨hstart, hstop⟩ := hk
  rw [← h.slice_buffer ht, Text.getElem?_slice, Nat.add_sub_of_le hstart, if_pos hstop]

theorem written_of_covers (h : Overwrites environment buffer written found) {t : Template}
    (ht : t ∈ found) {k : Nat} (hk : t.Covers k) :
    written[k]? = (t.standIn.write t.text)[k - t.start]? := by
  obtain ⟨hstart, hstop⟩ := hk
  rw [← h.slice_written ht, Text.getElem?_slice, Nat.add_sub_of_le hstart, if_pos hstop]

/-- The dots in front of a spread. -/
theorem slice_dots (h : Overwrites environment buffer written found) {t : Template}
    (ht : t ∈ found) (hspread : t.standIn = .spread) :
    Text.slice buffer (t.start - spreadDots.length : Nat) t.start = spreadDots := by
  have hdotted := h.dotted t ht hspread
  apply List.ext_getElem?
  intro k
  rw [Text.getElem?_slice]
  split_ifs with hk
  · have hdot := (h.dots t ht _ ⟨hspread, by omega, hk⟩).1
    have hk : k < 3 := by
      change _ < _ at hk
      have : spreadDots.length = 3 := rfl
      omega
    rw [hdot]
    interval_cases k <;> rfl
  · rw [List.getElem?_eq_none (by omega)]

/-- Line breaks stay where they are, and none is added. -/
theorem break_iff (h : Overwrites environment buffer written found) {k : Nat}
    (hk : k < written.length) : written[k]? = some '\n' ↔ buffer[k]? = some '\n' := by
  by_cases hcover : ∃ t ∈ found, t.Covers k
  · obtain ⟨t, ht, hcover⟩ := hcover
    have hbreak := h.unbroken t ht
    rw [h.written_of_covers ht hcover, h.buffer_of_covers ht hcover]
    constructor <;> intro hmem
    · exact absurd (List.mem_of_getElem? hmem) (StandIn.break_notMem_write hbreak t.standIn)
    · exact absurd (List.mem_of_getElem? hmem) hbreak
  by_cases hdot : ∃ t ∈ found, t.CoversDot k
  · obtain ⟨t, ht, hdot⟩ := hdot
    obtain ⟨hbuffer, hwritten, -⟩ := h.dots t ht k hdot
    simp [hbuffer, hwritten]
  · simp only [not_exists, not_and] at hcover hdot
    rw [h.outside k hk hcover hdot]

end Overwrites

/-- A text with a piece of another one written over it. -/
def overwriteAt (text : List Char) (start : Nat) (piece : List Char) : List Char :=
  text.take start ++ piece ++ text.drop (start + piece.length)

/-- The written text with the text of each template written back, and the dots in front of each
spread. -/
def Scan.writtenBack (scan : Scan) : List Char :=
  (scan.templates.map (fun t => (t.start, t.text)) ++
    scan.spreadEnds.map fun stop => (stop - spreadDots.length, spreadDots)).foldl
      (fun text piece => overwriteAt text piece.1 piece.2) scan.text

private theorem getElem?_overwriteAt {text piece : List Char} {start : Nat}
    (h : start + piece.length ≤ text.length) (k : Nat) :
    (overwriteAt text start piece)[k]? =
      if start ≤ k ∧ k < start + piece.length then piece[k - start]? else text[k]? := by
  unfold overwriteAt
  have hstart : (text.take start).length = start := List.length_take_of_le (by omega)
  rcases Nat.lt_or_ge k start with hk | hk
  · rw [if_neg (by omega), List.append_assoc, List.getElem?_append_left (by omega),
      List.getElem?_take_of_lt hk]
  · rw [List.append_assoc, List.getElem?_append_right (by omega), hstart]
    rcases Nat.lt_or_ge k (start + piece.length) with hk' | hk'
    · rw [if_pos ⟨hk, hk'⟩, List.getElem?_append_left (by omega)]
    · rw [if_neg (by omega), List.getElem?_append_right (by omega), List.getElem?_drop]
      congr 1
      omega

/-- Writing pieces of a buffer where they belong gives the buffer, if each place that differs is in
one of them. -/
private theorem foldl_overwriteAt {buffer : List Char} (pieces : List (Nat × List Char)) :
    ∀ text : List Char, text.length = buffer.length →
      (∀ p ∈ pieces, p.1 + p.2.length ≤ buffer.length ∧
        ∀ k < p.2.length, p.2[k]? = buffer[p.1 + k]?) →
      (∀ k, text[k]? = buffer[k]? ∨ ∃ p ∈ pieces, p.1 ≤ k ∧ k < p.1 + p.2.length) →
      pieces.foldl (fun text p => overwriteAt text p.1 p.2) text = buffer := by
  induction pieces with
  | nil =>
    intro text _ _ hsame
    exact List.ext_getElem? fun k => (hsame k).resolve_right (by simp)
  | cons p rest ih =>
    intro text hlength hpieces hsame
    obtain ⟨⟨hle, hpiece⟩, hrest⟩ := List.forall_mem_cons.mp hpieces
    have hat (k : Nat) := getElem?_overwriteAt (hlength ▸ hle : p.1 + p.2.length ≤ text.length) k
    refine ih _ ?_ hrest fun k => ?_
    · simp only [overwriteAt, List.length_append, List.length_take, List.length_drop]
      omega
    · rw [hat]
      split_ifs with hk
      · refine Or.inl ?_
        rw [hpiece (k - p.1) (by omega)]
        congr 1
        omega
      · rcases hsame k with hk' | ⟨q, hq, hk'⟩
        · exact Or.inl hk'
        · rcases List.mem_cons.mp hq with rfl | hq
          · exact absurd hk' hk
          · exact Or.inr ⟨q, hq, hk'⟩

namespace Scan

theorem text_length (environment : Environment) (buffer : List Char) :
    (ofBuffer environment buffer).text.length = buffer.length :=
  (ofBuffer_overwrites environment buffer).2

theorem text_break_iff (environment : Environment) (buffer : List Char) (k : Nat) :
    (ofBuffer environment buffer).text[k]? = some '\n' ↔ buffer[k]? = some '\n' := by
  obtain ⟨hover, hlength⟩ := ofBuffer_overwrites environment buffer
  rcases Nat.lt_or_ge k (ofBuffer environment buffer).text.length with hk | hk
  · exact hover.break_iff hk
  · rw [List.getElem?_eq_none hk, List.getElem?_eq_none (hlength ▸ hk)]

theorem mem_found_of_mem_recorded {scan : Scan} {t : Template}
    (h : t ∈ scan.templates ++ scan.blanked) : t ∈ scan.found := by
  rcases List.mem_append.mp h with h | h <;> exact (List.mem_filter.mp h).1

theorem mem_recorded_of_mem_found {scan : Scan} {t : Template} (h : t ∈ scan.found) :
    t ∈ scan.templates ++ scan.blanked := by
  by_cases hblank : t.standIn = .blank
  · exact List.mem_append_right _ (List.mem_filter.mpr ⟨h, by simp [hblank]⟩)
  · exact List.mem_append_left _ (List.mem_filter.mpr ⟨h, by simp [hblank]⟩)

theorem mem_spreadEnds {scan : Scan} {stop : Nat} :
    stop ∈ scan.spreadEnds ↔ ∃ t ∈ scan.found, t.standIn = .spread ∧ t.start = stop := by
  simp [spreadEnds, and_assoc]

/-- The expressions found stand in the order of their places and do not overlap. -/
theorem found_ordered (environment : Environment) (buffer : List Char) :
    (ofBuffer environment buffer).found.Pairwise fun t u => t.stop ≤ u.start := by
  have h := (ofBuffer_overwrites environment buffer).1.ordered
  rwa [List.pairwise_reverse] at h

theorem recorded_disjoint (environment : Environment) (buffer : List Char) :
    let scan := ofBuffer environment buffer
    (scan.templates ++ scan.blanked).Pairwise fun t u => t.stop ≤ u.start ∨ u.stop ≤ t.start := by
  intro scan
  have hperm : (scan.templates ++ scan.blanked).Perm scan.found := by
    have := List.filter_append_perm (fun t : Template => t.standIn != .blank) scan.found
    simpa [templates, blanked, bne] using this
  rw [hperm.pairwise_iff fun h => Or.symm h]
  exact (found_ordered environment buffer).imp Or.inl

private theorem piece_of_template {environment : Environment} {buffer written : List Char}
    {found : List Template} (h : Overwrites environment buffer written found) {t : Template}
    (ht : t ∈ found) : t.start + t.text.length ≤ buffer.length ∧
      ∀ k < t.text.length, t.text[k]? = buffer[t.start + k]? := by
  refine ⟨(h.stop_le t ht).trans h.length_le, fun k hk => ?_⟩
  rw [h.buffer_of_covers ht ⟨Nat.le_add_right _ _, Nat.add_lt_add_left hk _⟩,
    Nat.add_sub_cancel_left]

private theorem piece_of_dots {environment : Environment} {buffer written : List Char}
    {found : List Template} (h : Overwrites environment buffer written found) {t : Template}
    (ht : t ∈ found) (hspread : t.standIn = .spread) :
    t.start - spreadDots.length + spreadDots.length ≤ buffer.length ∧
      ∀ k < spreadDots.length, spreadDots[k]? = buffer[t.start - spreadDots.length + k]? := by
  have hdotted := h.dotted t ht hspread
  have hstop : t.start ≤ t.stop := Nat.le_add_right _ _
  refine ⟨by have := h.stop_le t ht; have := h.length_le; omega, fun k hk => ?_⟩
  rw [(h.dots t ht _ ⟨hspread, by omega, by omega⟩).1]
  have hk : k < 3 := hk
  interval_cases k <;> rfl

/-- Without blanked expressions the written text and what is recorded give the buffer back. -/
theorem writtenBack_eq {environment : Environment} (h : environment ≠ .apollo)
    (buffer : List Char) : (ofBuffer environment buffer).writtenBack = buffer := by
  obtain ⟨hover, hlength⟩ := ofBuffer_overwrites environment buffer
  set scan := ofBuffer environment buffer
  have hshown {t : Template} (ht : t ∈ scan.found) : t ∈ scan.templates := by
    refine List.mem_filter.mpr ⟨ht, ?_⟩
    have hfits := hover.fits t (List.mem_reverse.mpr ht)
    cases hkind : t.standIn
    case blank => exact absurd (by simpa [Template.Fits, hkind] using hfits) h
    all_goals rfl
  refine foldl_overwriteAt _ scan.text hlength (fun p hp => ?_) fun k => ?_
  · rcases List.mem_append.mp hp with hp | hp
    · obtain ⟨t, ht, rfl⟩ := List.mem_map.mp hp
      exact piece_of_template hover (List.mem_reverse.mpr (List.mem_filter.mp ht).1)
    · obtain ⟨stop, hstop, rfl⟩ := List.mem_map.mp hp
      obtain ⟨t, ht, hspread, rfl⟩ := mem_spreadEnds.mp hstop
      exact piece_of_dots hover (List.mem_reverse.mpr ht) hspread
  · by_cases hcover : ∃ t ∈ scan.found, t.Covers k
    · obtain ⟨t, ht, hcover⟩ := hcover
      exact Or.inr ⟨(t.start, t.text),
        List.mem_append_left _ (List.mem_map.mpr ⟨t, hshown ht, rfl⟩), hcover⟩
    by_cases hdot : ∃ t ∈ scan.found, t.CoversDot k
    · obtain ⟨t, ht, hspread, hlow, hhigh⟩ := hdot
      refine Or.inr ⟨(t.start - spreadDots.length, spreadDots), List.mem_append_right _
        (List.mem_map.mpr ⟨t.start, mem_spreadEnds.mpr ⟨t, ht, hspread, rfl⟩, rfl⟩), ?_⟩
      have := hover.dotted t (List.mem_reverse.mpr ht) hspread
      dsimp only
      omega
    · simp only [not_exists, not_and] at hcover hdot
      refine Or.inl ?_
      rcases Nat.lt_or_ge k scan.text.length with hk | hk
      · exact hover.outside k hk (fun t ht => hcover t (List.mem_reverse.mp ht))
          fun t ht => hdot t (List.mem_reverse.mp ht)
      · rw [List.getElem?_eq_none hk, List.getElem?_eq_none (hlength ▸ hk)]

/-- The scan changes a buffer in place. The recorded expressions are pieces of the buffer that do
not overlap, the text keeps its length and its line breaks, and outside the expressions and the dots
of spreads it is the buffer. An expression shows a comment mark in front of its own rest or a whole
field in front of blanks, and where nothing is blanked the buffer can be read off the result. -/
theorem scan_frame_recovery (environment : Environment) (buffer : List Char) :
    let scan := ofBuffer environment buffer
    let recorded := scan.templates ++ scan.blanked
    scan.text.length = buffer.length ∧
    (∀ k : Nat, scan.text[k]? = some '\n' ↔ buffer[k]? = some '\n') ∧
    recorded.Pairwise (fun t u => t.stop ≤ u.start ∨ u.stop ≤ t.start) ∧
    (∀ t ∈ recorded, Text.slice buffer t.start t.stop = t.text ∧ ['$', '{'] <+: t.text ∧
      '\n' ∉ t.text) ∧
    (∀ k : Nat, (∀ t ∈ recorded, ¬ (t.start ≤ k ∧ k < t.stop)) →
      (∀ stop ∈ scan.spreadEnds, ¬ (stop ≤ k + 3 ∧ k < stop)) → scan.text[k]? = buffer[k]?) ∧
    (∀ t ∈ scan.templates,
      Text.slice scan.text t.start t.stop = '#' :: t.text.tail ∨
      ∃ field ∈ [templateField, spreadField], ∃ n : Nat,
        Text.slice scan.text t.start t.stop = field ++ List.replicate n ' ') ∧
    (environment ≠ .apollo → scan.writtenBack = buffer) := by
  intro scan recorded
  obtain ⟨hover, hlength⟩ := ofBuffer_overwrites environment buffer
  refine ⟨hlength, text_break_iff environment buffer, recorded_disjoint environment buffer,
    fun t ht => ?_, fun k hcover hdot => ?_, fun t ht => ?_, fun h => writtenBack_eq h buffer⟩
  · have ht := List.mem_reverse.mpr (mem_found_of_mem_recorded ht)
    exact ⟨hover.slice_buffer ht, hover.opening t ht, hover.unbroken t ht⟩
  · rcases Nat.lt_or_ge k scan.text.length with hk | hk
    · refine hover.outside k hk (fun t ht => hcover t ?_) fun t ht hk => hdot t.start ?_ hk.2
      · exact mem_recorded_of_mem_found (List.mem_reverse.mp ht)
      · exact mem_spreadEnds.mpr ⟨t, List.mem_reverse.mp ht, hk.1, rfl⟩
    · rw [List.getElem?_eq_none hk, List.getElem?_eq_none (hlength ▸ hk)]
  · obtain ⟨ht, hblank⟩ := List.mem_filter.mp ht
    rw [hover.slice_written (List.mem_reverse.mpr ht)]
    cases hkind : t.standIn
    case blank => simp [hkind] at hblank
    case comment => exact Or.inl rfl
    case field => exact Or.inr ⟨templateField, by simp, _, rfl⟩
    case spread => exact Or.inr ⟨spreadField, by simp, _, rfl⟩

/-- A spread, a comment and a field in one buffer; the dots come back with the texts. -/
theorem scan_frame_recovery_lokka :
    let buffer := "a ...$\x7bx\x7d $\x7by\x7d $\x7blongEnough\x7d".toList
    let scan := ofBuffer .lokka buffer
    (⟨5, "$\x7bx\x7d".toList, .spread⟩ ∈ scan.templates ∧
      Text.slice buffer 5 9 = "$\x7bx\x7d".toList) ∧
    Environment.lokka ≠ .apollo ∧ scan.writtenBack = buffer := by
  intro buffer scan
  have htemplates : (ofBuffer .lokka
      "a ...$\x7bx\x7d $\x7by\x7d $\x7blongEnough\x7d".toList).templates =
      [⟨5, "$\x7bx\x7d".toList, .spread⟩, ⟨10, "$\x7by\x7d".toList, .comment⟩,
        ⟨15, "$\x7blongEnough\x7d".toList, .field⟩] := by cbv
  have hmem : ⟨5, "$\x7bx\x7d".toList, .spread⟩ ∈ scan.templates := by
    rw [htemplates]
    exact List.mem_cons_self
  obtain ⟨-, -, -, htext, -, -, hback⟩ := scan_frame_recovery .lokka buffer
  exact ⟨⟨hmem, (htext _ (List.mem_append_left _ hmem)).1⟩, by decide, hback (by decide)⟩

end Scan
end EmbeddedGraphQL
