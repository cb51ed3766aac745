import EmbeddedGraphQL.Document.Parser
import Mathlib

/-!
Symbols that parsers take. A phrase has properly nested brackets and a name behind each dollar sign
and each at sign. What the basic parsers take is known symbol by symbol, and parsers put together
from ones that take phrases take phrases.
-/
namespace EmbeddedGraphQL

/-- Whether a symbol is a given punctuator. -/
def Symbol.Is (s : Symbol) (text : String) : Prop := s.kind = .punctuator ∧ s.value = text

instance (s : Symbol) (text : String) : Decidable (s.Is text) :=
  inferInstanceAs (Decidable (_ ∧ _))

/-- Punctuators with a part of their own: brackets, the marks in front of names, and dots. -/
def Symbol.marked : List String := ["...", "$", "@", "(", ")", "[", "]", "\x7b", "\x7d"]

def Symbol.IsPlain (s : Symbol) : Prop := s.kind = .punctuator → s.value ∉ Symbol.marked

theorem Symbol.Is.isPlain {s : Symbol} {text : String} (h : s.Is text)
    (htext : text ∉ Symbol.marked) : s.IsPlain := fun _ => h.2 ▸ htext

theorem Symbol.isPlain_of_kind {s : Symbol} (h : s.kind ≠ .punctuator) : s.IsPlain :=
  fun hkind => absurd hkind h

/-- Symbols with properly nested brackets, and a name after each dollar sign and each at sign. The
flag tells whether there may be dots. -/
inductive Phrase (dots : Bool) : List Symbol → Prop
  | nil : Phrase dots []
  | plain {s : Symbol} {rest : List Symbol} : s.IsPlain → Phrase dots rest → Phrase dots (s :: rest)
  | spread {s : Symbol} {rest : List Symbol} : dots = true → s.Is "..." → Phrase dots rest →
      Phrase dots (s :: rest)
  | named {mark name : Symbol} {rest : List Symbol} : mark.Is "$" ∨ mark.Is "@" →
      name.kind = .name → Phrase dots rest → Phrase dots (mark :: name :: rest)
  | nest {opening closing : Symbol} {left right : String} {inside rest : List Symbol} :
      (left, right) ∈ [("(", ")"), ("[", "]"), ("\x7b", "\x7d")] → opening.Is left →
        closing.Is right → Phrase dots inside → Phrase dots rest →
          Phrase dots (opening :: (inside ++ closing :: rest))

namespace Phrase

variable {dots : Bool} {first second : List Symbol}

theorem append (h : Phrase dots first) (h' : Phrase dots second) :
    Phrase dots (first ++ second) := by
  induction h with
  | nil => exact h'
  | plain hs _ ih => exact .plain hs ih
  | spread hdots hs _ ih => exact .spread hdots hs ih
  | named hmark hname _ ih => exact .named hmark hname ih
  | nest hpair hopening hclosing hinside _ _ ih =>
    rw [List.cons_append, List.append_assoc, List.cons_append]
    exact .nest hpair hopening hclosing hinside ih

theorem single {s : Symbol} (h : s.IsPlain) : Phrase dots [s] := .plain h .nil

theorem bracketed {opening closing : Symbol} {left right : String} {inside : List Symbol}
    (hpair : (left, right) ∈ [("(", ")"), ("[", "]"), ("\x7b", "\x7d")])
    (hopening : opening.Is left) (hclosing : closing.Is right) (h : Phrase dots inside) :
    Phrase dots (opening :: (inside ++ [closing])) :=
  .nest hpair hopening hclosing h .nil

/-- Behind every dollar sign of a phrase there is a name. -/
theorem name_of_dollar {symbols : List Symbol} (h : Phrase dots symbols) {i : Nat} {s : Symbol}
    (hs : symbols[i]? = some s) (hdollar : s.Is "$") :
    ∃ t, symbols[i + 1]? = some t ∧ t.kind = .name := by
  induction h generalizing i with
  | nil => simp at hs
  | plain hplain _ ih =>
    cases i with
    | zero =>
      cases hs
      exact absurd (hdollar.2 ▸ hplain hdollar.1) (by decide)
    | succ i => exact ih hs
  | spread _ hs' _ ih =>
    cases i with
    | zero =>
      cases hs
      exact absurd (hs'.2.symm.trans hdollar.2) (by decide)
    | succ i => exact ih hs
  | named _ hname _ ih =>
    match i with
    | 0 => exact ⟨_, rfl, hname⟩
    | 1 =>
      cases hs
      rw [hdollar.1] at hname
      cases hname
    | i + 2 => exact ih hs
  | @nest opening closing left right inside rest hpair hopening hclosing _ _ ihinside ihrest =>
    have hne : left ≠ "$" ∧ right ≠ "$" := by
      fin_cases hpair <;> decide
    cases i with
    | zero =>
      cases hs
      exact absurd (hopening.2.symm.trans hdollar.2) hne.1
    | succ i =>
      rw [List.getElem?_cons_succ] at hs ⊢
      rcases Nat.lt_trichotomy i inside.length with hlt | rfl | hgt
      · rw [List.getElem?_append_left hlt] at hs
        obtain ⟨t, ht, hkind⟩ := ihinside hs
        have hlt' := (List.getElem?_eq_some_iff.mp ht).1
        exact ⟨t, by rw [List.getElem?_append_left hlt', ht], hkind⟩
      · rw [List.getElem?_append_right le_rfl, Nat.sub_self] at hs
        cases hs
        exact absurd (hclosing.2.symm.trans hdollar.2) hne.2
      · obtain ⟨j, rfl⟩ : ∃ j, i = inside.length + 1 + j := ⟨i - (inside.length + 1), by omega⟩
        have hbehind (k : Nat) :
            (inside ++ closing :: rest)[inside.length + 1 + k]? = rest[k]? := by
          rw [List.getElem?_append_right (by omega), Nat.add_assoc, Nat.add_sub_cancel_left,
            Nat.add_comm 1, List.getElem?_cons_succ]
        rw [hbehind] at hs
        rw [Nat.add_assoc, hbehind]
        exact ihrest hs

end Phrase

namespace Document.Parser

variable {dots : Bool} {α β : Type} {r r' r'' : Reader} {taken first second : List Symbol}

/-- A step from one reader to another takes some symbols, and once none is left the text must have
been read to its end without a problem. -/
structure Reads (r : Reader) (taken : List Symbol) (r' : Reader) : Prop where
  symbols : r.rest.symbols = taken ++ r'.rest.symbols
  problem : r'.rest.problem = r.rest.problem
  sound : taken = [] ∨ r'.rest.symbols ≠ [] ∨ r'.rest.problem = none

theorem Reads.refl (r : Reader) : Reads r [] r := ⟨rfl, rfl, Or.inl rfl⟩

theorem Reads.append (h : Reads r first r') (h' : Reads r' second r'') :
    Reads r (first ++ second) r'' := by
  refine ⟨?_, h'.problem.trans h.problem, ?_⟩
  · rw [h.symbols, h'.symbols, List.append_assoc]
  · rcases h'.sound with rfl | hsound
    · have hsame := h'.symbols
      rw [List.nil_append] at hsame
      rw [List.append_nil, ← hsame, h'.problem]
      exact h.sound
    · exact Or.inr hsound

theorem bind_eq_ok {p : Parser α} {f : α → Parser β} {b : β} :
    (p >>= f) r = .ok (b, r'') ↔ ∃ a r', p r = .ok (a, r') ∧ f a r' = .ok (b, r'') := by
  change (p r >>= fun x => f x.1 x.2) = _ ↔ _
  cases p r with
  | error e => simp [bind, Except.bind]
  | ok x =>
    constructor
    · intro h
      exact ⟨x.1, x.2, rfl, h⟩
    · rintro ⟨a, r', hx, h⟩
      cases hx
      exact h

theorem advance_reads {u : Unit} {s : Symbol} (hs : r.rest.symbols.head? = some s)
    (h : advance r = .ok (u, r')) : Reads r [s] r' := by
  obtain ⟨rest, hr⟩ := List.head?_eq_some_iff.mp hs
  unfold advance at h
  obtain ⟨q, q', hget, h⟩ := bind_eq_ok.mp h
  cases hget
  simp only [hr] at h
  cases rest with
  | cons t rest =>
    cases h
    exact ⟨hr, rfl, Or.inr (Or.inl (by simp))⟩
  | nil =>
    cases hproblem : r.rest.problem with
    | some problem =>
      simp only [hproblem] at h
      cases h
    | none =>
      simp only [hproblem] at h
      cases h
      exact ⟨hr, hproblem.symm, Or.inr (Or.inr rfl)⟩

theorem current_eq_ok {s : Option Symbol} (h : current r = .ok (s, r')) :
    r.rest.symbols.head? = s ∧ r = r' := by
  cases h
  exact ⟨rfl, rfl⟩

theorem isPunctuator_iff {text : String} {s : Option Symbol} :
    isPunctuator text s = true ↔ ∃ t, s = some t ∧ t.Is text := by
  cases s <;> simp [isPunctuator, Symbol.Is]

theorem peek_eq_ok {text : String} {b : Bool} (h : peek text r = .ok (b, r')) :
    (b = true ↔ ∃ s, r.rest.symbols.head? = some s ∧ s.Is text) ∧ r = r' := by
  cases h
  exact ⟨isPunctuator_iff, rfl⟩

theorem unexpected_ne_ok {a : α} : (unexpected : Parser α) r ≠ .ok (a, r') := by
  intro h
  obtain ⟨_, _, _, h⟩ := bind_eq_ok.mp h
  obtain ⟨_, _, _, h⟩ := bind_eq_ok.mp h
  cases h

theorem expected_ne_ok {wanted : String} {a : α} : (expected wanted : Parser α) r ≠ .ok (a, r') := by
  intro h
  obtain ⟨_, _, _, h⟩ := bind_eq_ok.mp h
  obtain ⟨_, _, _, h⟩ := bind_eq_ok.mp h
  cases h

/-- A punctuator that is wanted is taken. -/
theorem expect_reads {text : String} {u : Unit} (h : expect text r = .ok (u, r')) :
    ∃ s, s.Is text ∧ Reads r [s] r' := by
  unfold expect at h
  obtain ⟨b, q, hpeek, h⟩ := bind_eq_ok.mp h
  obtain ⟨hb, rfl⟩ := peek_eq_ok hpeek
  cases b with
  | false =>
    exact absurd h expected_ne_ok
  | true =>
    obtain ⟨s, hs, his⟩ := hb.mp rfl
    exact ⟨s, his, advance_reads hs h⟩

theorem skip_reads {text : String} {b : Bool} (h : skip text r = .ok (b, r')) :
    (b = true ∧ ∃ s, s.Is text ∧ Reads r [s] r') ∨ (b = false ∧ r = r') := by
  unfold skip at h
  obtain ⟨c, q, hpeek, h⟩ := bind_eq_ok.mp h
  obtain ⟨hc, rfl⟩ := peek_eq_ok hpeek
  cases c with
  | false =>
    cases h
    exact Or.inr ⟨rfl, rfl⟩
  | true =>
    obtain ⟨s, hs, his⟩ := hc.mp rfl
    obtain ⟨u, q', hadvance, h⟩ := bind_eq_ok.mp h
    cases h
    exact Or.inl ⟨rfl, s, his, advance_reads hs hadvance⟩

theorem name_reads {n : Name} (h : name r = .ok (n, r')) :
    ∃ s, s.kind = .name ∧ n = ⟨s.value, s.start, s.stop⟩ ∧ Reads r [s] r' := by
  unfold name at h
  obtain ⟨s, q, hcurrent, h⟩ := bind_eq_ok.mp h
  obtain ⟨hs, rfl⟩ := current_eq_ok hcurrent
  cases s with
  | none =>
    exact absurd h expected_ne_ok
  | some s =>
    dsimp only at h
    split_ifs at h with hkind
    · obtain ⟨u, q', hadvance, h⟩ := bind_eq_ok.mp h
      cases h
      exact ⟨s, hkind, rfl, advance_reads hs hadvance⟩
    · exact absurd h expected_ne_ok

theorem isKeyword_iff {word : String} {s : Option Symbol} :
    isKeyword word s = true ↔ ∃ t, s = some t ∧ t.kind = .name ∧ t.value = word := by
  cases s <;> simp [isKeyword]

theorem expectKeyword_reads {word : String} {u : Unit} (h : expectKeyword word r = .ok (u, r')) :
    ∃ s, s.kind = .name ∧ s.value = word ∧ Reads r [s] r' := by
  unfold expectKeyword at h
  obtain ⟨s, q, hcurrent, h⟩ := bind_eq_ok.mp h
  obtain ⟨hs, rfl⟩ := current_eq_ok hcurrent
  by_cases hword : isKeyword word s = true
  · rw [if_pos hword] at h
    obtain ⟨t, rfl, hkind, hvalue⟩ := isKeyword_iff.mp hword
    exact ⟨t, hkind, hvalue, advance_reads hs h⟩
  · rw [if_neg hword] at h
    exact absurd h expected_ne_ok

theorem skipKeyword_reads {word : String} {b : Bool} (h : skipKeyword word r = .ok (b, r')) :
    (b = true ∧ ∃ s, s.kind = .name ∧ s.value = word ∧ Reads r [s] r') ∨
      (b = false ∧ r = r') := by
  unfold skipKeyword at h
  obtain ⟨s, q, hcurrent, h⟩ := bind_eq_ok.mp h
  obtain ⟨hs, rfl⟩ := current_eq_ok hcurrent
  by_cases hword : isKeyword word s = true
  · rw [if_pos hword] at h
    obtain ⟨t, rfl, hkind, hvalue⟩ := isKeyword_iff.mp hword
    obtain ⟨u, q', hadvance, h⟩ := bind_eq_ok.mp h
    cases h
    exact Or.inl ⟨rfl, t, hkind, hvalue, advance_reads hs hadvance⟩
  · rw [if_neg hword] at h
    cases h
    exact Or.inr ⟨rfl, rfl⟩

/-- Whatever the parser takes is a phrase, with dots or without. -/
def Consumes (dots : Bool) (p : Parser α) : Prop :=
  ∀ ⦃r a r'⦄, p r = .ok (a, r') → ∃ taken, Phrase dots taken ∧ Reads r taken r'

section

variable {p q : Parser α} {f : α → Parser β}

theorem consumes_pure (a : α) : Consumes dots (pure a : Parser α) := by
  intro r b r' h
  cases h
  exact ⟨[], .nil, Reads.refl r⟩

theorem Consumes.bind (hp : Consumes dots p) (hf : ∀ a, Consumes dots (f a)) :
    Consumes dots (p >>= f) := by
  intro r b r'' h
  obtain ⟨a, r', ha, hb⟩ := bind_eq_ok.mp h
  obtain ⟨first, hfirst, hreads⟩ := hp ha
  obtain ⟨second, hsecond, hreads'⟩ := hf a hb
  exact ⟨first ++ second, hfirst.append hsecond, hreads.append hreads'⟩

theorem Consumes.map (hp : Consumes dots p) (g : α → β) : Consumes dots (g <$> p) :=
  hp.bind fun _ => consumes_pure _

theorem Consumes.ite {c : Prop} [Decidable c] (hp : Consumes dots p) (hq : Consumes dots q) :
    Consumes dots (if c then p else q) := by
  split_ifs <;> assumption

theorem Consumes.ret (hp : Consumes dots p) {g : α → β} :
    Consumes dots (p >>= fun a => pure (g a)) :=
  hp.bind fun _ => consumes_pure _

/-- Two ways that go on alike. -/
theorem Consumes.join {c : Prop} [Decidable c] (hp : Consumes dots p) (hq : Consumes dots q)
    (hf : ∀ a, Consumes dots (f a)) : Consumes dots (if c then p >>= f else q >>= f) :=
  (hp.bind hf).ite (hq.bind hf)

theorem consumes_throw (e : SyntaxError) : Consumes dots (throw e : Parser α) := by
  intro r b r' h
  cases h

theorem consumes_get : Consumes dots (get : Parser Reader) := by
  intro r b r' h
  cases h
  exact ⟨[], .nil, Reads.refl r⟩

end

/-- Whatever the parser takes is a phrase of at least one symbol. -/
def Moves (dots : Bool) (p : Parser α) : Prop :=
  ∀ ⦃r a r'⦄, p r = .ok (a, r') → ∃ taken, taken ≠ [] ∧ Phrase dots taken ∧ Reads r taken r'

section

variable {p q : Parser α} {f : α → Parser β}

theorem Moves.consumes (hp : Moves dots p) : Consumes dots p := by
  intro r a r' h
  obtain ⟨taken, -, hphrase, hreads⟩ := hp h
  exact ⟨taken, hphrase, hreads⟩

theorem Moves.bind (hp : Moves dots p) (hf : ∀ a, Consumes dots (f a)) : Moves dots (p >>= f) := by
  intro r b r'' h
  obtain ⟨a, r', ha, hb⟩ := bind_eq_ok.mp h
  obtain ⟨first, hne, hfirst, hreads⟩ := hp ha
  obtain ⟨second, hsecond, hreads'⟩ := hf a hb
  exact ⟨first ++ second, by simp [hne], hfirst.append hsecond, hreads.append hreads'⟩

theorem Consumes.moves (hp : Consumes dots p) (hf : ∀ a, Moves dots (f a)) :
    Moves dots (p >>= f) := by
  intro r b r'' h
  obtain ⟨a, r', ha, hb⟩ := bind_eq_ok.mp h
  obtain ⟨first, hfirst, hreads⟩ := hp ha
  obtain ⟨second, hne, hsecond, hreads'⟩ := hf a hb
  exact ⟨first ++ second, by simp [hne], hfirst.append hsecond, hreads.append hreads'⟩

theorem Moves.ret (hp : Moves dots p) {g : α → β} : Moves dots (p >>= fun a => pure (g a)) :=
  hp.bind fun _ => consumes_pure _

theorem Moves.ite {c : Prop} [Decidable c] (hp : Moves dots p) (hq : Moves dots q) :
    Moves dots (if c then p else q) := by
  split_ifs <;> assumption

theorem Moves.join {c : Prop} [Decidable c] (hp : Consumes dots p) (hq : Consumes dots q)
    (hf : ∀ a, Moves dots (f a)) : Moves dots (if c then p >>= f else q >>= f) :=
  (hp.moves hf).ite (hq.moves hf)

theorem moves_failAt (offset : Nat) (problem : SyntaxProblem) :
    Moves dots (failAt offset problem : Parser α) := by
  intro r a r' h
  cases h

theorem moves_failAt_bind {offset : Nat} {problem : SyntaxProblem} :
    Moves dots (failAt offset problem >>= f) := by
  intro r a r' h
  obtain ⟨_, _, h, -⟩ := bind_eq_ok.mp h
  cases h

end

theorem consumes_current : Consumes dots current := consumes_get.bind fun _ => consumes_pure _

theorem consumes_spanFrom (start : Nat) : Consumes dots (spanFrom start) :=
  consumes_get.bind fun _ => consumes_pure _

theorem consumes_fuel : Consumes dots fuel := consumes_get.bind fun _ => consumes_pure _

theorem consumes_peek (text : String) : Consumes dots (peek text) :=
  consumes_current.bind fun _ => consumes_pure _

theorem consumes_offset : Consumes dots offset := by
  unfold offset
  refine consumes_get.bind fun r => ?_
  split
  · exact consumes_pure _
  · exact consumes_get.bind fun _ => consumes_pure _

theorem consumes_failAt (offset : Nat) (problem : SyntaxProblem) :
    Consumes dots (failAt offset problem : Parser α) := consumes_throw _

theorem consumes_unexpected : Consumes dots (unexpected : Parser α) :=
  consumes_offset.bind fun _ => consumes_current.bind fun _ => consumes_failAt _ _

theorem consumes_expect {text : String} (htext : text ∉ Symbol.marked) :
    Consumes dots (expect text) := by
  intro r u r' h
  obtain ⟨s, hs, hreads⟩ := expect_reads h
  exact ⟨[s], .single (hs.isPlain htext), hreads⟩

theorem consumes_skip {text : String} (htext : text ∉ Symbol.marked) :
    Consumes dots (skip text) := by
  intro r b r' h
  obtain ⟨-, s, hs, hreads⟩ | ⟨-, rfl⟩ := skip_reads h
  · exact ⟨[s], .single (hs.isPlain htext), hreads⟩
  · exact ⟨[], .nil, Reads.refl _⟩

theorem consumes_skip_dots : Consumes true (skip "...") := by
  intro r b r' h
  obtain ⟨-, s, hs, hreads⟩ | ⟨-, rfl⟩ := skip_reads h
  · exact ⟨[s], .spread rfl hs .nil, hreads⟩
  · exact ⟨[], .nil, Reads.refl _⟩

theorem moves_name : Moves dots name := by
  intro r n r' h
  obtain ⟨s, hkind, -, hreads⟩ := name_reads h
  exact ⟨[s], by simp, .single (Symbol.isPlain_of_kind (by simp [hkind])), hreads⟩

theorem consumes_name : Consumes dots name := moves_name.consumes

theorem moves_expectKeyword (word : String) : Moves dots (expectKeyword word) := by
  intro r u r' h
  obtain ⟨s, hkind, -, hreads⟩ := expectKeyword_reads h
  exact ⟨[s], by simp, .single (Symbol.isPlain_of_kind (by simp [hkind])), hreads⟩

theorem consumes_skipKeyword (word : String) : Consumes dots (skipKeyword word) := by
  intro r b r' h
  obtain ⟨-, s, hkind, -, hreads⟩ | ⟨-, rfl⟩ := skipKeyword_reads h
  · exact ⟨[s], .single (Symbol.isPlain_of_kind (by simp [hkind])), hreads⟩
  · exact ⟨[], .nil, Reads.refl _⟩

/-- A mark is taken together with the name behind it. -/
theorem consumes_marked {mark : String} (hmark : mark = "$" ∨ mark = "@") {f : Name → Parser α}
    (hf : ∀ n, Consumes dots (f n)) : Consumes dots (expect mark >>= fun _ => name >>= f) := by
  intro r a r' h
  obtain ⟨u, r₁, hexpect, h⟩ := bind_eq_ok.mp h
  obtain ⟨n, r₂, hname, h⟩ := bind_eq_ok.mp h
  obtain ⟨s, hs, hreads⟩ := expect_reads hexpect
  obtain ⟨t, ht, -, hreads'⟩ := name_reads hname
  obtain ⟨taken, hphrase, hreads''⟩ := hf n h
  refine ⟨s :: t :: taken, .named ?_ ht hphrase, (hreads.append hreads').append hreads''⟩
  rcases hmark with rfl | rfl
  · exact Or.inl hs
  · exact Or.inr hs

/-- Items that are read one behind the other, with the punctuator that closes them. -/
inductive Items (item : Parser α) (close : String) : Reader → List α → Reader → Prop
  | nil {r r' : Reader} {s : Symbol} : s.Is close → Reads r [s] r' → Items item close r [] r'
  | cons {r r₁ r' : Reader} {first : α} {rest : List α} : item r = .ok (first, r₁) →
    Items item close r₁ rest r' → Items item close r (first :: rest) r'

/-- Items between two punctuators. -/
def Enclosed (left : String) (item : Parser α) (right : String) (r : Reader) (items : List α)
    (r' : Reader) : Prop :=
  ∃ opening r₁, opening.Is left ∧ Reads r [opening] r₁ ∧ Items item right r₁ items r'

section

variable {item : Parser α} {left right : String} {items : List α}

theorem items_of_itemsUntil {n : Nat} (h : itemsUntil item right n r = .ok (items, r')) :
    Items item right r items r' := by
  induction n generalizing r items with
  | zero =>
    exact absurd h unexpected_ne_ok
  | succ n ih =>
    rw [itemsUntil] at h
    obtain ⟨b, r₁, hskip, h⟩ := bind_eq_ok.mp h
    obtain ⟨rfl, s, hs, hreads⟩ | ⟨rfl, rfl⟩ := skip_reads hskip
    · cases h
      exact .nil hs hreads
    · rw [if_neg Bool.false_ne_true] at h
      obtain ⟨first, r₂, hfirst, h⟩ := bind_eq_ok.mp h
      obtain ⟨rest, r₃, hrest, h⟩ := bind_eq_ok.mp h
      cases h
      exact .cons hfirst (ih hrest)

theorem enclosed_of_many0 (h : many0 left item right r = .ok (items, r')) :
    Enclosed left item right r items r' := by
  obtain ⟨u, r₁, hexpect, h⟩ := bind_eq_ok.mp h
  obtain ⟨n, r₂, hfuel, h⟩ := bind_eq_ok.mp h
  cases hfuel
  obtain ⟨s, hs, hreads⟩ := expect_reads hexpect
  exact ⟨s, r₁, hs, hreads, items_of_itemsUntil h⟩

theorem enclosed_of_many1 (h : many1 left item right r = .ok (items, r')) :
    Enclosed left item right r items r' := by
  obtain ⟨u, r₁, hexpect, h⟩ := bind_eq_ok.mp h
  obtain ⟨first, r₂, hfirst, h⟩ := bind_eq_ok.mp h
  obtain ⟨n, r₃, hfuel, h⟩ := bind_eq_ok.mp h
  obtain ⟨rest, r₄, hrest, h⟩ := bind_eq_ok.mp h
  cases h
  cases hfuel
  obtain ⟨s, hs, hreads⟩ := expect_reads hexpect
  exact ⟨s, r₁, hs, hreads, .cons hfirst (items_of_itemsUntil hrest)⟩

theorem optionalMany_cases (h : optionalMany left item right r = .ok (items, r')) :
    (items = [] ∧ r = r') ∨ Enclosed left item right r items r' := by
  obtain ⟨b, r₁, hpeek, h⟩ := bind_eq_ok.mp h
  obtain ⟨-, rfl⟩ := peek_eq_ok hpeek
  cases b with
  | false =>
    cases h
    exact Or.inl ⟨rfl, rfl⟩
  | true =>
    rw [if_pos rfl] at h
    exact Or.inr (enclosed_of_many1 h)

theorem Items.reads (hitem : Consumes dots item) (h : Items item right r items r') :
    ∃ inside closing, Phrase dots inside ∧ closing.Is right ∧ Reads r (inside ++ [closing]) r' := by
  induction h with
  | nil hs hreads => exact ⟨[], _, .nil, hs, hreads⟩
  | cons hfirst _ ih =>
    obtain ⟨taken, hphrase, hreads⟩ := hitem hfirst
    obtain ⟨inside, closing, hinside, hclosing, hreads'⟩ := ih
    refine ⟨taken ++ inside, closing, hphrase.append hinside, hclosing, ?_⟩
    rw [List.append_assoc]
    exact hreads.append hreads'

theorem Enclosed.reads (hitem : Consumes dots item) (h : Enclosed left item right r items r') :
    ∃ opening inside closing, opening.Is left ∧ Phrase dots inside ∧ closing.Is right ∧
      Reads r (opening :: (inside ++ [closing])) r' := by
  obtain ⟨opening, r₁, hopening, hreads, hitems⟩ := h
  obtain ⟨inside, closing, hinside, hclosing, hreads'⟩ := hitems.reads hitem
  exact ⟨opening, inside, closing, hopening, hinside, hclosing, hreads.append hreads'⟩

variable (hpair : (left, right) ∈ [("(", ")"), ("[", "]"), ("\x7b", "\x7d")])
include hpair

theorem Enclosed.phrase (hitem : Consumes dots item) (h : Enclosed left item right r items r') :
    ∃ taken, taken ≠ [] ∧ Phrase dots taken ∧ Reads r taken r' := by
  obtain ⟨s, inside, closing, hs, hinside, hclosing, hreads⟩ := h.reads hitem
  exact ⟨_, List.cons_ne_nil _ _, .bracketed hpair hs hclosing hinside, hreads⟩

theorem moves_many1 (hitem : Consumes dots item) : Moves dots (many1 left item right) :=
  fun _ _ _ h => (enclosed_of_many1 h).phrase hpair hitem

theorem consumes_many1 (hitem : Consumes dots item) : Consumes dots (many1 left item right) :=
  (moves_many1 hpair hitem).consumes

theorem consumes_optionalMany (hitem : Consumes dots item) :
    Consumes dots (optionalMany left item right) :=
  (consumes_peek left).bind fun _ => (consumes_many1 hpair hitem).ite (consumes_pure _)

end

theorem consumes_separated {item : Parser α} (hitem : Consumes dots item) {separator : String}
    (hplain : separator ∉ Symbol.marked) : Consumes dots (separated separator item) := by
  have hrest (n : Nat) : Consumes dots (separatedRest separator item n) := by
    induction n with
    | zero => exact consumes_pure _
    | succ n ih =>
      exact (consumes_skip hplain).bind fun _ =>
        (hitem.bind fun _ => ih.bind fun _ => consumes_pure _).ite (consumes_pure _)
  exact (consumes_skip hplain).bind fun _ => hitem.bind fun _ => consumes_fuel.bind fun n =>
    (hrest n).bind fun _ => consumes_pure _

end Document.Parser
end EmbeddedGraphQL
