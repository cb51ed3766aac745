import EmbeddedGraphQL.Proofs.ArgumentRuns
import EmbeddedGraphQL.Proofs.BraceOwners
import EmbeddedGraphQL.Proofs.StrictSymbols
import Mathlib

/-!
The grammar along the selections of a document. It comes to the opening brace of each selection set
with exactly the frames of the sets around it, whatever the values between a field or an inline
fragment and its brace, except that an object among the directives of an inline fragment makes it
forget the fragment.
-/
namespace EmbeddedGraphQL
namespace Document.Parser
open GrammarState

variable {α : Type} {r r' : Reader}

theorem ok_of_map {β : Type} {p : Parser α} {f : α → β} {b : β} (h : (f <$> p) r = .ok (b, r')) :
    ∃ a, p r = .ok (a, r') ∧ b = f a := by
  obtain ⟨a, r₁, ha, h⟩ := bind_eq_ok.mp (show (p >>= fun a => pure (f a)) r = _ from h)
  cases h
  exact ⟨a, ha, rfl⟩

theorem offset_eq_start {k : Nat} {x : Symbol} {rest : List Symbol}
    (hr : r.rest.symbols = x :: rest) (h : offset r = .ok (k, r')) : k = x.start := by
  unfold offset at h
  obtain ⟨q, r₁, hget, h⟩ := bind_eq_ok.mp h
  cases hget
  simp only [hr, List.head?_cons] at h
  cases h
  rfl

theorem fragmentName_reads {n : Name} (h : fragmentName r = .ok (n, r')) :
    ∃ x, x.kind = .name ∧ x.value ≠ "on" ∧ Reads r [x] r' := by
  obtain ⟨found, r₁, hcurrent, h⟩ := bind_eq_ok.mp h
  obtain ⟨hfound, rfl⟩ := current_eq_ok hcurrent
  by_cases hon : found.any (·.value == "on") = true
  · rw [if_pos hon] at h
    exact absurd h unexpected_ne_ok
  · rw [if_neg hon] at h
    obtain ⟨x, hx, -, hreads⟩ := name_reads h
    rw [← hfound, hreads.symbols] at hon
    exact ⟨x, hx, by simpa using hon, hreads⟩

/-! Along the symbols of a text -/

section

variable {symbols taken : List Symbol} {P Q : GrammarState → Prop}

/-- Up to a reader the grammar gets from its initial state to a state of some kind, however many of
the symbols left are read after that. -/
def Holds (symbols : List Symbol) (P : GrammarState → Prop) (r : Reader) : Prop :=
  ∃ done, symbols = done ++ r.rest.symbols ∧ ∀ ⦃more s'⦄, more <+: r.rest.symbols →
    Runs .initial (done ++ more) s' → ∃ s, P s ∧ Runs s more s'

/-- Right behind the opening brace at an offset the grammar has the given frames. -/
def Shows (symbols : List Symbol) (start : Nat) (frames : List Frame) : Prop :=
  ∃ done brace rest, symbols = done ++ brace :: rest ∧ brace.Is "\x7b" ∧ brace.start = start ∧
    ∀ ⦃s⦄, Runs .initial (done ++ [brace]) s → s.stack = frames

theorem Holds.step (h : Holds symbols P r) (hreads : Reads r taken r')
    (hstep : ∀ ⦃s s' more⦄, P s → more <+: r'.rest.symbols → Runs s (taken ++ more) s' →
      ∃ s₁, Q s₁ ∧ Runs s₁ more s') : Holds symbols Q r' := by
  obtain ⟨done, hdone, hruns⟩ := h
  refine ⟨done ++ taken, ?_, fun more s' hmore hrun => ?_⟩
  · rw [hdone, hreads.symbols, List.append_assoc]
  · rw [List.append_assoc] at hrun
    have hprefix : taken ++ more <+: r.rest.symbols := by
      rw [hreads.symbols]
      exact List.prefix_append_right_inj taken |>.mpr hmore
    obtain ⟨s, hs, hrun⟩ := hruns hprefix hrun
    exact hstep hs hmore hrun

theorem Holds.shows (h : Holds symbols P r) {brace : Symbol} {rest : List Symbol}
    (hr : r.rest.symbols = brace :: rest) (hbrace : brace.Is "\x7b") {frames : List Frame}
    (hframes : ∀ s, P s → (s.readPunctuator '\x7b').stack = frames) :
    Shows symbols brace.start frames := by
  obtain ⟨done, hdone, hruns⟩ := h
  refine ⟨done, brace, rest, by rw [hdone, hr], hbrace, rfl, fun s' hrun => ?_⟩
  have hprefix : [brace] <+: r.rest.symbols := by
    rw [hr]
    exact List.prefix_append [brace] rest
  obtain ⟨s, hs, hrun⟩ := hruns hprefix hrun
  have hrest := hrun.of_punctuator (c := '\x7b') hbrace (by decide)
  rw [← hframes s hs]
  cases hrest
  rfl

end

/-! Selections -/

section

variable {symbols : List Symbol} {F : List Frame → Prop} {W : Owner → Prop} {owners : List Owner}
  {clear : Bool} {n : Nat} {s : GrammarState}

/-- The grammar shows the right frames at every clear opening of some list. -/
def AllShown (symbols : List Symbol) (openings : List Opening) : Prop :=
  ∀ o ∈ openings, o.clear = true → Shows symbols o.start (framesOf o.owners)

/-- The grammar follows a selection that is read, and shows the right frames in it. -/
def Follows (symbols : List Symbol) (n : Nat) : Prop :=
  ∀ ⦃F owners clear r selection' r'⦄, InSet F →
    (clear = true → ∀ stack, F stack → stack = framesOf owners) → Holds symbols (Between F) r →
      selection n r = .ok (selection', r') →
        Holds symbols (Between F) r' ∧ AllShown symbols (selection'.openings owners clear)

theorem items_shown (hfollows : Follows symbols n)
    (hclear : clear = true → ∀ stack, Above F W stack → stack = framesOf owners)
    (hr : Holds symbols (Between (Above F W)) r) {selections : List Selection}
    (h : Items (selection n) "\x7d" r selections r') :
    Holds symbols (Between F) r' ∧ AllShown symbols (openingsAmong owners clear selections) := by
  induction h with
  | nil hx hreads =>
    refine ⟨hr.step hreads fun s s' more hs _ hrun => ?_, List.forall_mem_nil _⟩
    exact ⟨_, hs.closeBrace, hrun.of_punctuator (c := '\x7d') hx (by decide)⟩
  | cons hfirst _ ih =>
    obtain ⟨hr₁, hshown⟩ := hfollows (above_inSet F W) hclear hr hfirst
    obtain ⟨hr', hshown'⟩ := ih hr₁
    exact ⟨hr', List.forall_mem_append.mpr ⟨hshown, hshown'⟩⟩

/-- A selection set in braces. -/
theorem braces_shown (hfollows : Follows symbols n)
    (hclear : clear = true → ∀ stack, Above F W stack → stack = framesOf owners)
    (hr : Holds symbols (Ready F W) r) {selections : List Selection}
    (h : many1 "\x7b" (selection n) "\x7d" r = .ok (selections, r')) :
    Holds symbols (Between F) r' ∧ ∃ brace rest, r.rest.symbols = brace :: rest ∧
      AllShown symbols (⟨brace.start, owners, clear⟩ :: openingsAmong owners clear selections) := by
  obtain ⟨x, r₁, hx, hreads, hitems⟩ := enclosed_of_many1 h
  have hr₁ : Holds symbols (Between (Above F W)) r₁ :=
    hr.step hreads fun s s' more hs _ hrun =>
      ⟨_, hs.openBrace, hrun.of_punctuator (c := '\x7b') hx (by decide)⟩
  obtain ⟨hr', hshown⟩ := items_shown hfollows hclear hr₁ hitems
  refine ⟨hr', x, r₁.rest.symbols, hreads.symbols,
    List.forall_mem_cons.mpr ⟨fun htrue => ?_, hshown⟩⟩
  exact hr.shows hreads.symbols hx fun s hs => hclear htrue _ hs.openBrace.stack

theorem name_of_runs {x : Symbol} {taken more : List Symbol} {s' : GrammarState}
    (hx : x.kind = .name) (hrun : Runs s (x :: taken ++ more) s')
    (hhead : ∀ t ∈ taken.head?, ¬ t.Is ":") :
    ∃ ahead, (ahead = some ':' → ∃ t ∈ more.head?, t.Is ":") ∧
      Runs (s.readName x.value ahead).1 (taken ++ more) s' := by
  obtain ⟨ahead, hahead, hrun⟩ := hrun.of_name hx
  refine ⟨ahead, fun hcolon => ?_, hrun⟩
  obtain ⟨t, ht, his⟩ := hahead hcolon
  cases taken with
  | nil => exact ⟨t, ht, his⟩
  | cons y taken => exact absurd his (hhead t ht)

/-- In front of a brace a name is not taken for an alias. -/
theorem not_colon_ahead {first more : List Symbol} {ahead : Option Char}
    (hbrace : ∃ x ∈ first.head?, x.Is "\x7b") (hmore : more <+: first)
    (hahead : ahead = some ':' → ∃ t ∈ more.head?, t.Is ":") : ahead ≠ some ':' := by
  intro hcolon
  obtain ⟨t, ht, his⟩ := hahead hcolon
  obtain ⟨x, hx, hbrace⟩ := hbrace
  obtain rfl := Option.mem_unique hx (mem_head?_of_cut hmore ht)
  exact ne_of_is hbrace (by decide) his

/-- The end of a field: its arguments, its directives and its selection set, if there is one. -/
def fieldRest (n start : Nat) (aliasName : Option Name) (name : Name) : Parser Selection := do
  let arguments ← arguments false
  let directives ← directives false
  let inner ← offset
  if ← peek "\x7b" then
    let selections ← many1 "\x7b" (selection n) "\x7d"
    return .field aliasName name arguments directives (some (← spanFrom inner)) selections
      (← spanFrom start)
  else
    return .field aliasName name arguments directives none [] (← spanFrom start)

/-- A field from its name on. The name is what its selection set belongs to. -/
theorem field_shown (hfollows : Follows symbols n) (hF : InSet F)
    (hclear : clear = true → ∀ stack, F stack → stack = framesOf owners)
    (hr : Holds symbols (Between F) r) {start : Nat} {aliasName : Option Name} {name' : Name}
    {r₁ : Reader} {selection' : Selection} (hname : name r = .ok (name', r₁))
    (h : fieldRest n start aliasName name' r₁ = .ok (selection', r')) :
    Holds symbols (Between F) r' ∧ AllShown symbols (selection'.openings owners clear) := by
  obtain ⟨x, hx, rfl, hreads⟩ := name_reads hname
  obtain ⟨as, r₂, harguments, h⟩ := bind_eq_ok.mp h
  obtain ⟨ds, r₃, hdirectives, h⟩ := bind_eq_ok.mp h
  obtain ⟨inner, r₄, hinner, h⟩ := bind_eq_ok.mp h
  obtain rfl := offset_eq_ok hinner
  obtain ⟨b, r₄, hpeek, h⟩ := bind_eq_ok.mp h
  obtain ⟨hb, rfl⟩ := peek_eq_ok hpeek
  obtain ⟨first, hfirst, hpasses⟩ := arguments_passes harguments
  obtain ⟨second, hsecond, hpasses', -⟩ := directives_passes hdirectives
  have hpasses := hpasses.append hpasses'
  have hreads := hreads.append (hfirst.append hsecond)
  cases b with
  | false =>
    obtain ⟨span, r₄, hspan, h⟩ := bind_eq_ok.mp h
    cases hspan
    cases h
    refine ⟨hr.step hreads fun s s' more hs _ hrun => ?_, List.forall_mem_nil _⟩
    obtain ⟨ahead, -, hrun⟩ := hrun.of_name hx
    obtain ⟨s₁, h₁, hrun⟩ := hpasses.steady hrun
    exact ⟨s₁, (hs.readName hF _ _).1.steady hF h₁, hrun⟩
  | true =>
    rw [if_pos rfl] at h
    obtain ⟨selections, r₄, hselections, h⟩ := bind_eq_ok.mp h
    obtain ⟨braces, r₅, hbraces, h⟩ := bind_eq_ok.mp h
    obtain ⟨span, r₆, hspan, h⟩ := bind_eq_ok.mp h
    cases hbraces
    cases hspan
    cases h
    have hready : Holds symbols (Ready F (· = .field (some x.value))) r₃ :=
      hr.step hreads fun s s' more hs hmore hrun => by
        obtain ⟨ahead, hahead, hrun⟩ := name_of_runs hx hrun hpasses.head
        have hne := not_colon_ahead (hb.mp rfl) hmore hahead
        obtain ⟨s₁, h₁, hrun⟩ := hpasses.steady hrun
        exact ⟨s₁, hs.readField hF x.value hne h₁, hrun⟩
    have hclear' (htrue : clear = true) : ∀ stack, Above F (· = .field (some x.value)) stack →
        stack = framesOf (owners ++ [.field (some x.value)]) := by
      rintro stack ⟨_, outer, rfl, houter, rfl⟩
      rw [hclear htrue _ houter, framesOf_append]
    obtain ⟨hr', brace', rest, hsymbols, hshown⟩ := braces_shown hfollows hclear' hready hselections
    rw [offset_eq_start hsymbols hinner]
    exact ⟨hr', hshown⟩

/-- A fragment that is spread. -/
theorem spread_shown (hF : InSet F) (hr : Holds symbols (Between F) r) {dots : Symbol}
    (hdots : dots.Is "...") {r₁ r₂ : Reader} (hreads : Reads r [dots] r₁) {name' : Name}
    (hname : fragmentName r₁ = .ok (name', r₂)) {ds : List Directive}
    (hdirectives : directives false r₂ = .ok (ds, r')) : Holds symbols (Between F) r' := by
  obtain ⟨x, hx, hvalue, hreads'⟩ := fragmentName_reads hname
  obtain ⟨taken, hreads'', hpasses, -⟩ := directives_passes hdirectives
  refine hr.step (hreads.append (hreads'.append hreads'')) fun s s' more hs _ hrun => ?_
  obtain ⟨ahead, -, hrun⟩ := (hrun.of_spread hdots).of_name hx
  obtain ⟨s₁, h₁, hrun⟩ := hpasses.steady hrun
  exact ⟨s₁, (readSpread_readName hF hs.stack hvalue ahead).steady hF h₁, hrun⟩

/-- The end of an inline fragment: its directives and its selection set. -/
def inlineRest (n start : Nat) (type : Option Name) : Parser Selection := do
  let directives ← directives false
  let inner ← offset
  let selections ← many1 "\x7b" (selection n) "\x7d"
  return .inline type directives (← spanFrom inner) selections (← spanFrom start)

/-- An inline fragment behind its dots and its type. -/
theorem inline_shown (hfollows : Follows symbols n)
    (hclear : clear = true → ∀ stack, F stack → stack = framesOf owners) {type : Option Name}
    (hr : Holds symbols (Ready F (· = inlineOwner type)) r) {start : Nat} {selection' : Selection}
    (h : inlineRest n start type r = .ok (selection', r')) :
    Holds symbols (Between F) r' ∧ AllShown symbols (selection'.openings owners clear) := by
  obtain ⟨ds, r₁, hdirectives, h⟩ := bind_eq_ok.mp h
  obtain ⟨inner, r₂, hinner, h⟩ := bind_eq_ok.mp h
  obtain rfl := offset_eq_ok hinner
  obtain ⟨selections, r₂, hselections, h⟩ := bind_eq_ok.mp h
  obtain ⟨braces, r₃, hbraces, h⟩ := bind_eq_ok.mp h
  obtain ⟨span, r₄, hspan, h⟩ := bind_eq_ok.mp h
  cases hbraces
  cases hspan
  cases h
  obtain ⟨taken, hreads, hpasses, hbare⟩ := directives_passes hdirectives
  have hready : Holds symbols
      (Ready F (ds.any Directive.hasObject = false → · = inlineOwner type)) r₁ := by
    refine hr.step hreads fun s s' more hs _ hrun => ?_
    obtain ⟨s₁, h₁, hrun⟩ := hpasses.steady hrun
    exact ⟨s₁, hs.steady h₁ fun hfree => Or.inr (Or.inr (hbare hfree)), hrun⟩
  have hclear' (htrue : (clear && !ds.any Directive.hasObject) = true) : ∀ stack,
      Above F (ds.any Directive.hasObject = false → · = inlineOwner type) stack →
        stack = framesOf (owners ++ [inlineOwner type]) := by
    rw [Bool.and_eq_true, Bool.not_eq_true'] at htrue
    rintro stack ⟨owner, outer, howner, houter, rfl⟩
    rw [howner htrue.2, hclear htrue.1 _ houter, framesOf_append]
  obtain ⟨hr', brace, rest, hsymbols, hshown⟩ := braces_shown hfollows hclear' hready hselections
  rw [offset_eq_start hsymbols hinner]
  exact ⟨hr', hshown⟩

/-- The grammar follows every selection. The induction is on the rounds left, which bound how deep
selections are nested. -/
theorem selection_follows (symbols : List Symbol) (n : Nat) : Follows symbols n := by
  induction n with
  | zero =>
    intro F owners clear r selection' r' _ _ _ h
    exact absurd h unexpected_ne_ok
  | succ n ih =>
    intro F owners clear r selection' r' hF hclear hr h
    rw [selection] at h
    obtain ⟨start, r₁, hstart, h⟩ := bind_eq_ok.mp h
    obtain rfl := offset_eq_ok hstart
    obtain ⟨b, r₁, hskip, h⟩ := bind_eq_ok.mp h
    obtain ⟨rfl, dots, hdots, hreads⟩ | ⟨rfl, rfl⟩ := skip_reads hskip
    · rw [if_pos rfl] at h
      obtain ⟨typed, r₂, hkeyword, h⟩ := bind_eq_ok.mp h
      obtain ⟨found, r₃, hcurrent, h⟩ := bind_eq_ok.mp h
      obtain ⟨-, rfl⟩ := current_eq_ok hcurrent
      obtain ⟨rfl, x, hx, hon, hreads'⟩ | ⟨rfl, rfl⟩ := skipKeyword_reads hkeyword
      · obtain ⟨type, r₃, htype, h⟩ := bind_eq_ok.mp h
        obtain ⟨name', hname, rfl⟩ := ok_of_map htype
        obtain ⟨y, hy, rfl, hreads''⟩ := name_reads hname
        refine inline_shown ih hclear ?_ h
        refine hr.step (hreads.append (hreads'.append hreads'')) fun s s' more hs _ hrun => ?_
        obtain ⟨ahead, -, hrun⟩ := (hrun.of_spread hdots).of_name hx
        obtain ⟨ahead', -, hrun⟩ := hrun.of_name hy
        rw [hon] at hrun
        exact ⟨_, readType_ready hF hs.stack y.value ahead ahead', hrun⟩
      · by_cases hname : isName found = true
        · rw [if_pos (by simpa using hname)] at h
          obtain ⟨name', r₂, hname', h⟩ := bind_eq_ok.mp h
          obtain ⟨ds, r₃, hdirectives, h⟩ := bind_eq_ok.mp h
          obtain ⟨span, r₄, hspan, h⟩ := bind_eq_ok.mp h
          cases hspan
          cases h
          exact ⟨spread_shown hF hr hdots hreads hname' hdirectives, List.forall_mem_nil _⟩
        · rw [if_neg (by simpa using hname)] at h
          obtain ⟨type, r₃, htype, h⟩ := bind_eq_ok.mp h
          cases htype
          refine inline_shown ih hclear ?_ h
          exact hr.step hreads fun s s' more hs _ hrun =>
            ⟨_, readSpread_ready hF hs.stack, hrun.of_spread hdots⟩
    · rw [if_neg Bool.false_ne_true] at h
      obtain ⟨first, r₁, hfirst, h⟩ := bind_eq_ok.mp h
      obtain ⟨b, r₂, hskip, h⟩ := bind_eq_ok.mp h
      obtain ⟨rfl, colon, hcolon, hreads⟩ | ⟨rfl, rfl⟩ := skip_reads hskip
      · obtain ⟨name', r₃, hname, h⟩ := bind_eq_ok.mp h
        obtain ⟨names, r₄, hnames, h⟩ := bind_eq_ok.mp h
        cases hnames
        refine field_shown ih hF hclear ?_ hname h
        obtain ⟨x, hx, -, hreads'⟩ := name_reads hfirst
        refine hr.step (hreads'.append hreads) fun s s' more hs _ hrun => ?_
        obtain ⟨ahead, -, hrun⟩ := hrun.of_name hx
        exact ⟨_, (hs.readName hF _ ahead).1.readColon hF,
          hrun.of_punctuator (c := ':') hcolon (by decide)⟩
      · obtain ⟨names, r₂, hnames, h⟩ := bind_eq_ok.mp h
        cases hnames
        exact field_shown ih hF hclear hr hfirst h

end

end Document.Parser
end EmbeddedGraphQL
