import EmbeddedGraphQL.Proofs.Chaining
import Mathlib

/-!
Which token of a chain a place of the buffer comes from. The first token that stops behind the place
owns it, unless it starts behind the place too, which then lies in a gap. The chain holds whatever
the owner, trimmed by what has been reached at the place, or the gap is finished to. Finishing
changes the style of nothing but dots.
-/
namespace EmbeddedGraphQL.Restoration
open Text

/-- The first token that stops behind a place, if it starts at or before it. -/
def owner? (tokens : List Token) (place : Int) : Option Token :=
  (tokens.find? (place < ·.stop)).filter (·.start ≤ place)

section Owner

variable {tokens : List Token} {place : Int}

theorem owner?_cons (token : Token) (rest : List Token) (place : Int) :
    owner? (token :: rest) place =
      if token.stop ≤ place then owner? rest place
      else if token.start ≤ place then some token else none := by
  unfold owner?
  split_ifs with hbehind hstart
  · rw [List.find?_cons_of_neg (by simpa using hbehind)]
  · rw [List.find?_cons_of_pos (by simpa using hbehind), Option.filter_some_pos (by simpa)]
  · rw [List.find?_cons_of_pos (by simpa using hbehind),
      Option.filter_some_neg (by simpa using hstart)]

theorem owner?_append_of_stop_le {earlier : List Token} (h : ∀ token ∈ earlier, token.stop ≤ place)
    (tokens : List Token) : owner? (earlier ++ tokens) place = owner? tokens place := by
  induction earlier with
  | nil => rfl
  | cons token rest ih =>
    obtain ⟨hstop, hrest⟩ := List.forall_mem_cons.mp h
    rw [List.cons_append, owner?_cons, if_pos hstop, ih hrest]

theorem owner?_append_of_some {owner : Token} (h : owner? tokens place = some owner)
    (later : List Token) : owner? (tokens ++ later) place = some owner := by
  induction tokens with
  | nil => cases h
  | cons token rest ih =>
    rw [owner?_cons] at h
    rw [List.cons_append, owner?_cons]
    split_ifs at h ⊢
    · exact ih h
    · exact h

theorem owner?_eq_none (h : ∀ token ∈ tokens, token.stop ≤ place ∨ place < token.start) :
    owner? tokens place = none := by
  induction tokens with
  | nil => rfl
  | cons token rest ih =>
    obtain ⟨htoken, hrest⟩ := List.forall_mem_cons.mp h
    rw [owner?_cons]
    split_ifs with hbehind hstart
    · exact ih hrest
    · exact absurd hstart (htoken.resolve_left hbehind).not_ge
    · rfl

theorem mem_of_owner? {owner : Token} (h : owner? tokens place = some owner) :
    owner ∈ tokens ∧ owner.Covers place := by
  obtain ⟨hfind, hstart⟩ := Option.filter_eq_some_iff.mp h
  exact ⟨List.mem_of_find?_eq_some hfind, by simpa using hstart,
    by simpa using List.find?_some hfind⟩

/-- Where tokens tile a text, each place has an owner. -/
theorem exists_owner {text : List Char} {start stop : Int} (h : Tiles text start stop tokens)
    (hlow : start ≤ place) (hhigh : place < stop) : ∃ owner, owner? tokens place = some owner := by
  induction tokens generalizing start with
  | nil =>
    obtain rfl : start = stop := h
    exact absurd hhigh hlow.not_gt
  | cons token rest ih =>
    obtain ⟨rfl, -, -, hrest⟩ := h
    rw [owner?_cons, if_pos hlow]
    split_ifs with hbehind
    · exact ih hrest hbehind
    · exact ⟨token, rfl⟩

/-- The pieces of a token and their owners. What the token shows makes no difference. -/
theorem withTemplates_owner {buffer : List Char} {templates : List Template}
    (hpieces : Pieces buffer templates) {token : Token} (h : Placed buffer token) :
    (∀ piece ∈ withTemplates buffer templates token, PieceOf templates token piece) ∧
      ∀ place, token.start ≤ place → place < token.stop →
        ∃ owner, owner? (withTemplates buffer templates token) place = some owner := by
  by_cases hstart : ∃ t ∈ templates, StartsIn t token
  · have hshows : Shows buffer (piece buffer token token.start token.stop) :=
      shows_piece token h.start_nonneg h.start_lt h.stop_le
    have hrestores := withTemplates_restores hpieces hshows
    obtain ⟨last, hlast, htiles⟩ := hrestores.tiles
    have hcongr : withTemplates buffer templates token = _ :=
      withTemplates_congr hpieces hstart (slice buffer token.start token.stop)
    rw [hcongr]
    exact ⟨fun part hpart => (hrestores.pieceOf part hpart).of_rest (List.Subset.refl _)
        (fun u hu => Or.inl hu) rfl le_rfl rfl,
      fun place hlow hhigh => exists_owner htiles hlow (hhigh.trans_le hlast)⟩
  · simp only [not_exists, not_and] at hstart
    rw [withTemplates_of_none h.start_lt hstart]
    refine ⟨List.forall_mem_singleton.mpr (.part rfl le_rfl le_rfl hstart),
      fun place hlow hhigh => ⟨token, ?_⟩⟩
    rw [owner?_cons, if_neg hhigh.not_ge, if_pos hlow]

end Owner

/-- What is finished at a place: its owner, trimmed by what has been reached there, or a gap. -/
def IsSource (r : Extraction) (place : Int) (source : Token) : Option Token → Prop
  | some owner => ∃ reach ≤ place, source = trimmed r reach owner
  | none => ∃ start stop last, source = gap r.buffer start stop last

/-- A sound chain holds what is finished at each place behind what has been reached. -/
theorem exists_source {r : Extraction} (hdots : Dotted r.buffer r.scan.spreadEnds)
    {tokens : List Token} {reach : Int} (h : Sound r reach tokens) (hreach : 0 ≤ reach)
    {place : Int} (hlow : reach ≤ place) (hhigh : place < r.buffer.length) (last : Option Token) :
    ∃ source, IsSource r place source (owner? tokens place) ∧ source.Covers place ∧
      Tiles r.buffer source.start source.stop (finish r source) ∧
      finish r source ⊆ chainFrom r last reach tokens := by
  -- the chain and the search walk the same list, and `reach` never passes the place
  induction tokens generalizing reach last with
  | nil =>
    refine ⟨gap r.buffer reach r.buffer.length last, ⟨_, _, _, rfl⟩, ⟨hlow, hhigh⟩,
      gap_tiles hdots hreach (hlow.trans_lt hhigh) le_rfl last, ?_⟩
    rw [chainFrom, if_pos (hlow.trans_lt hhigh)]
    exact List.Subset.refl _
  | cons token rest ih =>
    obtain ⟨hplaced, hfinish, hrest⟩ := h
    have hlt := hplaced.start_lt
    rw [owner?_cons]
    rcases le_or_gt token.stop reach with hcovered | hstop
    · rw [if_pos (hcovered.trans hlow), chainFrom, if_neg hlt.not_ge,
        if_pos ⟨hlt.trans_le hcovered, hcovered⟩]
      rw [max_eq_left hcovered] at hrest
      exact ih hrest hreach hlow last
    rw [max_eq_right hstop.le] at hrest
    obtain ⟨hfirst, hlast, htiles⟩ := trimmed_tiles hdots hreach hplaced hfinish hstop
    rw [chainFrom_cons hlt hstop]
    rcases le_or_gt token.stop place with hbehind | hin
    · rw [if_pos hbehind]
      obtain ⟨done, hget, hend⟩ := htiles.getLast_stop hlast
      rw [hget, Option.map_some, Option.getD_some, hend]
      obtain ⟨source, hsource, hcovers, hfinished, hsubset⟩ :=
        ih hrest (hreach.trans hstop.le) hbehind (some done)
      exact ⟨source, hsource, hcovers, hfinished,
        fun drawn hdrawn => List.mem_append_right _ (hsubset hdrawn)⟩
    rw [if_neg hin.not_ge]
    rcases le_or_gt token.start place with hstart | hafter
    · rw [if_pos hstart]
      have hcovers : (trimmed r reach token).start ≤ place := by
        unfold trimmed
        split_ifs
        · exact hlow
        · exact hstart
      refine ⟨trimmed r reach token, ⟨reach, hlow, rfl⟩, ⟨hcovers, ?_⟩, ?_,
        fun drawn hdrawn => List.mem_append_left _ (List.mem_append_right _ hdrawn)⟩
      · rw [trimmed_stop]
        exact hin
      · rw [trimmed_stop]
        exact htiles
    · have hwhole : trimmed r reach token = token := if_neg (hlow.trans_lt hafter).not_gt
      rw [if_neg hafter.not_ge, hwhole, if_pos (hlow.trans_lt hafter)]
      exact ⟨gap r.buffer reach token.start last, ⟨_, _, _, rfl⟩, ⟨hlow, hafter⟩,
        gap_tiles hdots hreach (hlow.trans_lt hafter) (hlt.le.trans hplaced.stop_le) last,
        fun drawn hdrawn => List.mem_append_left _ (List.mem_append_left _ hdrawn)⟩

/-- The dots of a spread, drawn in front of the place where they end. -/
structure IsDots (r : Extraction) (token : Token) : Prop where
  style : token.style = .keyword
  text : token.text = spreadDots
  stop : ∃ stop ∈ r.scan.spreadEnds, token.stop = stop

/-- A token is drawn as it is, or it is blank and ends with dots. -/
theorem mem_withDots {ends : List Nat} {token drawn : Token} (h : drawn ∈ withDots ends token) :
    drawn = token ∨ token.style = .blank ∧
      (drawn.style = .blank ∧ drawn.text <+: token.text ∨
        drawn.style = .keyword ∧ drawn.text = spreadDots ∧ ∃ stop ∈ ends, drawn.stop = stop) := by
  unfold withDots at h
  dsimp only at h
  split_ifs at h with hplain hwhole
  · exact Or.inl (List.mem_singleton.mp h)
  all_goals
    simp only [ne_eq, not_or, not_not] at hplain
    obtain ⟨hblank, hend, -⟩ := hplain
    obtain ⟨stop, hstop, heq⟩ := List.any_eq_true.mp hend
    refine Or.inr ⟨hblank, ?_⟩
  · obtain rfl := List.mem_singleton.mp h
    exact Or.inr ⟨rfl, rfl, stop, hstop, (beq_iff_eq.mp heq).symm⟩
  · rcases List.mem_cons.mp h with rfl | h
    · exact Or.inl ⟨hblank, List.take_prefix _ _⟩
    · obtain rfl := List.mem_singleton.mp h
      exact Or.inr ⟨rfl, rfl, stop, hstop, (beq_iff_eq.mp heq).symm⟩

section Finish

variable {r : Extraction} {token drawn : Token}

/-- A finished token has the style of the token, unless it is dots. -/
theorem style_of_mem_finish (h : drawn ∈ finish r token) :
    drawn.style = token.style ∨ IsDots r drawn := by
  unfold finish at h
  dsimp only at h
  rcases mem_withDots h with rfl | ⟨hblank, ⟨hstyle, -⟩ | ⟨hstyle, htext, hstop⟩⟩
  · left
    split_ifs <;> rfl
  · left
    rw [hstyle, ← hblank]
    split_ifs <;> rfl
  · exact Or.inr ⟨hstyle, htext, hstop⟩

/-- A token that is not blank is finished in its place. -/
theorem place_of_mem_finish (h : drawn ∈ finish r token) (hstyle : token.style ≠ .blank) :
    drawn.style = token.style ∧ drawn.start = token.start ∧ drawn.stop = token.stop := by
  unfold finish at h
  dsimp only at h
  rcases mem_withDots h with rfl | ⟨hblank, -⟩
  · split_ifs <;> exact ⟨rfl, rfl, rfl⟩
  · refine absurd hblank ?_
    split_ifs <;> exact hstyle

/-- What fills a gap is punctuation if it has a comma, and blank otherwise. -/
theorem style_of_mem_finish_gap {start stop : Int} {last : Option Token}
    (h : drawn ∈ finish r (gap r.buffer start stop last)) :
    drawn.style = (if ',' ∈ drawn.text then .punctuation else .blank) ∨ IsDots r drawn := by
  have hgap : drawn ∈ withDots r.scan.spreadEnds (gap r.buffer start stop last) := by
    unfold finish at h
    dsimp only at h
    split_ifs at h <;> exact h
  rcases mem_withDots hgap with rfl | ⟨hblank, ⟨hstyle, hprefix⟩ | ⟨hstyle, htext, hstop⟩⟩
  · left
    simp [gap]
  · left
    have hnone : ',' ∉ drawn.text := by
      intro hmem
      have hcomma := hprefix.subset hmem
      simp only [gap] at hblank hcomma
      rw [if_pos (by simpa using hcomma)] at hblank
      cases hblank
    rw [hstyle, if_neg hnone]
  · exact Or.inr ⟨hstyle, htext, hstop⟩

/-- A blank token that stops where the dots of a spread do, and is at least as wide, is finished
with them. -/
theorem exists_dots (h : Tiles r.buffer token.start token.stop (finish r token))
    (hstart : 0 ≤ token.start) (hle : token.stop ≤ r.buffer.length)
    (hblank : token.style = .blank) (hend : ∃ stop ∈ r.scan.spreadEnds, token.stop = stop)
    (hwide : token.start + spreadDots.length ≤ token.stop) :
    ∃ dots ∈ finish r token, IsDots r dots ∧ dots.stop = token.stop := by
  have hwidth : spreadDots.length = 3 := rfl
  obtain ⟨stop, hstop, heq⟩ := hend
  have hany : r.scan.spreadEnds.any (fun e => (e : Int) == token.stop) = true :=
    List.any_eq_true.mpr ⟨stop, hstop, by simp [heq]⟩
  have hlength := h.length_text hstart hle
  unfold finish at hlength ⊢
  dsimp only at hlength ⊢
  generalize hshown : (if r.scan.isBlanked token.start token.stop = true then
    { token with text := slice r.buffer token.start token.stop } else token) = shown at hlength ⊢
  have hsame : shown.style = token.style ∧ shown.start = token.start ∧
      shown.stop = token.stop := by
    rw [← hshown]
    split_ifs <;> exact ⟨rfl, rfl, rfl⟩
  obtain ⟨hstyle, hfirst, hlast⟩ := hsame
  unfold withDots at hlength ⊢
  dsimp only at hlength ⊢
  rw [hstyle, hblank, hlast, hany] at hlength ⊢
  split_ifs at hlength ⊢ with hshort hwhole
  · have hshort : shown.text.length < spreadDots.length := by simpa using hshort
    have := hlength shown List.mem_cons_self
    omega
  · exact ⟨_, List.mem_cons_self, ⟨rfl, rfl, stop, hstop, heq⟩, rfl⟩
  · exact ⟨_, List.mem_cons_of_mem _ List.mem_cons_self, ⟨rfl, rfl, stop, hstop, heq⟩, rfl⟩

/-- Dots lie right in front of the place where they end. -/
theorem IsDots.start_eq (h : IsDots r drawn)
    (hlength : drawn.text.length = drawn.stop - drawn.start) :
    drawn.start = drawn.stop - spreadDots.length := by
  rw [h.text] at hlength
  omega

end Finish

end EmbeddedGraphQL.Restoration
