import EmbeddedGraphQL.Completion.Offer
import EmbeddedGraphQL.Proofs.Words
import EmbeddedGraphQL.Schema.Builtin
import Mathlib

/-!
Completions while a word is typed. What is offered depends on the text left of the word alone, and
what is typed of the word selects among it: each further character leaves some of the completions
that were there before. The documentation of a word does not depend on the place of the cursor in
it.
-/
namespace EmbeddedGraphQL.Completion
open Text

/-- What can come behind a text. -/
def offeredBehind (s : Schema) (text : List Char) : List Hint :=
  if text.getLast? = some '@' then directiveHints s
  else candidates s (GrammarState.initial.readAll (Lexeme.split text))

namespace Place

/-- The part of the word left of the cursor. -/
def typed (p : Place) : List Char := (p.text.take p.ch).drop p.start

def word (p : Place) : List Char := (p.text.take p.stop).drop p.start

/-- The text left of a column of the line of a place. -/
def leftOf (p : Place) (buffer : List Char) (column : Nat) : List Char :=
  buffer.take ((lineStarts buffer).getD p.line 0 + column)

/-- A place that is on a line of a text and in a word of that line, or at an end of the word. -/
structure In (p : Place) (buffer : List Char) : Prop where
  line_lt : p.line < (lineStarts buffer).length
  text_eq : p.text = lineText buffer p.line
  word : IsWord p.text p.start p.stop
  start_le : p.start ≤ p.ch
  le_stop : p.ch ≤ p.stop

/-- Whether the cursor of another place touches the word of a place. -/
def Touches (p other : Place) : Prop :=
  other.line = p.line ∧ p.start ≤ other.ch ∧ other.ch ≤ p.stop

theorem of_in (buffer : List Char) (cursor : Position) : (of buffer cursor).In buffer := by
  obtain ⟨hword, hstart, hstop⟩ :=
    wordBounds_spec (lineText buffer (nearestLine buffer cursor.line)) cursor.ch
  exact ⟨nearestLine_lt buffer cursor.line, rfl, hword, hstart, hstop⟩

variable {p : Place} {buffer : List Char}

namespace In

theorem ch_le (h : p.In buffer) : p.ch ≤ (lineText buffer p.line).length :=
  h.text_eq ▸ h.le_stop.trans h.word.stop_le

theorem leftOf_eq (h : p.In buffer) {column : Nat} (hcolumn : column ≤ p.stop) :
    p.leftOf buffer column =
      buffer.take ((lineStarts buffer).getD p.line 0) ++ p.text.take column := by
  have hle := hcolumn.trans h.word.stop_le
  rw [h.text_eq] at hle ⊢
  exact take_lineStart_add h.line_lt hle

/-- What is typed of the word stands at the end of the text left of the cursor. -/
theorem leftOf_ch (h : p.In buffer) :
    p.leftOf buffer p.ch = p.leftOf buffer p.start ++ p.typed := by
  rw [h.leftOf_eq h.le_stop, h.leftOf_eq h.word.start_le, List.append_assoc, typed]
  congr 1
  conv_lhs => rw [← List.take_append_drop p.start (p.text.take p.ch), List.take_take,
    min_eq_left h.start_le]

theorem typed_all (h : p.In buffer) : ∀ c ∈ p.typed, isNameChar c = true :=
  h.word.inside_of_le h.le_stop

/-- No name character stands right before the word. -/
theorem getLast?_leftOf (h : p.In buffer) :
    ∀ c ∈ (p.leftOf buffer p.start).getLast?, isNameChar c = false := by
  intro c hc
  rw [h.leftOf_eq h.word.start_le, List.getLast?_append] at hc
  cases hlast : (p.text.take p.start).getLast? with
  | some d =>
    rw [hlast] at hc
    obtain rfl : d = c := by simpa using hc
    exact h.word.before _ hlast
  | none =>
    rw [hlast] at hc
    rw [getLast?_take_lineStart h.line_lt c (by simpa using hc)]
    rfl

/-- The word is found again in the text left of the cursor. -/
theorem rtakeWhile_leftOf (h : p.In buffer) :
    (p.leftOf buffer p.ch).rtakeWhile isNameChar = p.typed := by
  rw [h.leftOf_ch]
  exact rtakeWhile_append h.typed_all h.getLast?_leftOf

theorem rdropWhile_leftOf (h : p.In buffer) :
    (p.leftOf buffer p.ch).rdropWhile isNameChar = p.leftOf buffer p.start := by
  rw [h.leftOf_ch]
  exact rdropWhile_append h.typed_all h.getLast?_leftOf

/-- The character before the word is the last one of the text left of it, unless the word is at the
start of a line. -/
theorem at_before_iff (h : p.In buffer) :
    (if p.start = 0 then none else p.text[p.start - 1]?) = some '@' ↔
      (p.leftOf buffer p.start).getLast? = some '@' := by
  rw [h.leftOf_eq h.word.start_le, List.getLast?_append]
  split_ifs with hzero
  · have hbreak := getLast?_take_lineStart h.line_lt
    simp only [hzero, List.take_zero, List.getLast?_nil, Option.none_or, false_iff]
    intro hat
    exact absurd (hbreak _ hat) (by decide)
  · have hlength := h.word.start_le.trans h.word.stop_le
    have hlt : p.start - 1 < p.text.length := by omega
    rw [List.getLast?_take, if_neg hzero, List.getElem?_eq_getElem hlt]
    rfl

end In

/-- A cursor that touches the word of a place is at a place that differs in its column alone. -/
theorem of_touches {cursor cursor' : Position}
    (h : (of buffer cursor).Touches (of buffer cursor')) :
    of buffer cursor' = { of buffer cursor with ch := (of buffer cursor').ch } := by
  obtain ⟨hline, hstart, hstop⟩ := h
  have htext : (of buffer cursor').text = (of buffer cursor).text :=
    congrArg (lineText buffer) hline
  have hbounds := (of_in buffer cursor).word.wordBounds_eq hstart hstop
  rw [← htext] at hbounds
  have hword : ((of buffer cursor').start, (of buffer cursor').stop) =
      ((of buffer cursor).start, (of buffer cursor).stop) :=
    (wordBounds_clamped _ cursor'.ch).symm.trans hbounds
  obtain ⟨hstart', hstop'⟩ := Prod.mk.inj hword
  calc of buffer cursor'
    _ = ⟨(of buffer cursor').line, (of buffer cursor').text, (of buffer cursor').ch,
        (of buffer cursor').start, (of buffer cursor').stop⟩ := rfl
    _ = { of buffer cursor with ch := (of buffer cursor').ch } := by
      rw [hline, htext, hstart', hstop']

theorem typed_mono {ch : Nat} (h : p.ch ≤ ch) : p.typed <+: ({ p with ch } : Place).typed :=
  (List.take_prefix_take_left h).drop p.start

/-- A cursor on a line of the text stays where it is. -/
theorem of_column {line ch : Nat} (hline : line < (lineStarts buffer).length)
    (hch : ch ≤ (lineText buffer line).length) :
    (of buffer ⟨line, ch⟩).line = line ∧ (of buffer ⟨line, ch⟩).ch = ch := by
  have hnearest : nearestLine buffer line = line := nearestLine_natCast hline
  refine ⟨hnearest, ?_⟩
  show min (ch : Int).toNat (lineText buffer (nearestLine buffer line)).length = ch
  rw [hnearest, Int.toNat_natCast, min_eq_left hch]

/-- The place at the start of a word. -/
theorem of_start (buffer : List Char) (cursor : Position) :
    let p := of buffer cursor
    of buffer ⟨p.line, p.start⟩ = { p with ch := p.start } := by
  intro p
  have hp : p.In buffer := of_in buffer cursor
  obtain ⟨hline, hch⟩ := of_column hp.line_lt (hp.start_le.trans hp.ch_le)
  have htouches : p.Touches (of buffer ⟨p.line, p.start⟩) :=
    ⟨hline, hch.ge, hch.le.trans hp.word.start_le⟩
  rw [of_touches htouches, hch]

end Place

theorem offered_eq (s : Schema) {buffer : List Char} {p : Place} (h : p.In buffer) :
    offered s buffer p = offeredBehind s (p.leftOf buffer p.start) := by
  unfold offered offeredBehind
  dsimp only
  rw [← Nat.cast_add]
  have hbefore (offset : Nat) : GrammarState.before buffer offset =
      GrammarState.initial.readAll (Lexeme.split (buffer.take offset)) := by
    change GrammarState.initial.readAll (Lexeme.split (Text.slice buffer (0 : Nat) offset)) = _
    rw [Text.slice_eq_take_drop]
    rfl
  simp only [h.at_before_iff, hbefore]
  rfl

/-- The completions at a cursor are those that come behind the text left of the word, as far as they
start with what is typed. -/
theorem hints_eq (s : Schema) (buffer : List Char) (cursor : Position) :
    let p := Place.of buffer cursor
    (hints s buffer cursor).hints =
      (offeredBehind s (p.leftOf buffer p.start)).filter (matchesTyped p.typed) := by
  intro p
  rw [← offered_eq s (Place.of_in buffer cursor)]
  rfl

/-- Texts that begin with the same text up to the cursor have the same completions there. -/
theorem hints_of_begins (s : Schema) {buffer other : List Char} {cursor : Position}
    (h : (Place.of buffer cursor).leftOf buffer (Place.of buffer cursor).ch <+: other) :
    (hints s other ⟨(Place.of buffer cursor).line, (Place.of buffer cursor).ch⟩).hints =
      (hints s buffer cursor).hints := by
  have hp := Place.of_in buffer cursor
  have hhints := hints_eq s buffer cursor
  generalize Place.of buffer cursor = p at h hp hhints ⊢
  obtain ⟨hline, hstart, hch⟩ := column_of_begins hp.line_lt hp.ch_le h
  obtain ⟨hline', hch'⟩ := Place.of_column hline hch
  have hq := Place.of_in other ⟨p.line, p.ch⟩
  have hhints' := hints_eq s other ⟨p.line, p.ch⟩
  generalize Place.of other ⟨p.line, p.ch⟩ = q at hline' hch' hq hhints'
  have hleft : q.leftOf other q.ch = p.leftOf buffer p.ch := by
    have hlength : (p.leftOf buffer p.ch).length = (lineStarts buffer).getD p.line 0 + p.ch := by
      have hend := lineText_length_le hp.line_lt
      have hle := hp.ch_le
      rw [Place.leftOf, List.length_take]
      omega
    rw [List.prefix_iff_eq_take.mp h, hlength, Place.leftOf, hline', hch', hstart]
  rw [hhints, hhints', ← hp.rtakeWhile_leftOf, ← hq.rtakeWhile_leftOf, ← hp.rdropWhile_leftOf,
    ← hq.rdropWhile_leftOf, hleft]

/-- What starts with more of a word also starts with less of it. -/
theorem matchesTyped_mono {typed more : List Char} (hpart : typed <+: more) {h : Hint}
    (hmore : matchesTyped more h = true) : matchesTyped typed h = true := by
  rw [matchesTyped, List.isPrefixOf_iff_prefix] at hmore ⊢
  exact (hpart.map Char.toLower).trans hmore

/-- Whether a completion tells the type of a name. -/
def Documents (name : String) (h : Hint) : Prop :=
  h.text = name ∧ ∃ type, h.type = some type ∧ type ≠ ""

/-- What a completion tells of a name, if it is the completion for it and has a type. -/
def docOf? (name : String) (h : Hint) : Option NameDoc :=
  if h.text == name then (h.type.filter (· != "")).map fun type => ⟨type, h.description⟩ else none

theorem docOf?_eq_some_iff {name : String} {h : Hint} {doc : NameDoc} :
    docOf? name h = some doc ↔
      Documents name h ∧ h.type = some doc.type ∧ h.description = doc.description := by
  unfold docOf? Documents
  cases h.type with
  | none => simp
  | some type =>
    obtain ⟨type', description⟩ := doc
    by_cases hname : h.text = name
    · by_cases hempty : type = "" <;> simp [hname, hempty]
    · simp [hname]

theorem docOf?_eq_none_iff {name : String} {h : Hint} :
    docOf? name h = none ↔ ¬ Documents name h := by
  rw [Option.eq_none_iff_forall_ne_some]
  constructor
  · rintro hnone ⟨hname, type, htype, hempty⟩
    apply hnone ⟨type, h.description⟩
    exact docOf?_eq_some_iff.mpr ⟨⟨hname, type, htype, hempty⟩, htype, rfl⟩
  · intro hdocuments doc hdoc
    exact hdocuments (docOf?_eq_some_iff.mp hdoc).1

/-- At the start of a word nothing is typed of it, so that all completions are there. -/
theorem hints_start (s : Schema) (buffer : List Char) (cursor : Position) :
    let p := Place.of buffer cursor
    (hints s buffer ⟨p.line, p.start⟩).hints = offeredBehind s (p.leftOf buffer p.start) := by
  intro p
  have hhints := hints_eq s buffer ⟨p.line, p.start⟩
  rw [Place.of_start] at hhints
  have htyped : ({ p with ch := p.start } : Place).typed = [] := by
    rw [Place.typed, List.drop_eq_nil_iff, List.length_take]
    exact min_le_left _ _
  rw [hhints, htyped]
  exact List.filter_eq_self.mpr fun h _ => rfl

theorem nameDoc?_eq (s : Schema) (buffer : List Char) (cursor : Position) :
    let p := Place.of buffer cursor
    nameDoc? s buffer cursor = if p.word = [] then none else
      (offeredBehind s (p.leftOf buffer p.start)).findSome? (docOf? (String.ofList p.word)) := by
  intro p
  rw [← hints_start]
  have hempty : (String.ofList p.word == "") = decide (p.word = []) := by
    rw [beq_eq_decide]
    congr 1
    exact propext ⟨fun h => by simpa using congrArg String.toList h, fun h => by rw [h]⟩
  show (if (String.ofList p.word == "") = true then none else _) = _
  rw [hempty]
  simp only [decide_eq_true_eq]
  rfl

/-- While the cursor moves on in a word, completions are dropped and none are added. -/
theorem hints_of_touches (s : Schema) {buffer : List Char} {cursor cursor' : Position}
    (h : (Place.of buffer cursor).Touches (Place.of buffer cursor'))
    (hle : (Place.of buffer cursor).ch ≤ (Place.of buffer cursor').ch) :
    (hints s buffer cursor').start = (hints s buffer cursor).start ∧
      (hints s buffer cursor').stop = (hints s buffer cursor).stop ∧
      (hints s buffer cursor').hints =
        (hints s buffer cursor).hints.filter (matchesTyped (Place.of buffer cursor').typed) := by
  have hplace := Place.of_touches h
  have htyped : (Place.of buffer cursor).typed <+: (Place.of buffer cursor').typed := by
    rw [hplace]
    exact Place.typed_mono hle
  have hleft : (Place.of buffer cursor').leftOf buffer (Place.of buffer cursor').start =
      (Place.of buffer cursor).leftOf buffer (Place.of buffer cursor).start := by
    rw [hplace]
    rfl
  refine ⟨?_, ?_, ?_⟩
  · show some (⟨(Place.of buffer cursor').line, (Place.of buffer cursor').start⟩ : Position) = _
    rw [hplace]
    rfl
  · show some (⟨(Place.of buffer cursor').line, (Place.of buffer cursor').stop⟩ : Position) = _
    rw [hplace]
    rfl
  · rw [hints_eq, hints_eq s buffer cursor, List.filter_filter, hleft]
    apply List.filter_congr
    intro hint _
    cases hmore : matchesTyped (Place.of buffer cursor').typed hint with
    | false => rfl
    | true => exact (matchesTyped_mono htyped hmore).symm

/-- The documentation of a word is the same at all places in it. -/
theorem nameDoc?_of_touches (s : Schema) {buffer : List Char} {cursor cursor' : Position}
    (h : (Place.of buffer cursor).Touches (Place.of buffer cursor')) :
    nameDoc? s buffer cursor' = nameDoc? s buffer cursor := by
  rw [nameDoc?_eq, nameDoc?_eq, Place.of_touches h]
  rfl

/-- The documentation of a word is that of the first completion for it that has a type. -/
theorem nameDoc?_eq_some_iff (s : Schema) (buffer : List Char) (cursor : Position)
    (doc : NameDoc) :
    let p := Place.of buffer cursor
    nameDoc? s buffer cursor = some doc ↔ p.word ≠ [] ∧
      ∃ earlier h later, (hints s buffer ⟨p.line, p.start⟩).hints = earlier ++ h :: later ∧
        (∀ other ∈ earlier, ¬ Documents (String.ofList p.word) other) ∧
        Documents (String.ofList p.word) h ∧ h.type = some doc.type ∧
        h.description = doc.description := by
  intro p
  rw [nameDoc?_eq, hints_start]
  by_cases hword : p.word = []
  · simp [p, hword]
  · rw [if_neg hword, List.findSome?_eq_some_iff]
    simp only [docOf?_eq_some_iff, docOf?_eq_none_iff]
    constructor
    · rintro ⟨earlier, h, later, hsplit, hdoc, hearlier⟩
      exact ⟨hword, earlier, h, later, hsplit, hearlier, hdoc⟩
    · rintro ⟨-, earlier, h, later, hsplit, hearlier, hdoc⟩
      exact ⟨earlier, h, later, hsplit, hdoc, hearlier⟩

/-- The completions replace the word under the cursor. They depend on the text left of the word and
on what is typed of it; while the cursor moves on in the word, they are selected from those that
were there before. The documentation of a word is that of the first completion at its start that has
its name and a type, at whatever place in the word the cursor is. -/
theorem hints_narrow (s : Schema) (buffer : List Char) (cursor : Position) :
    let p := Place.of buffer cursor
    let found := hints s buffer cursor
    (p.line = nearestLine buffer cursor.line ∧ p.text = lineText buffer p.line ∧
      p.ch = min cursor.ch.toNat p.text.length ∧ p.start ≤ p.ch ∧ p.ch ≤ p.stop ∧
      IsWord p.text p.start p.stop ∧
      found.start = some ⟨p.line, p.start⟩ ∧ found.stop = some ⟨p.line, p.stop⟩) ∧
    (found.hints =
        (offeredBehind s (p.leftOf buffer p.start)).filter (matchesTyped p.typed) ∧
      ∀ other, p.leftOf buffer p.ch <+: other →
        (hints s other ⟨p.line, p.ch⟩).hints = found.hints) ∧
    (∀ cursor', p.Touches (Place.of buffer cursor') →
      (p.ch ≤ (Place.of buffer cursor').ch →
        (hints s buffer cursor').start = found.start ∧ (hints s buffer cursor').stop = found.stop ∧
          (hints s buffer cursor').hints =
            found.hints.filter (matchesTyped (Place.of buffer cursor').typed)) ∧
      nameDoc? s buffer cursor' = nameDoc? s buffer cursor) ∧
    ∀ doc, nameDoc? s buffer cursor = some doc ↔ p.word ≠ [] ∧
      ∃ earlier h later, (hints s buffer ⟨p.line, p.start⟩).hints = earlier ++ h :: later ∧
        (∀ other ∈ earlier, ¬ Documents (String.ofList p.word) other) ∧
        Documents (String.ofList p.word) h ∧ h.type = some doc.type ∧
        h.description = doc.description := by
  intro p found
  have hp : p.In buffer := Place.of_in buffer cursor
  refine ⟨⟨rfl, rfl, rfl, hp.start_le, hp.le_stop, hp.word, rfl, rfl⟩, ?_, ?_, ?_⟩
  · exact ⟨hints_eq s buffer cursor, fun other => hints_of_begins s⟩
  · exact fun cursor' htouches => ⟨hints_of_touches s htouches, nameDoc?_of_touches s htouches⟩
  · exact nameDoc?_eq_some_iff s buffer cursor

/-- Two places in the name of a field, and a text that breaks off in that name. -/
theorem hints_narrow_field :
    let s := Schema.builtin
    let buffer := "\x7b __type \x7d".toList
    (hints s buffer ⟨0, 3⟩).hints.map (·.text) = ["__schema", "__type", "__typename"] ∧
      (hints s buffer ⟨0, 6⟩).hints =
        (hints s buffer ⟨0, 3⟩).hints.filter (matchesTyped "__ty".toList) ∧
      nameDoc? s buffer ⟨0, 6⟩ = nameDoc? s buffer ⟨0, 3⟩ ∧
      (hints s "\x7b __\n".toList ⟨0, 3⟩).hints = (hints s buffer ⟨0, 3⟩).hints := by
  intro s buffer
  obtain ⟨-, ⟨-, hother⟩, hsame, -⟩ := hints_narrow s buffer ⟨0, 3⟩
  obtain ⟨hmore, hdoc⟩ := hsame ⟨0, 6⟩ (show _ ∧ _ ∧ _ by decide +kernel)
  refine ⟨by decide +kernel, (hmore (by decide +kernel)).2.2, hdoc, ?_⟩
  exact hother "\x7b __\n".toList (by decide +kernel)

end EmbeddedGraphQL.Completion
