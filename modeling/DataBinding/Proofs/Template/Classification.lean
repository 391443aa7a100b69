-- Meanings of attribute names. A name means a directive, an event or nothing, whatever the two marks are: they
-- may be empty or equal, or one may begin with the other. The meaning tells how the name is spelled, so no two
-- names mean the same directive, and an event has a long spelling and a short one.
import DataBinding.Template.Markers
import DataBinding.Proofs.Text.Cuts

namespace DataBinding.Markers

/-- A name begins with a mark, and something follows. -/
def Marked (mark spelling : String) : Prop := mark ≠ "" ∧ ∃ rest, rest ≠ "" ∧ spelling = mark ++ rest

/-- A directive as it is written behind its mark. -/
def written (name : String) : Option String → String
  | none => name
  | some argument => name ++ ":" ++ argument

/-- A directive with the name `on` and a nonempty argument stands for an event. -/
def StandsForEvent (name : String) (argument : Option String) : Prop :=
  name = "on" ∧ ∃ event, event ≠ "" ∧ argument = some event

/-- A name is the spelling of a directive. -/
structure SpellsDirective (marks : Markers) (spelling name : String) (argument : Option String) :
    Prop where
  mark : marks.directive ≠ ""
  spelled : spelling = marks.directive ++ written name argument
  full : written name argument ≠ ""
  colonless : ':' ∉ name.toList
  noEvent : ¬ StandsForEvent name argument

/-- A name is the long spelling of an event, as a directive, or the short one with the mark of events, unless
the mark of directives takes that. -/
def SpellsEvent (marks : Markers) (spelling event : String) : Prop :=
  event ≠ "" ∧
    (marks.directive ≠ "" ∧ spelling = marks.directive ++ "on:" ++ event ∨
      ¬ Marked marks.directive spelling ∧ marks.event ≠ "" ∧ spelling = marks.event ++ event)

variable {marks : Markers} {mark spelling name event rest : String} {argument : Option String}

/-! ## Marks -/

theorem after?_eq_some_iff :
    after? mark spelling.toList = some rest.toList ↔
      mark ≠ "" ∧ rest ≠ "" ∧ spelling = mark ++ rest := by
  rw [← String.toList_inj, String.toList_append]
  by_cases empty : mark = ""
  · simp [after?, empty]
  · simp [after?, empty, String.isEmpty_iff, Option.filter_eq_some_iff, Text.strip?_eq_some_iff,
      and_comm]

theorem after?_eq_none_iff : after? mark spelling.toList = none ↔ ¬ Marked mark spelling := by
  rw [Option.eq_none_iff_forall_ne_some]
  constructor
  · rintro none ⟨nonempty, rest, full, whole⟩
    exact none _ (after?_eq_some_iff.mpr ⟨nonempty, full, whole⟩)
  · intro unmarked rest found
    rw [← String.toList_ofList (l := rest)] at found
    obtain ⟨nonempty, full, whole⟩ := after?_eq_some_iff.mp found
    exact unmarked ⟨nonempty, _, full, whole⟩

theorem classify_of_marked (mark : marks.directive ≠ "") (full : rest ≠ "") :
    marks.classify (marks.directive ++ rest) = directiveKind rest.toList := by
  have found := after?_eq_some_iff.mpr ⟨mark, full, rfl⟩
  rw [classify, found]

/-! ## Behind the mark of directives -/

/-- The first colon ends the name of a directive. -/
theorem cutAt_written (colonless : ':' ∉ name.toList) (argument : Option String) :
    Text.cutAt [':'] (written name argument).toList =
      argument.map fun a => (name.toList, a.toList) := by
  cases argument with
  | none =>
    rw [Option.map_none, Option.eq_none_iff_forall_ne_some]
    rintro ⟨before, after⟩ cut
    obtain ⟨whole, -⟩ := Text.firstCut_singleton_iff.mp (Text.cutAt_eq_some_iff.mp cut)
    exact colonless (by simp [show name.toList = _ from whole])
  | some a =>
    rw [Option.map_some, Text.cutAt_eq_some_iff, Text.firstCut_singleton_iff]
    exact ⟨by simp [written], colonless⟩

theorem exists_written (rest : String) :
    ∃ name argument, ':' ∉ name.toList ∧ rest = written name argument := by
  by_cases colon : ':' ∈ rest.toList
  · obtain ⟨before, after, whole, first⟩ := List.eq_append_cons_of_mem colon
    refine ⟨String.ofList before, some (String.ofList after), by simpa using first, ?_⟩
    rw [← String.toList_inj, whole]
    simp [written]
  · exact ⟨rest, none, colon, rfl⟩

theorem directiveKind_of_event (full : event ≠ "") :
    directiveKind ("on:" ++ event).toList = .event event := by
  have cut := cutAt_written (show ':' ∉ "on".toList by decide) (some event)
  rw [written, show "on" ++ ":" = "on:" from rfl, Option.map_some] at cut
  rw [directiveKind, cut]
  simp [full]

theorem directiveKind_of_directive (colonless : ':' ∉ name.toList)
    (noEvent : ¬ StandsForEvent name argument) :
    directiveKind (written name argument).toList = .directive name argument := by
  rw [directiveKind, cutAt_written colonless]
  cases argument with
  | none => simp [written]
  | some a =>
    have plain : ¬ (name.toList = ['o', 'n'] ∧ a ≠ "") := fun ⟨on, full⟩ =>
      noEvent ⟨String.toList_inj.mp on, a, full, rfl⟩
    simpa using plain

/-! ## Spellings -/

theorem SpellsDirective.classify_eq (spells : marks.SpellsDirective spelling name argument) :
    marks.classify spelling = .directive name argument := by
  obtain ⟨mark, rfl, full, colonless, noEvent⟩ := spells
  rw [classify_of_marked mark full, directiveKind_of_directive colonless noEvent]

theorem SpellsEvent.classify_eq (spells : marks.SpellsEvent spelling event) :
    marks.classify spelling = .event event := by
  obtain ⟨full, ⟨mark, rfl⟩ | ⟨unmarked, mark, whole⟩⟩ := spells
  · rw [String.append_assoc, classify_of_marked mark (by simp), directiveKind_of_event full]
  · have found := after?_eq_some_iff.mpr ⟨mark, full, whole⟩
    simp [classify, after?_eq_none_iff.mpr unmarked, found]

/-- There is no other meaning: the part behind the mark of directives is a directive or stands for an event,
and a name without that mark is a short spelling or means nothing. -/
theorem spelling_cases (marks : Markers) (spelling : String) :
    (∃ name argument, marks.SpellsDirective spelling name argument) ∨
      (∃ event, marks.SpellsEvent spelling event) ∨ marks.classify spelling = .plain := by
  by_cases marked : Marked marks.directive spelling
  · obtain ⟨mark, rest, full, rfl⟩ := marked
    obtain ⟨name, argument, colonless, rfl⟩ := exists_written rest
    by_cases stands : StandsForEvent name argument
    · obtain ⟨rfl, event, nonempty, rfl⟩ := stands
      exact .inr (.inl ⟨event, nonempty, .inl ⟨mark, by rw [String.append_assoc]; rfl⟩⟩)
    · exact .inl ⟨name, argument, mark, rfl, full, colonless, stands⟩
  · by_cases short : Marked marks.event spelling
    · obtain ⟨mark, event, full, whole⟩ := short
      exact .inr (.inl ⟨event, full, .inr ⟨marked, mark, whole⟩⟩)
    · exact .inr (.inr (by rw [classify, after?_eq_none_iff.mpr marked, after?_eq_none_iff.mpr short]))

theorem classify_eq_directive_iff :
    marks.classify spelling = .directive name argument ↔
      marks.SpellsDirective spelling name argument := by
  refine ⟨fun h => ?_, SpellsDirective.classify_eq⟩
  obtain ⟨name', argument', spells⟩ | ⟨event, spells⟩ | plain := marks.spelling_cases spelling
  · obtain ⟨rfl, rfl⟩ := AttributeKind.directive.inj (spells.classify_eq.symm.trans h)
    exact spells
  · exact nomatch spells.classify_eq.symm.trans h
  · exact nomatch plain.symm.trans h

theorem classify_eq_event_iff :
    marks.classify spelling = .event event ↔ marks.SpellsEvent spelling event := by
  refine ⟨fun h => ?_, SpellsEvent.classify_eq⟩
  obtain ⟨name, argument, spells⟩ | ⟨event', spells⟩ | plain := marks.spelling_cases spelling
  · exact nomatch spells.classify_eq.symm.trans h
  · obtain rfl := AttributeKind.event.inj (spells.classify_eq.symm.trans h)
    exact spells
  · exact nomatch plain.symm.trans h

theorem classify_eq_plain_iff :
    marks.classify spelling = .plain ↔
      (∀ name argument, ¬ marks.SpellsDirective spelling name argument) ∧
        ∀ event, ¬ marks.SpellsEvent spelling event := by
  constructor
  · intro h
    constructor
    · exact fun _ _ spells => nomatch spells.classify_eq.symm.trans h
    · exact fun _ spells => nomatch spells.classify_eq.symm.trans h
  · rintro ⟨noDirective, noEvent⟩
    obtain ⟨name, argument, spells⟩ | ⟨event, spells⟩ | plain := marks.spelling_cases spelling
    · exact absurd spells (noDirective name argument)
    · exact absurd spells (noEvent event)
    · exact plain

/-! ## The law of classification -/

/-- A name means the directive or the event that it spells, and nothing if it spells none. So two names with
the same directive are the same, an event has no third spelling, and its long and its short one mean the same
unless the mark of directives takes the short one. -/
theorem meaning_is_spelling (marks : Markers) :
    (∀ spelling name argument, marks.classify spelling = .directive name argument ↔
      marks.SpellsDirective spelling name argument) ∧
    (∀ spelling event, marks.classify spelling = .event event ↔ marks.SpellsEvent spelling event) ∧
    (∀ spelling, marks.classify spelling = .plain ↔
      (∀ name argument, ¬ marks.SpellsDirective spelling name argument) ∧
        ∀ event, ¬ marks.SpellsEvent spelling event) ∧
    (∀ first second name argument, marks.classify first = .directive name argument →
      marks.classify second = .directive name argument → first = second) ∧
    (∀ spelling event, marks.classify spelling = .event event →
      spelling = marks.directive ++ "on:" ++ event ∨ spelling = marks.event ++ event) ∧
    ∀ event, marks.directive ≠ "" → marks.event ≠ "" → event ≠ "" →
      ¬ Marked marks.directive (marks.event ++ event) →
        marks.classify (marks.directive ++ "on:" ++ event) = marks.classify (marks.event ++ event) := by
  refine ⟨fun _ _ _ => classify_eq_directive_iff, fun _ _ => classify_eq_event_iff,
    fun _ => classify_eq_plain_iff, ?_, ?_, ?_⟩
  · intro first second name argument h₁ h₂
    rw [(classify_eq_directive_iff.mp h₁).spelled, (classify_eq_directive_iff.mp h₂).spelled]
  · intro spelling event h
    obtain ⟨-, ⟨-, long⟩ | ⟨-, -, short⟩⟩ := classify_eq_event_iff.mp h
    · exact .inl long
    · exact .inr short
  · intro event directive short full unmarked
    have long : marks.SpellsEvent (marks.directive ++ "on:" ++ event) event :=
      ⟨full, .inl ⟨directive, rfl⟩⟩
    have brief : marks.SpellsEvent (marks.event ++ event) event := ⟨full, .inr ⟨unmarked, short, rfl⟩⟩
    rw [long.classify_eq, brief.classify_eq]

/-- The mark of directives begins with the mark of events. -/
def overlapping : Markers := { Markers.standard with directive := "v-", event := "v" }

theorem meaning_of_overlapping :
    ¬ Marked overlapping.directive "vx" ∧
      overlapping.classify "v-on:x" = overlapping.classify "vx" ∧
      overlapping.classify "v-:" = .directive "" (some "") ∧ overlapping.classify "v-" = .event "-" := by
  have unmarked : ¬ Marked overlapping.directive "vx" := after?_eq_none_iff.mp (by decide)
  have law := meaning_is_spelling overlapping
  refine ⟨unmarked, law.2.2.2.2.2 "x" (by decide) (by decide) (by decide) unmarked, by decide, ?_⟩
  have bare : ¬ Marked overlapping.directive "v-" := after?_eq_none_iff.mp (by decide)
  exact (law.2.1 "v-" "-").mpr ⟨by decide, .inr ⟨bare, by decide, by decide⟩⟩

end DataBinding.Markers
