-- Expressions in texts. The expression of a text is what its leftmost shortest marker holds, less the blanks
-- around it: no opening mark stands earlier, no closing mark stands earlier behind that one. The marks may
-- be any texts, also equal ones, and may overlap themselves, each other and what they enclose.
import DataBinding.Template.Markers
import DataBinding.Proofs.Text.Cuts
import DataBinding.Proofs.Text.Trimming

namespace DataBinding.Markers

/-- The leftmost shortest marker of a text. No opening mark begins earlier than this one, and the closing
mark stands behind the opening one at the end only. -/
structure FirstMarker (marks : Markers) (text before inner after : List Char) : Prop where
  parts : text = before ++ marks.opening.toList ++ inner ++ marks.closing.toList ++ after
  leftmost : ∀ front back, text = front ++ marks.opening.toList ++ back → before.length ≤ front.length
  shortest : ∀ front back,
    inner ++ marks.closing.toList = front ++ marks.closing.toList ++ back → back = []

/-- The marks enclose an expression in a text: its leftmost shortest marker holds nothing else but blanks
around the expression. -/
structure Enclose (marks : Markers) (text expression : String) : Prop where
  opening : marks.opening ≠ ""
  closing : marks.closing ≠ ""
  nonempty : expression ≠ ""
  marked : ∃ before inner after, marks.FirstMarker text.toList before inner after ∧
    Text.Trims inner expression.toList

variable {marks : Markers} {text before inner after : List Char}

/-! ## The marker as two cuts -/

/-- The leftmost shortest marker ends where the closing mark comes first behind the first opening one. -/
theorem firstMarker_iff_cuts :
    marks.FirstMarker text before inner after ↔ ∃ rest,
      Text.cutAt marks.opening.toList text = some (before, rest) ∧
      Text.cutAt marks.closing.toList rest = some (inner, after) := by
  simp only [Text.cutAt_eq_some_iff]
  constructor
  · rintro ⟨parts, leftmost, shortest⟩
    refine ⟨inner ++ marks.closing.toList ++ after, ⟨by simp [parts], leftmost⟩, ?_⟩
    exact Text.firstCut_iff_ends.mpr shortest
  · rintro ⟨rest, ⟨parts, leftmost⟩, cut⟩
    obtain rfl := cut.parts
    exact ⟨by simp [parts], leftmost, Text.firstCut_iff_ends.mp cut⟩

/-- With two marks, the expression is what is left of the text between the two cuts. -/
theorem interpolation_of_marks (opening : marks.opening ≠ "") (closing : marks.closing ≠ "")
    (text : String) :
    marks.interpolation text =
      (Text.cutAt marks.opening.toList text.toList).bind fun (_, rest) =>
        (Text.cutAt marks.closing.toList rest).bind fun (inner, _) =>
          if (Text.trimChars inner).isEmpty then none
          else some (String.ofList (Text.trimChars inner)) := by
  simp [interpolation, String.isEmpty_iff, opening, closing]

theorem interpolation_of_unmarked (unmarked : marks.opening = "" ∨ marks.closing = "") (text : String) :
    marks.interpolation text = none := by
  rcases unmarked with e | e <;> simp [interpolation, e]

theorem interpolation_eq_some_iff {text expression : String} :
    marks.interpolation text = some expression ↔ marks.Enclose text expression := by
  by_cases unmarked : marks.opening = "" ∨ marks.closing = ""
  · rw [interpolation_of_unmarked unmarked]
    constructor
    · nofun
    · rintro ⟨opening, closing, -⟩
      exact (unmarked.elim opening closing).elim
  · obtain ⟨opening, closing⟩ := not_or.mp unmarked
    rw [interpolation_of_marks opening closing]
    constructor
    · intro h
      obtain ⟨⟨before, rest⟩, opened, h⟩ := Option.bind_eq_some_iff.mp h
      obtain ⟨⟨inner, after⟩, closed, h⟩ := Option.bind_eq_some_iff.mp h
      obtain ⟨nonempty, rfl⟩ : Text.trimChars inner ≠ [] ∧
          String.ofList (Text.trimChars inner) = expression := by simpa using h
      refine ⟨opening, closing, by simpa using nonempty, before, inner, after,
        firstMarker_iff_cuts.mpr ⟨rest, opened, closed⟩, ?_⟩
      rw [String.toList_ofList]
      exact Text.trims_trimChars inner
    · rintro ⟨-, -, nonempty, before, inner, after, marker, trims⟩
      obtain ⟨rest, opened, closed⟩ := firstMarker_iff_cuts.mp marker
      simp [opened, closed, trims.trimChars_eq, nonempty]

/-! ## The law of interpolation -/

/-- A text between marks, with blanks on both sides of an expression and any text in front. -/
def wrap (marks : Markers) (before left expression right : String) : String :=
  before ++ marks.opening ++ (left ++ expression ++ right) ++ marks.closing

/-- The expression of a text is the one that the marks enclose in it, and there is none if they enclose none,
as always if one of them is empty. So an expression is read back from between its marks if the opening mark
stands nowhere earlier than there and the closing mark only at the end. -/
theorem expression_of_leftmost_shortest_marker (marks : Markers) :
    (∀ text expression, marks.interpolation text = some expression ↔ marks.Enclose text expression) ∧
      (∀ text, marks.interpolation text = none ↔ ∀ expression, ¬ marks.Enclose text expression) ∧
      (marks.opening = "" ∨ marks.closing = "" → ∀ text, marks.interpolation text = none) ∧
      ∀ before left expression right, marks.opening ≠ "" → marks.closing ≠ "" → expression ≠ "" →
        Text.Trimmed expression.toList → Text.AllBlank left.toList → Text.AllBlank right.toList →
        marks.FirstMarker (marks.wrap before left expression right).toList before.toList
          (left ++ expression ++ right).toList [] →
        marks.interpolation (marks.wrap before left expression right) = some expression := by
  refine ⟨fun _ _ => interpolation_eq_some_iff, fun text => ?_, interpolation_of_unmarked, ?_⟩
  · simp only [← interpolation_eq_some_iff, Option.eq_none_iff_forall_ne_some, ne_eq]
  · intro before left expression right opening closing nonempty trimmed hl hr marker
    have trims : Text.Trims (left ++ expression ++ right).toList expression.toList :=
      ⟨trimmed, left.toList, right.toList, hl, hr, by simp⟩
    exact interpolation_eq_some_iff.mpr ⟨opening, closing, nonempty, _, _, _, marker, trims⟩

/-- Both marks are two bars. There are single bars in front of the marker and in the expression. -/
def bars : Markers := { Markers.standard with opening := "||", closing := "||" }

theorem expression_between_bars :
    bars.wrap "a |b" " " "x | y" "  " = "a |b|| x | y  ||" ∧
      bars.interpolation "a |b|| x | y  ||" = some "x | y" := by
  have wrapped : bars.wrap "a |b" " " "x | y" "  " = "a |b|| x | y  ||" := by decide
  have marker : bars.FirstMarker (bars.wrap "a |b" " " "x | y" "  ").toList "a |b".toList
      (" " ++ "x | y" ++ "  ").toList [] :=
    firstMarker_iff_cuts.mpr ⟨" x | y  ||".toList, by decide, by decide⟩
  have read := (expression_of_leftmost_shortest_marker bars).2.2.2 "a |b" " " "x | y" "  "
    (by decide) (by decide) (by decide) (by decide) (by decide) (by decide) marker
  exact ⟨wrapped, wrapped ▸ read⟩

end DataBinding.Markers
