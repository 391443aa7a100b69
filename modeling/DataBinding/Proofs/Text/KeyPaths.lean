-- The grammar of key paths. A text is a path if it is not blank and none of the pieces between the dots of the
-- trimmed text is blank. The trimmed pieces are its segments. A path is read again from its own text and from
-- its segments with dots between them, and any list of proper segments is that of some path.
import DataBinding.KeyPath
import DataBinding.Proofs.Text.Cuts
import DataBinding.Proofs.Text.Trimming
import Mathlib.Data.List.Forall2

namespace DataBinding.KeyPath

/-- A text is trimmed, and the trimmed text is taken to pieces at its dots. -/
structure Dissects (s text : String) (parts : List (List Char)) : Prop where
  trims : Text.Trims s.toList text.toList
  split : Text.Split '.' text.toList parts

/-- A segment as it can stand in a path: trimmed, not empty, and without a dot. -/
structure Proper (segment : String) : Prop where
  trimmed : Text.Trimmed segment.toList
  nonempty : segment ≠ ""
  dotless : '.' ∉ segment.toList

variable {s text : String} {parts : List (List Char)} {segments : List String}

/-! ## Dissections -/

theorem exists_dissects (s : String) : ∃ text parts, Dissects s text parts := by
  refine ⟨Text.trim s, _, ?_, Text.split_pieces '.' _⟩
  rw [Text.toList_trim]
  exact Text.trims_trimChars _

theorem Dissects.trim_eq (d : Dissects s text parts) : Text.trim s = text := by
  rw [← String.toList_inj, Text.toList_trim, d.trims.trimChars_eq]

/-- The trimmed text is dissected in the same way. -/
theorem Dissects.again (d : Dissects s text parts) : Dissects text text parts :=
  ⟨d.trims.1.trims, d.split⟩

/-- A blank text has one piece, which is blank. -/
theorem Dissects.not_blank (d : Dissects s text parts) (full : ∀ part ∈ parts, ¬ Text.AllBlank part) :
    ¬ Text.AllBlank s.toList := by
  intro blank
  have empty := d.trim_eq.symm.trans (Text.trim_eq_empty_iff.mpr blank)
  have pieces := d.split.pieces_eq
  rw [empty] at pieces
  exact full [] (by rw [← pieces]; simp [Text.pieces]) (by simp [Text.AllBlank])

/-! ## What is read -/

theorem segmentOf_eq_empty_iff {part : List Char} : segmentOf part = "" ↔ Text.AllBlank part := by
  rw [segmentOf, String.ofList_eq_empty_iff, Text.trimChars_eq_nil_iff]

/-- The segments are the trimmed pieces, in order. -/
theorem forall₂_trims_iff :
    List.Forall₂ (fun part segment => Text.Trims part segment.toList) parts segments ↔
      segments = parts.map segmentOf := by
  have trims (part : List Char) (segment : String) :
      Text.Trims part segment.toList ↔ segmentOf part = segment := by
    rw [← Text.trimChars_eq_iff, segmentOf, ← String.toList_inj, String.toList_ofList]
  simp only [trims]
  constructor
  · intro h
    induction h with
    | nil => rfl
    | cons e _ ih => rw [ih, List.map_cons, e]
  · rintro rfl
    exact List.forall₂_map_right_iff.mpr (List.forall₂_same.mpr fun _ _ => rfl)

theorem eq_of_segments {p q : KeyPath} (text : p.text = q.text) (segments : p.segments = q.segments) :
    p = q := by
  cases p
  cases q
  simp_all [KeyPath.segments]

theorem parse_of_blank (blank : Text.AllBlank s.toList) : parse s = .error .empty := by
  simp [parse, Text.trim_eq_empty_iff.mpr blank]

theorem Dissects.parse_eq {first : List Char} {others : List (List Char)}
    (d : Dissects s text (first :: others)) (notBlank : ¬ Text.AllBlank s.toList) :
    parse s =
      if ((first :: others).map segmentOf).any String.isEmpty then .error (.emptySegment text)
      else .ok ⟨text, segmentOf first, others.map segmentOf⟩ := by
  have full : text ≠ "" := fun e => notBlank (Text.trim_eq_empty_iff.mp (d.trim_eq.trans e))
  obtain ⟨head, tail⟩ := List.cons.inj d.split.pieces_eq
  simp [parse, d.trim_eq, String.isEmpty_iff, full, head, tail]

theorem any_isEmpty_iff :
    (parts.map segmentOf).any String.isEmpty = true ↔ ∃ part ∈ parts, Text.AllBlank part := by
  simp [List.any_eq_true, String.isEmpty_iff, segmentOf_eq_empty_iff]

theorem Dissects.parse_of_hole (d : Dissects s text parts) (notBlank : ¬ Text.AllBlank s.toList)
    (hole : ∃ part ∈ parts, Text.AllBlank part) : parse s = .error (.emptySegment text) := by
  obtain ⟨first, others, rfl⟩ := List.exists_cons_of_ne_nil d.split.nonempty
  rw [d.parse_eq notBlank, if_pos (any_isEmpty_iff.mpr hole)]

theorem Dissects.parse_of_full (d : Dissects s text parts) (full : ∀ part ∈ parts, ¬ Text.AllBlank part) :
    ∃ p, parse s = .ok p ∧ p.text = text ∧ p.segments = parts.map segmentOf := by
  obtain ⟨first, others, rfl⟩ := List.exists_cons_of_ne_nil d.split.nonempty
  have noHole : ¬ ((first :: others).map segmentOf).any String.isEmpty = true := fun hole =>
    let ⟨part, mem, blank⟩ := any_isEmpty_iff.mp hole
    full part mem blank
  exact ⟨_, (d.parse_eq (d.not_blank full)).trans (if_neg noHole), rfl, rfl⟩

/-- One of three outcomes, told apart by the blank pieces. -/
theorem Dissects.outcome (d : Dissects s text parts) :
    Text.AllBlank s.toList ∧ parse s = .error .empty ∨
      (¬ Text.AllBlank s.toList ∧ ∃ part ∈ parts, Text.AllBlank part) ∧
        parse s = .error (.emptySegment text) ∨
      (∀ part ∈ parts, ¬ Text.AllBlank part) ∧
        ∃ p, parse s = .ok p ∧ p.text = text ∧ p.segments = parts.map segmentOf := by
  by_cases blank : Text.AllBlank s.toList
  · exact .inl ⟨blank, parse_of_blank blank⟩
  · by_cases hole : ∃ part ∈ parts, Text.AllBlank part
    · exact .inr (.inl ⟨⟨blank, hole⟩, d.parse_of_hole blank hole⟩)
    · have full : ∀ part ∈ parts, ¬ Text.AllBlank part := fun part mem h => hole ⟨part, mem, h⟩
      exact .inr (.inr ⟨full, d.parse_of_full full⟩)

theorem Dissects.parse_eq_empty_iff (d : Dissects s text parts) :
    parse s = .error .empty ↔ Text.AllBlank s.toList := by
  refine ⟨fun h => ?_, parse_of_blank⟩
  obtain ⟨blank, -⟩ | ⟨-, e⟩ | ⟨-, p, e, -⟩ := d.outcome
  · exact blank
  · simp [e] at h
  · simp [e] at h

theorem Dissects.parse_eq_emptySegment_iff (d : Dissects s text parts) {path : String} :
    parse s = .error (.emptySegment path) ↔
      path = text ∧ ¬ Text.AllBlank s.toList ∧ ∃ part ∈ parts, Text.AllBlank part := by
  constructor
  · intro h
    obtain ⟨-, e⟩ | ⟨hole, e⟩ | ⟨-, p, e, -⟩ := d.outcome
    · simp [e] at h
    · rw [e] at h
      exact ⟨by simpa using h.symm, hole⟩
    · simp [e] at h
  · rintro ⟨rfl, notBlank, hole⟩
    exact d.parse_of_hole notBlank hole

theorem Dissects.parse_eq_ok_iff (d : Dissects s text parts) {p : KeyPath} :
    parse s = .ok p ↔
      (∀ part ∈ parts, ¬ Text.AllBlank part) ∧ p.text = text ∧ p.segments = parts.map segmentOf := by
  constructor
  · intro h
    obtain ⟨-, e⟩ | ⟨-, e⟩ | ⟨full, q, e, whole⟩ := d.outcome
    · simp [e] at h
    · simp [e] at h
    · obtain rfl : q = p := by simpa [e] using h
      exact ⟨full, whole⟩
  · rintro ⟨full, text, segments⟩
    obtain ⟨q, e, text', segments'⟩ := d.parse_of_full full
    rw [e, eq_of_segments (text'.trans text.symm) (segments'.trans segments.symm)]

/-! ## Proper segments -/

theorem proper_segmentOf {part : List Char} (full : ¬ Text.AllBlank part) (dotless : '.' ∉ part) :
    Proper (segmentOf part) := by
  have same : (segmentOf part).toList = Text.trimChars part := String.toList_ofList
  refine ⟨?_, fun e => full (segmentOf_eq_empty_iff.mp e), fun dot => dotless ?_⟩
  · rw [same]
    exact Text.trimmed_trimChars part
  · rw [same] at dot
    exact Text.mem_of_mem_trimChars dot

theorem proper_of_parse {p : KeyPath} (read : parse s = .ok p) :
    ∀ segment ∈ p.segments, Proper segment := by
  obtain ⟨text, parts, d⟩ := exists_dissects s
  obtain ⟨full, -, segments⟩ := d.parse_eq_ok_iff.mp read
  rw [segments]
  intro segment mem
  obtain ⟨part, inside, rfl⟩ := List.mem_map.mp mem
  exact proper_segmentOf (full part inside) (d.split.apart part inside)

theorem Proper.segmentOf_eq {segment : String} (proper : Proper segment) :
    segmentOf segment.toList = segment := by
  rw [segmentOf, proper.trimmed.trimChars_eq, String.ofList_toList]

theorem Proper.not_blank {segment : String} (proper : Proper segment) :
    ¬ Text.AllBlank segment.toList := fun blank =>
  proper.nonempty (proper.segmentOf_eq.symm.trans (segmentOf_eq_empty_iff.mpr blank))

/-- Nothing of a text of trimmed pieces is trimmed away. -/
theorem trimmed_intercalate (separator : Char) :
    ∀ {parts : List (List Char)}, (∀ part ∈ parts, Text.Trimmed part ∧ part ≠ []) →
      Text.Trimmed ([separator].intercalate parts)
  | [], _ => Text.trimmed_nil
  | [part], h => by
    rw [List.intercalate_singleton]
    exact (h part List.mem_cons_self).1
  | part :: next :: rest, h => by
    obtain ⟨trimmed, nonempty⟩ := h part List.mem_cons_self
    have tail := trimmed_intercalate separator fun q mem => h q (List.mem_cons_of_mem _ mem)
    rw [List.intercalate_cons_cons]
    refine trimmed.around nonempty tail ?_ [separator]
    obtain ⟨c, cs, rfl⟩ := List.exists_cons_of_ne_nil (h next (by simp)).2
    simp [List.intercalate_cons_cons_left]

/-- Proper segments with dots between them are the pieces of the text that they make. -/
theorem dissects_intercalate (nonempty : segments ≠ []) (proper : ∀ segment ∈ segments, Proper segment) :
    Dissects (".".intercalate segments) (".".intercalate segments) (segments.map String.toList) := by
  have whole : (".".intercalate segments).toList = ['.'].intercalate (segments.map String.toList) :=
    String.toList_intercalate
  constructor
  · rw [whole]
    refine (trimmed_intercalate '.' ?_).trims
    simp only [List.forall_mem_map]
    exact fun segment mem => ⟨(proper segment mem).trimmed, by simpa using (proper segment mem).nonempty⟩
  · refine ⟨whole.symm, by simpa using nonempty, ?_⟩
    simp only [List.forall_mem_map]
    exact fun segment mem => (proper segment mem).dotless

theorem parse_intercalate (nonempty : segments ≠ []) (proper : ∀ segment ∈ segments, Proper segment) :
    ∃ p, parse (".".intercalate segments) = .ok p ∧ p.segments = segments := by
  have full : ∀ part ∈ segments.map String.toList, ¬ Text.AllBlank part := by
    simp only [List.forall_mem_map]
    exact fun segment mem => (proper segment mem).not_blank
  obtain ⟨p, read, -, whole⟩ := (dissects_intercalate nonempty proper).parse_of_full full
  refine ⟨p, read, ?_⟩
  rw [whole, List.map_map]
  exact (List.map_congr_left fun segment mem => (proper segment mem).segmentOf_eq).trans (List.map_id _)

/-! ## The grammar -/

/-- A text is read by its dissection: a blank text is empty, a blank piece is an empty segment, and otherwise
the path has the trimmed text and the trimmed pieces. A path is read again from its own text. The segments of
paths are the lists of proper segments, and each such list is read again from the text with dots between them.
The head and the rest of a path, and its parents and its last segment, are all its segments. -/
theorem paths_are_dotted_segments :
    (∀ s, ∃ text parts, Dissects s text parts) ∧
    (∀ s text parts, Dissects s text parts →
      (parse s = .error .empty ↔ Text.AllBlank s.toList) ∧
      (∀ path, parse s = .error (.emptySegment path) ↔
        path = text ∧ ¬ Text.AllBlank s.toList ∧ ∃ part ∈ parts, Text.AllBlank part) ∧
      (∀ p, parse s = .ok p ↔ (∀ part ∈ parts, ¬ Text.AllBlank part) ∧ p.text = text ∧
        List.Forall₂ (fun part segment => Text.Trims part segment.toList) parts p.segments) ∧
      ((∀ part ∈ parts, ¬ Text.AllBlank part) → ∃ p, parse s = .ok p)) ∧
    (∀ s p, parse s = .ok p →
      (p.segments ≠ [] ∧ ∀ segment ∈ p.segments, Proper segment) ∧ parse p.text = .ok p ∧
      ∃ q, parse (".".intercalate p.segments) = .ok q ∧ q.segments = p.segments) ∧
    (∀ segments, segments ≠ [] → (∀ segment ∈ segments, Proper segment) →
      ∃ p, parse (".".intercalate segments) = .ok p ∧ p.segments = segments) ∧
    ∀ p : KeyPath, p.head :: p.rest = p.segments ∧ p.parents ++ [p.last] = p.segments := by
  refine ⟨exists_dissects, fun s text parts d => ?_, fun s p read => ?_, fun _ => parse_intercalate,
    fun p => ⟨rfl, p.segments_eq.symm⟩⟩
  · simp only [forall₂_trims_iff]
    refine ⟨d.parse_eq_empty_iff, fun _ => d.parse_eq_emptySegment_iff, fun _ => d.parse_eq_ok_iff, ?_⟩
    intro full
    obtain ⟨p, read, -⟩ := d.parse_of_full full
    exact ⟨p, read⟩
  · have nonempty : p.segments ≠ [] := List.cons_ne_nil _ _
    have proper := proper_of_parse read
    obtain ⟨text, parts, d⟩ := exists_dissects s
    have whole := d.parse_eq_ok_iff.mp read
    refine ⟨⟨nonempty, proper⟩, ?_, parse_intercalate nonempty proper⟩
    rw [whole.2.1]
    exact d.again.parse_eq_ok_iff.mpr whole

/-- Blanks around the text and around its dot are dropped, and the one within a segment stays. -/
theorem path_between_blanks :
    Dissects " user . first name\t" "user . first name" ["user ".toList, " first name".toList] ∧
      (∃ p, parse " user . first name\t" = .ok p) ∧
      parse "user . first name" = .ok ⟨"user . first name", "user", ["first name"]⟩ ∧
      ∃ q, parse "user.first name" = .ok q ∧ q.segments = ["user", "first name"] := by
  have law := paths_are_dotted_segments
  have d : Dissects " user . first name\t" "user . first name" ["user ".toList, " first name".toList] :=
    ⟨⟨by decide, [' '], ['\t'], by decide, by decide, by decide⟩,
      ⟨by decide, by decide, by decide⟩⟩
  have read : parse " user . first name\t" = .ok ⟨"user . first name", "user", ["first name"]⟩ := by
    decide
  obtain ⟨-, again, joined⟩ := law.2.2.1 _ _ read
  exact ⟨d, (law.2.1 _ _ _ d).2.2.2 (by decide), again, joined⟩

end DataBinding.KeyPath
