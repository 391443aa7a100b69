-- Cuts. A text is cut at the first place of a mark, where no place is earlier, and it is taken to pieces
-- at each separator. The cut is determined by the text and the mark, also where places of the mark overlap,
-- and so are the pieces by the text and the separator.
import DataBinding.Text.Search

namespace DataBinding.Text

variable {mark cs before after : List Char}

/-! ## The first place of a mark -/

/-- A mark stands in a text between two parts, and nowhere earlier than there. -/
structure FirstCut (mark cs before after : List Char) : Prop where
  parts : cs = before ++ mark ++ after
  first : ∀ front back, cs = front ++ mark ++ back → before.length ≤ front.length

theorem firstCut_front (mark after : List Char) : FirstCut mark (mark ++ after) [] after :=
  ⟨rfl, fun _ _ _ => Nat.zero_le _⟩

/-- A text that does not begin with the mark is cut one character later than its rest. -/
theorem firstCut_cons_iff {c : Char} (none : strip? mark (c :: cs) = none) :
    FirstCut mark (c :: cs) before after ↔ ∃ rest, before = c :: rest ∧ FirstCut mark cs rest after := by
  have begins (back : List Char) : c :: cs ≠ mark ++ back := by
    intro e
    rw [strip?_eq_some_iff.mpr e] at none
    contradiction
  constructor
  · rintro ⟨parts, first⟩
    rcases before with _ | ⟨b, rest⟩
    · exact absurd parts (begins after)
    · obtain ⟨rfl, tail⟩ : c = b ∧ cs = rest ++ mark ++ after := by simpa using parts
      refine ⟨rest, rfl, tail, fun front back e => ?_⟩
      have := first (c :: front) back (by rw [e]; rfl)
      simpa using this
  · rintro ⟨rest, rfl, parts, first⟩
    refine ⟨congrArg (c :: ·) parts, fun front back e => ?_⟩
    rcases front with _ | ⟨f, front⟩
    · exact absurd e (begins back)
    · simpa using first front back (List.cons.inj e).2

theorem cutAt_eq_some_iff : cutAt mark cs = some (before, after) ↔ FirstCut mark cs before after := by
  induction cs generalizing before with
  | nil =>
    by_cases he : mark = []
    · subst he
      constructor
      · intro h
        obtain ⟨rfl, rfl⟩ : [] = before ∧ [] = after := by simpa [cutAt] using h
        exact firstCut_front [] []
      · rintro ⟨parts, -⟩
        obtain ⟨rfl, rfl⟩ : before = [] ∧ after = [] := by simpa using parts
        rfl
    · constructor
      · intro h
        simp [cutAt, he] at h
      · rintro ⟨parts, -⟩
        simp [he] at parts
  | cons c rest ih =>
    rcases hs : strip? mark (c :: rest) with _ | tail
    · simp only [cutAt, hs, firstCut_cons_iff hs, ← ih, Option.map_eq_some_iff, Prod.exists,
        Prod.mk.injEq]
      constructor
      · rintro ⟨b, a, h, rfl, rfl⟩
        exact ⟨b, rfl, h⟩
      · rintro ⟨b, rfl, h⟩
        exact ⟨b, after, h, rfl, rfl⟩
    · have whole := strip?_eq_some_iff.mp hs
      simp only [cutAt, hs, Option.some.injEq, Prod.mk.injEq]
      constructor
      · rintro ⟨rfl, rfl⟩
        rw [whole]
        exact firstCut_front mark tail
      · rintro ⟨parts, first⟩
        have atFront : before = [] :=
          List.eq_nil_of_length_eq_zero (Nat.le_zero.mp (first [] tail whole))
        subst atFront
        exact ⟨rfl, List.append_cancel_left (whole.symm.trans parts)⟩

/-- Whether a mark stands earlier in a text is seen in the text up to its place: there the mark stands at
the end only. -/
theorem firstCut_iff_ends :
    FirstCut mark (before ++ mark ++ after) before after ↔
      ∀ front back, before ++ mark = front ++ mark ++ back → back = [] := by
  constructor
  · rintro ⟨-, first⟩ front back e
    have early := first front (back ++ after) (by rw [e]; simp)
    have lengths := congrArg List.length e
    simp only [List.length_append] at lengths
    exact List.eq_nil_of_length_eq_zero (by omega)
  · intro ends
    refine ⟨rfl, fun front back e => Nat.le_of_not_lt fun late => ?_⟩
    -- an earlier place of the mark lies within the text up to the cut
    have within : front ++ mark <+: before ++ mark :=
      List.prefix_of_prefix_length_le ⟨back, e.symm⟩ ⟨after, rfl⟩ (by simp; omega)
    obtain ⟨rest, whole⟩ := within
    have lengths := congrArg List.length whole
    rw [ends front rest whole.symm] at lengths
    simp only [List.append_nil, List.length_append] at lengths
    omega

/-- A mark of one character is found where that character comes first. -/
theorem firstCut_singleton_iff {c : Char} :
    FirstCut [c] cs before after ↔ cs = before ++ c :: after ∧ c ∉ before := by
  constructor
  · rintro ⟨parts, first⟩
    refine ⟨by simpa using parts, fun inside => ?_⟩
    obtain ⟨front, back, rfl⟩ := List.append_of_mem inside
    have := first front (back ++ c :: after) (by simp [parts])
    simp only [List.length_append, List.length_cons] at this
    omega
  · rintro ⟨rfl, outside⟩
    refine ⟨by simp, fun front back e => Nat.le_of_not_lt fun late => ?_⟩
    have within : front ++ [c] <+: before :=
      List.prefix_of_prefix_length_le ⟨back, e.symm⟩ ⟨c :: after, rfl⟩ (by simp; omega)
    exact outside (within.subset (by simp))

/-! ## Pieces -/

/-- A text is taken to pieces at a separator: none of the pieces holds it, and with it between them they
are the text. -/
structure Split (separator : Char) (cs : List Char) (parts : List (List Char)) : Prop where
  joined : [separator].intercalate parts = cs
  nonempty : parts ≠ []
  apart : ∀ part ∈ parts, separator ∉ part

theorem pieces_eq_splitOn (separator : Char) (cs : List Char) :
    (pieces separator cs).1 :: (pieces separator cs).2 = cs.splitOn separator := by
  induction cs with
  | nil => rfl
  | cons c rest ih =>
    rw [List.splitOn_cons_eq_if_modifyHead, ← ih]
    by_cases hc : c = separator <;> simp [pieces, hc]

theorem split_pieces (separator : Char) (cs : List Char) :
    Split separator cs ((pieces separator cs).1 :: (pieces separator cs).2) := by
  refine ⟨?_, List.cons_ne_nil _ _, not_mem_pieces separator cs⟩
  rw [pieces_eq_splitOn, List.intercalate_splitOn]

theorem Split.pieces_eq {separator : Char} {parts : List (List Char)} (split : Split separator cs parts) :
    (pieces separator cs).1 :: (pieces separator cs).2 = parts := by
  rw [pieces_eq_splitOn, ← split.joined, List.splitOn_intercalate separator split.apart split.nonempty]

end DataBinding.Text
