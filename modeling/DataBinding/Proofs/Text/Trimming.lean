-- Trimming. Each text is one trimmed text between blanks, and trimming gives that one: it is determined
-- by the text, so a text that is trimmed already stays as it is, whatever blanks are put around it.
import DataBinding.Text.Blank

namespace DataBinding.Text

/-- A text holds nothing but blanks. -/
def AllBlank (cs : List Char) : Prop := ∀ c ∈ cs, isBlank c = true

/-- A text neither begins nor ends with a blank. -/
structure Trimmed (cs : List Char) : Prop where
  head : ∀ c ∈ cs.head?, isBlank c = false
  last : ∀ c ∈ cs.getLast?, isBlank c = false

/-- A text is another one, which is trimmed, between blanks. -/
def Trims (cs core : List Char) : Prop :=
  Trimmed core ∧ ∃ left right, AllBlank left ∧ AllBlank right ∧ cs = left ++ core ++ right

theorem trimmed_iff {cs : List Char} :
    Trimmed cs ↔ (cs.head?.any isBlank || cs.getLast?.any isBlank) = false := by
  simp only [Bool.or_eq_false_iff, Option.any_eq_false]
  exact ⟨fun h => ⟨h.head, h.last⟩, fun h => ⟨h.1, h.2⟩⟩

-- both are decided on the text itself; an instance that is searched for runs over all characters
instance (cs : List Char) : Decidable (AllBlank cs) := decidable_of_iff _ List.all_eq_true

instance (cs : List Char) : Decidable (Trimmed cs) := decidable_of_iff _ trimmed_iff.symm

variable {cs core left right : List Char}

/-! ## Blank and trimmed texts -/

theorem AllBlank.append (hl : AllBlank left) (hr : AllBlank right) : AllBlank (left ++ right) :=
  fun c hc => (List.mem_append.mp hc).elim (hl c) (hr c)

theorem trimmed_nil : Trimmed [] := ⟨by simp, by simp⟩

/-- Two trimmed texts are trimmed with anything between them. -/
theorem Trimmed.around (first : Trimmed left) (hl : left ≠ []) (second : Trimmed right) (hr : right ≠ [])
    (middle : List Char) : Trimmed (left ++ middle ++ right) := by
  constructor
  · have begins := List.head?_eq_some_head hl
    simpa [List.head?_append, begins] using first.head _ begins
  · have ends := List.getLast?_eq_some_getLast hr
    simpa [List.getLast?_append, ends] using second.last _ ends

/-! ## What trimming gives -/

/-- Blanks in front of a text that does not begin with one are all that is dropped. -/
theorem trimStart_append (blank : AllBlank left) (head : ∀ c ∈ cs.head?, isBlank c = false) :
    trimStart (left ++ cs) = cs := by
  rw [trimStart, List.dropWhile_append_of_pos blank]
  cases cs with
  | nil => rfl
  | cons c rest => exact trimStart_of_head (head c rfl)

theorem head_trimStart (cs : List Char) : ∀ c ∈ (trimStart cs).head?, isBlank c = false := by
  intro c hc
  have stopped := List.head?_dropWhile_not isBlank cs
  rw [show (cs.dropWhile isBlank).head? = some c from hc] at stopped
  exact stopped

/-- The end of a text is trimmed as the front of its reverse. -/
theorem trimEnd_eq (cs : List Char) : trimEnd cs = (trimStart cs.reverse).reverse := rfl

theorem trimEnd_append (blank : AllBlank right) (last : ∀ c ∈ cs.getLast?, isBlank c = false) :
    trimEnd (cs ++ right) = cs := by
  rw [trimEnd_eq, List.reverse_append, trimStart_append, List.reverse_reverse]
  · exact fun c hc => blank c (List.mem_reverse.mp hc)
  · simpa using last

theorem trimmed_trimChars (cs : List Char) : Trimmed (trimChars cs) := by
  constructor
  · intro c hc
    -- the end is trimmed after the front, which it leaves alone
    have kept : trimChars cs <+: trimStart cs := by
      rw [trimChars, trimEnd_eq, ← List.reverse_suffix, List.reverse_reverse]
      exact List.dropWhile_suffix _
    obtain ⟨rest, whole⟩ := kept
    apply head_trimStart cs c
    rw [← whole]
    simp only [Option.mem_def] at hc ⊢
    simp [List.head?_append, hc]
  · intro c hc
    rw [trimChars, trimEnd_eq, List.getLast?_reverse] at hc
    exact head_trimStart _ c hc

theorem trims_trimChars (cs : List Char) : Trims cs (trimChars cs) := by
  obtain ⟨left, right, whole, hl, hr⟩ := exists_trimChars cs
  exact ⟨trimmed_trimChars cs, left, right, List.all_eq_true.mp hl, List.all_eq_true.mp hr, whole⟩

theorem Trims.trimChars_eq (trims : Trims cs core) : trimChars cs = core := by
  obtain ⟨trimmed, left, right, hl, hr, rfl⟩ := trims
  rcases core with _ | ⟨c, rest⟩
  · have gone : trimStart (left ++ right ++ []) = [] := trimStart_append (hl.append hr) (by simp)
    rw [List.append_nil] at gone
    rw [List.append_nil, trimChars, gone]
    rfl
  · have front : trimStart (left ++ (c :: rest) ++ right) = (c :: rest) ++ right := by
      rw [List.append_assoc]
      exact trimStart_append hl (by simpa using trimmed.head)
    rw [trimChars, front]
    exact trimEnd_append hr trimmed.last

theorem trimChars_eq_iff : trimChars cs = core ↔ Trims cs core :=
  ⟨fun h => h ▸ trims_trimChars cs, Trims.trimChars_eq⟩

/-! ## Texts that stay, and texts of which nothing stays -/

theorem Trimmed.trims (trimmed : Trimmed cs) : Trims cs cs :=
  ⟨trimmed, [], [], by simp [AllBlank], by simp [AllBlank], by simp⟩

theorem Trimmed.trimChars_eq (trimmed : Trimmed cs) : trimChars cs = cs := trimmed.trims.trimChars_eq

theorem trimChars_eq_nil_iff : trimChars cs = [] ↔ AllBlank cs := by
  rw [trimChars_eq_iff]
  constructor
  · rintro ⟨-, left, right, hl, hr, rfl⟩
    rw [List.append_nil]
    exact hl.append hr
  · intro blank
    exact ⟨trimmed_nil, cs, [], blank, by simp [AllBlank], by simp⟩

theorem mem_of_mem_trimChars {c : Char} (h : c ∈ trimChars cs) : c ∈ cs := by
  obtain ⟨-, left, right, -, -, whole⟩ := trims_trimChars cs
  rw [whole]
  simp [h]

theorem toList_trim (s : String) : (trim s).toList = trimChars s.toList := String.toList_ofList

theorem trim_eq_empty_iff {s : String} : trim s = "" ↔ AllBlank s.toList := by
  rw [← String.toList_eq_nil_iff, toList_trim, trimChars_eq_nil_iff]

end DataBinding.Text
