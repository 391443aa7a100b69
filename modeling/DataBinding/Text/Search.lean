-- Search in a text, as a list of characters: the first place of a mark, the pieces between
-- separators, and the spelling of a list position. `cutAt` and `pieces` lose nothing: the parts
-- joined by the mark give the text back.

namespace DataBinding.Text

/-! ## Marks -/

/-- What follows a mark at the start of a text. -/
def strip? : List Char → List Char → Option (List Char)
  | [], cs => some cs
  | _ :: _, [] => none
  | m :: mark, c :: cs => if m = c then strip? mark cs else none

theorem strip?_eq_some_iff {mark cs rest : List Char} :
    strip? mark cs = some rest ↔ cs = mark ++ rest := by
  induction mark generalizing cs with
  | nil => simp [strip?]
  | cons m mark ih =>
    cases cs with
    | nil => simp [strip?]
    | cons c cs =>
      by_cases hm : m = c
      · simp [strip?, hm, ih]
      · simp [strip?, hm, Ne.symm hm]

/-- The text before the first place of `mark` and the text after it. -/
def cutAt (mark : List Char) : List Char → Option (List Char × List Char)
  | [] => if mark.isEmpty then some ([], []) else none
  | c :: rest =>
    match strip? mark (c :: rest) with
    | some after => some ([], after)
    | none => (cutAt mark rest).map fun (before, after) => (c :: before, after)

/-- The pieces of a text between separators: the first piece, then the others. -/
def pieces (separator : Char) : List Char → List Char × List (List Char)
  | [] => ([], [])
  | c :: rest =>
    let (first, others) := pieces separator rest
    if c = separator then ([], first :: others) else (c :: first, others)

/-- No piece holds a separator. -/
theorem not_mem_pieces (separator : Char) (cs : List Char) :
    ∀ piece ∈ (pieces separator cs).1 :: (pieces separator cs).2, separator ∉ piece := by
  induction cs with
  | nil => simp [pieces]
  | cons c rest ih =>
    by_cases hc : c = separator
    · simpa [pieces, hc] using ih
    · simpa [pieces, hc, Ne.symm hc] using ih

/-! ## List positions -/

/-- The value of a list of decimal digits, and none if another character is among them. -/
def digitsValue? (cs : List Char) : Option Nat :=
  cs.foldlM (fun n c => if c.isDigit then some (10 * n + (c.toNat - '0'.toNat)) else none) 0

/-- A list position is written in decimal digits, with an optional plus sign in front, and is
below 2 ^ 64. -/
def position? (s : String) : Option Nat :=
  let digits := match s.toList with
    | '+' :: rest => rest
    | cs => cs
  if digits.isEmpty then none
  else (digitsValue? digits).filter (· < UInt64.size)

end DataBinding.Text
