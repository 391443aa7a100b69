-- Lists of named entries: tables, attributes and handles. A name keeps its first place when its entry is
-- replaced, and a look-up finds what was put last.

namespace DataBinding

/-- Sets the entry of a name, in its place or at the end. -/
def putEntry {α : Type} (name : String) (a : α) : List (String × α) → List (String × α)
  | [] => [(name, a)]
  | (other, b) :: rest =>
    if other = name then (name, a) :: rest else (other, b) :: putEntry name a rest

/-- Takes the entries of a name out. -/
def dropEntry {α : Type} (name : String) (entries : List (String × α)) : List (String × α) :=
  entries.filter fun entry => entry.1 ≠ name

theorem lookup_putEntry_self {α : Type} (name : String) (a : α) (entries : List (String × α)) :
    (putEntry name a entries).lookup name = some a := by
  induction entries with
  | nil => simp [putEntry]
  | cons entry rest ih =>
    obtain ⟨other, b⟩ := entry
    by_cases h : other = name
    · simp [putEntry, h]
    · have hb : (name == other) = false := by simpa using Ne.symm h
      simp [putEntry, h, List.lookup_cons, hb, ih]

theorem lookup_putEntry_of_ne {α : Type} {name key : String} (a : α) (entries : List (String × α))
    (ne : key ≠ name) : (putEntry name a entries).lookup key = entries.lookup key := by
  have hk : (key == name) = false := by simpa using ne
  induction entries with
  | nil => simp [putEntry, List.lookup_cons, hk]
  | cons entry rest ih =>
    obtain ⟨other, b⟩ := entry
    by_cases h : other = name
    · simp [putEntry, h, List.lookup_cons, hk]
    · simp [putEntry, h, List.lookup_cons, ih]

end DataBinding
