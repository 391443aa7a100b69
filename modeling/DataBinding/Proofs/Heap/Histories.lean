-- Histories of a heap: what holds along every list of edits. Three kinds of edits are rare, and a licence
-- says which of them may occur: a registration outside the walk of a new watcher, a second definition
-- of a slot, and a write to a position of a list.
import DataBinding.Proofs.Heap.Following

namespace DataBinding

/-- Which of the rare edits may occur. -/
structure Licence where
  registers : Prop
  redefines : Prop
  places : Prop

namespace Licence

/-- None of the rare edits. -/
def none : Licence := ⟨False, False, False⟩

def registering : Licence := ⟨True, False, False⟩

def redefining : Licence := ⟨False, True, False⟩

def placing : Licence := ⟨False, False, True⟩

/-- Whether an edit is licensed where it is made. -/
structure Allows (licence : Licence) (h : Heap) (e : Edit) : Prop where
  registers : e.Registers → licence.registers
  redefines : e.Redefines h → licence.redefines
  places : e.Places → licence.places

end Licence

namespace Heap

/-- One heap comes from another one by licensed edits that store known values and register watchers
that exist; the edits owe the given watchers a turn each. -/
inductive Edited (count : Nat) (licence : Licence) (h : Heap) : List WatcherId → Heap → Prop where
  | nil : Edited count licence h [] h
  | snoc {owed : List WatcherId} {h' : Heap} {e : Edit} (before : Edited count licence h owed h')
      (known : ∀ v ∈ e.values, h'.Knows v) (enrolls : e.Enrolls count)
      (allowed : licence.Allows h' e) :
      Edited count licence h (owed ++ (e.apply h').2) (e.apply h').1

namespace Edited

variable {count : Nat} {licence : Licence} {h h' h'' : Heap} {owed later : List WatcherId}
  {id : WatcherId}

theorem single {e : Edit} (known : ∀ v ∈ e.values, h.Knows v) (enrolls : e.Enrolls count)
    (allowed : licence.Allows h e) : Edited count licence h (e.apply h).2 (e.apply h).1 :=
  snoc nil known enrolls allowed

theorem trans (a : Edited count licence h owed h') (b : Edited count licence h' later h'') :
    Edited count licence h (owed ++ later) h'' := by
  induction b with
  | nil => simpa using a
  | snoc _ known enrolls allowed ih =>
    rw [← List.append_assoc]
    exact ih.snoc known enrolls allowed

theorem extend (a : Edited count licence h owed h') : h'.Extends h := by
  induction a with
  | nil => exact .refl h
  | @snoc _ h₁ e _ _ _ _ ih => exact (extends_apply h₁ e).trans ih

theorem closed (a : Edited count licence h owed h') (closed : h.Closed) : h'.Closed := by
  induction a with
  | nil => exact closed
  | @snoc _ h₁ e _ known _ _ ih => exact closed_apply ih e known

theorem enrolled (a : Edited count licence h owed h') (enrolled : h.Enrolled count) :
    h'.Enrolled count := by
  induction a with
  | nil => exact enrolled
  | @snoc _ h₁ e _ _ enrolls _ ih => exact enrolled_apply ih e enrolls

theorem owed_among (a : Edited count licence h owed h') (enrolled : h.Enrolled count) :
    ∀ id ∈ owed, id.Among count := by
  induction a with
  | nil => simp
  | @snoc owed h₁ e before _ _ _ ih =>
    intro id hid
    rcases List.mem_append.mp hid with hid | hid
    · exact ih id hid
    · exact (owed_enrolled (before.enrolled enrolled) e).2 id hid

theorem keepsRegistries (a : Edited count licence h owed h') (quiet : ¬licence.registers) :
    KeepsRegistries h h' := by
  induction a with
  | nil => exact .refl h
  | @snoc _ h₁ e _ _ _ allowed ih =>
    exact ih.trans (keepsRegistries_apply h₁ fun he => quiet (allowed.registers he))

theorem slotsObserved (a : Edited count licence h owed h') (closed : h.Closed)
    (slots : h.SlotsObserved) : h'.SlotsObserved := by
  induction a with
  | nil => exact slots
  | @snoc _ h₁ e before _ _ _ ih => exact slotsObserved_apply (before.closed closed) ih e

theorem tidy (a : Edited count licence h owed h') (quiet : ¬licence.registers) (closed : h.Closed)
    (tidy : h.Tidy) : h'.Tidy := by
  induction a with
  | nil => exact tidy
  | @snoc _ h₁ e before _ _ allowed ih =>
    exact tidy_apply (before.closed closed) ih fun he => quiet (allowed.registers he)

/-- What a watcher that is owed no turn can miss: second definitions and writes to positions. -/
theorem follows (a : Edited count licence h owed h') (quiet : ¬licence.registers)
    (closed : h.Closed) (tidy : h.Tidy) :
    Follows id (id ∈ owed ∨ licence.redefines) (id ∈ owed ∨ licence.places) h h' := by
  induction a with
  | nil => exact (Follows.refl h).mono False.elim False.elim
  | @snoc owed h₁ e before _ _ allowed ih =>
    have step : Follows id _ _ h₁ (e.apply h₁).1 :=
      follows_apply (before.tidy quiet closed tidy) fun he => quiet (allowed.registers he)
    refine (ih.trans step).mono ?_ ?_
    · rintro ((hid | hr) | (hid | hr))
      · exact .inl (List.mem_append_left _ hid)
      · exact .inr hr
      · exact .inl (List.mem_append_right _ hid)
      · exact .inr (allowed.redefines hr)
    · rintro ((hid | hp) | (hid | hp))
      · exact .inl (List.mem_append_left _ hid)
      · exact .inr hp
      · exact .inl (List.mem_append_right _ hid)
      · exact .inr (allowed.places hp)

/-- In a slot it can miss second definitions only. -/
theorem follows_slots (a : Edited count licence h owed h') (quiet : ¬licence.registers) :
    Follows id (id ∈ owed ∨ licence.redefines) True h h' := by
  induction a with
  | nil => exact (Follows.refl h).mono False.elim False.elim
  | @snoc owed h₁ e _ _ _ allowed ih =>
    have step : Follows id _ _ h₁ (e.apply h₁).1 :=
      h₁.follows_slots_apply fun he => quiet (allowed.registers he)
    refine (ih.trans step).mono ?_ fun _ => trivial
    rintro ((hid | hr) | (hid | hr))
    · exact .inl (List.mem_append_left _ hid)
    · exact .inr hr
    · exact .inl (List.mem_append_right _ hid)
    · exact .inr (allowed.redefines hr)

end Edited

end Heap

end DataBinding
