-- Models that are rejected. A view takes a map as its model. Any other value is observed before it is
-- rejected, and nothing takes that back; all the rest of the world stays as it was.
import DataBinding.Binding.MountedView
import DataBinding.Proofs.Heap.Spreading
import Mathlib

namespace DataBinding.World

theorem mountView_of_rejected {plan : ViewPlan} (noMap : ∀ m, plan.data ≠ .map m) (w : World) :
    w.mountView plan =
      ({ w with heap := w.heap.observe plan.data }, .error .dataNotAMap) := by
  unfold mountView
  cases h : plan.data with
  | map m => exact absurd h (noMap m)
  | null | bool _ | number _ | text _ | list _ => rfl

/-- A world with a map that has one plain field, inside a list. Nobody observes them. -/
def listOfMap : World :=
  { World.empty with heap := ((Heap.empty.newMap [("a", .null)]).1.newList [.map ⟨0⟩]).1 }

/-- A view whose model is that list. -/
def listPlan : ViewPlan := ⟨.list ⟨0⟩, [], none, .standard⟩

/-- The list is rejected, but it has become observed, and so has the map in it, whose field is a slot. -/
theorem rejected_list_is_observed :
    (listOfMap.mountView listPlan).2 = .error .dataNotAMap ∧
      listOfMap.heap.mark? (.list ⟨0⟩) = some false ∧
      (listOfMap.mountView listPlan).1.heap.mark? (.list ⟨0⟩) = some true ∧
      listOfMap.heap.isSlot ⟨0⟩ "a" = false ∧
      (listOfMap.mountView listPlan).1.heap.isSlot ⟨0⟩ "a" = true := by
  cbv

/-- A model that is not a map is rejected, and nothing has changed but the heap, which is as after the
observation of the model: newly marked is what the model leads to through containers that were not
observed, the keys of newly marked maps are slots, with fresh registries where they were plain fields,
and keys, values, items and registries are as before. A model that was observed already, such as a
scalar, leaves the whole world as it was, and so does a second attempt. -/
theorem rejection_observes_only (w : World) (plan : ViewPlan) (noMap : ∀ m, plan.data ≠ .map m) :
    (w.mountView plan).2 = .error .dataNotAMap ∧
      (w.mountView plan).1 = { w with heap := (w.mountView plan).1.heap } ∧
      w.heap.Observes plan.data (w.mountView plan).1.heap ∧
      (w.heap.IsObserved plan.data → (w.mountView plan).1 = w) ∧
      ((w.mountView plan).1.mountView plan).1 = (w.mountView plan).1 := by
  have again := Heap.observe_of_isObserved (w.heap.isObserved_observe plan.data)
  simp only [mountView_of_rejected noMap]
  refine ⟨trivial, trivial, w.heap.observes_observe _, fun observed => ?_, ?_⟩
  · rw [Heap.observe_of_isObserved observed]
  · rw [again]

theorem rejection_of_list_observes_only :
    (listOfMap.mountView listPlan).2 = .error .dataNotAMap ∧
      listOfMap.heap.Observes (.list ⟨0⟩) (listOfMap.mountView listPlan).1.heap := by
  have rejected := rejection_observes_only listOfMap listPlan (by simp [listPlan])
  exact ⟨rejected.1, rejected.2.2.1⟩

end DataBinding.World
