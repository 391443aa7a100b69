-- What a value looks like. Its document and its text are made of keys, values and items, so they do not
-- depend on who is registered where.
import DataBinding.Proofs.Heap.Registration
import DataBinding.Model.Document

namespace DataBinding

/-! ## Documents of snapshots -/

theorem Document.ofEntries_map {α : Type} (key : α → String)
    (watchers : α → Option (List WatcherId)) (show' : α → Snapshot) (xs : List α) :
    Document.ofEntries (xs.map fun x => (key x, watchers x, show' x)) =
      xs.map fun x => (key x, Document.ofSnapshot (show' x)) := by
  induction xs with
  | nil => simp [Document.ofEntries]
  | cons x rest ih => simp [Document.ofEntries, ih]

theorem Document.ofItems_map {α : Type} (show' : α → Snapshot) (xs : List α) :
    Document.ofItems (xs.map show') = xs.map fun x => Document.ofSnapshot (show' x) := by
  induction xs with
  | nil => simp [Document.ofItems]
  | cons x rest ih => simp [Document.ofItems, ih]

namespace Heap.SameFaces

variable {h h' : Heap}

/-- Heaps that differ in the watchers of their registries only make the same documents. -/
theorem ofSnapshot (s : SameFaces h h') (fuel : Nat) (opened : List Container) (v : Value) :
    Document.ofSnapshot (h'.snapshotIn fuel opened v) =
      Document.ofSnapshot (h.snapshotIn fuel opened v) := by
  induction fuel generalizing opened v with
  | zero => cases v <;> simp only [snapshotIn]
  | succ fuel ih =>
    cases v with
    | map m =>
      have e := s.maps m
      simp only [snapshotIn]
      rcases depthAmong? (.map m) opened with _ | depth
      · rcases hc : h.map? m with _ | c
        · rcases hc' : h'.map? m with _ | c'
          · rfl
          · simp [hc, hc'] at e
        · obtain ⟨c', hc', faces⟩ := Option.map_eq_some_iff.mp (e.trans (by rw [hc]; rfl))
          have keyed (c : MapCell) : (c.entries.map fun e => (e.key,
              Document.ofSnapshot (h.snapshotIn fuel (.map m :: opened) e.value))) =
              c.face.1.map fun face => (face.1,
                Document.ofSnapshot (h.snapshotIn fuel (.map m :: opened) face.2.1)) := by
            rw [MapCell.face, List.map_map]
            rfl
          simp only [hc', Document.ofSnapshot, Document.ofEntries_map, ih]
          rw [keyed, keyed, faces]
      · rfl
    | list l =>
      have e := s.lists l
      simp only [snapshotIn]
      rcases depthAmong? (.list l) opened with _ | depth
      · rcases hc : h.list? l with _ | c
        · rcases hc' : h'.list? l with _ | c'
          · rfl
          · simp [hc, hc'] at e
        · obtain ⟨c', hc', faces⟩ := Option.map_eq_some_iff.mp (e.trans (by rw [hc]; rfl))
          have items : c'.items = c.items := congrArg Prod.fst faces
          simp only [hc', Document.ofSnapshot, Document.ofItems_map, ih, items]
      · rfl
    | null | bool _ | number _ | text _ => simp only [snapshotIn]

theorem document (s : SameFaces h h') (v : Value) : h'.document v = h.document v := by
  unfold Heap.document snapshot
  rw [s.size_maps, s.size_lists, s.ofSnapshot]

theorem render (s : SameFaces h h') (v : Value) : h'.render v = h.render v := by
  cases v with
  | map m => simp only [Heap.render, s.document]
  | list l => simp only [Heap.render, s.document]
  | null | bool _ | number _ | text _ => rfl

end Heap.SameFaces

end DataBinding
