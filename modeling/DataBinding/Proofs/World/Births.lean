-- Births of watchers. To wire is to create watchers and to change the page. It moves no value and
-- redirects no property, so a watcher that is made on the way reads, at the end, what it read when it
-- was made. Each registry gains the watchers whose walk crosses it, in the order of their creation.
import DataBinding.Proofs.World.Walks
import DataBinding.Binding.Watch

namespace DataBinding.World

/-! ## Wiring -/

/-- One world comes from another one by new watchers and changes of the page. -/
inductive Wires (w : World) : World → Prop where
  | refl : Wires w w
  | page {w' : World} (before : Wires w w') (page : Page Response) : Wires w { w' with page }
  | watch {w' : World} (before : Wires w w') (link : Link) (path : KeyPath)
      (reaction : Reaction) : Wires w (w'.watch link path reaction).1

theorem Wires.trans {w₁ w₂ w₃ : World} (a : Wires w₁ w₂) (b : Wires w₂ w₃) : Wires w₁ w₃ := by
  induction b with
  | refl => exact a
  | page _ page ih => exact ih.page page
  | watch _ link path reaction ih => exact ih.watch link path reaction

/-- A new watcher is registered with all that its path crosses, and nothing else changes. -/
theorem watch_eq (w : World) (link : Link) (path : KeyPath) (reaction : Reaction) :
    w.watch link path reaction =
      ({ w with
          watchers := w.watchers.push ⟨link, path, reaction⟩
          heap := (w.readPath link.table path).crossed.foldl
            (·.register ⟨w.watchers.size + 1⟩) w.heap }, ⟨w.watchers.size + 1⟩) := rfl

/-- A part that collects nothing registers nobody. -/
theorem untracked_evaluate (w : World) (t : TableId) (path : KeyPath) :
    w.untracked (·.evaluate t path) = (w, (w.readPath t path).value) := rfl

/-- The value of a watcher's path. -/
def valueOf (w : World) (watcher : Watcher) : Value :=
  (w.readPath watcher.link.table watcher.path).value

theorem watched_eq (w : World) (watcher : Watcher) :
    w.watched watcher = (w, w.valueOf watcher) :=
  untracked_evaluate w watcher.link.table watcher.path

theorem depend_of_none {w : World} (none : w.collector = none) (crossed : List Registry) :
    w.depend crossed = w := by
  simp [depend, none]

namespace Wires

variable {w w' : World}

theorem tables (wires : Wires w w') : w'.tables = w.tables := by
  induction wires with
  | refl => rfl
  | page _ _ ih => exact ih
  | watch _ _ _ _ ih => exact ih

theorem mounts (wires : Wires w w') : w'.mounts = w.mounts := by
  induction wires with
  | refl => rfl
  | page _ _ ih => exact ih
  | watch _ _ _ _ ih => exact ih

theorem collector (wires : Wires w w') : w'.collector = w.collector := by
  induction wires with
  | refl => rfl
  | page _ _ ih => exact ih
  | watch _ _ _ _ ih => exact ih

theorem size_le (wires : Wires w w') : w.watchers.size ≤ w'.watchers.size := by
  induction wires with
  | refl => exact Nat.le_refl _
  | page _ _ ih => exact ih
  | watch _ _ _ _ ih =>
    rw [watch_eq, Array.size_push]
    exact Nat.le_succ_of_le ih

/-- Watchers that were there stay as they are. -/
theorem watcher? (wires : Wires w w') {id : WatcherId} (among : id.Among w.watchers.size) :
    w'.watcher? id = w.watcher? id := by
  induction wires with
  | refl => rfl
  | page _ _ ih => exact ih
  | @watch w₁ before _ _ _ ih =>
    have hlt := before.size_le
    have hid := among
    unfold WatcherId.Among at hid
    rw [← ih, watch_eq, World.watcher?, World.watcher?, Array.getElem?_push, if_neg (by omega)]

theorem sameFaces (wires : Wires w w') : Heap.SameFaces w.heap w'.heap := by
  induction wires with
  | refl => exact .refl _
  | page _ _ ih => exact ih
  | watch _ _ _ _ ih => exact ih.trans (Heap.sameFaces_foldl_register _ _ _)

theorem readPath (wires : Wires w w') (t : TableId) (path : KeyPath) :
    w'.readPath t path = w.readPath t path := readPath_congr wires.tables wires.sameFaces t path

theorem valueOf (wires : Wires w w') (watcher : Watcher) :
    w'.valueOf watcher = w.valueOf watcher := by
  simp only [World.valueOf, wires.readPath]

theorem hops (wires : Wires w w') (t : TableId) (path : KeyPath) :
    w'.hops t path = w.hops t path := hops_congr wires.tables wires.sameFaces t path

theorem closed (wires : Wires w w') (closed : w.heap.Closed) : w'.heap.Closed := by
  induction wires with
  | refl => exact closed
  | page _ _ ih => exact ih
  | watch _ _ _ _ ih => exact Heap.closed_foldl_register ih _ _

theorem tidy (wires : Wires w w') (tidy : w.heap.Tidy) : w'.heap.Tidy := by
  induction wires with
  | refl => exact tidy
  | page _ _ ih => exact ih
  | watch _ link path _ ih =>
    exact Heap.tidy_foldl_register ih _ fun l hl => isObserved_of_crossed ih.slots hl

theorem enrolled (wires : Wires w w') (enrolled : w.heap.Enrolled w.watchers.size) :
    w'.heap.Enrolled w'.watchers.size := by
  induction wires with
  | refl => exact enrolled
  | page _ _ ih => exact ih
  | @watch w₁ _ _ _ _ ih =>
    rw [watch_eq, Array.size_push]
    exact Heap.enrolled_foldl_register (ih.mono (Nat.le_succ _)) ⟨Nat.succ_pos _, Nat.le_refl _⟩ _

end Wires

/-! ## The watchers that are born -/

/-- The watchers that were made after the first so many, in the order of their creation. -/
def bornSince (w : World) (count : Nat) : List WatcherId :=
  (List.range' (count + 1) (w.watchers.size - count)).map WatcherId.mk

/-- Whether the walk of a watcher crosses a registry. -/
def Passes (w : World) (r : Registry) (id : WatcherId) : Prop :=
  ∃ watcher, w.watcher? id = some watcher ∧
    ∃ hop ∈ w.hops watcher.link.table watcher.path, hop.Crosses r

instance (w : World) (r : Registry) (id : WatcherId) : Decidable (w.Passes r id) :=
  match h : w.watcher? id with
  | none => .isFalse fun ⟨_, e, _⟩ => by simp [h] at e
  | some watcher =>
    decidable_of_iff (∃ hop ∈ w.hops watcher.link.table watcher.path, hop.Crosses r)
      ⟨fun hop => ⟨watcher, h, hop⟩, fun ⟨_, e, hop⟩ => by
        rw [h] at e
        cases e
        exact hop⟩

theorem mem_bornSince {w : World} {count : Nat} {id : WatcherId} :
    id ∈ w.bornSince count ↔ count < id.index ∧ id.index ≤ w.watchers.size := by
  simp only [bornSince, List.mem_map, List.mem_range'_1]
  constructor
  · rintro ⟨i, hi, rfl⟩
    simp only
    omega
  · intro hid
    exact ⟨id.index, by omega, rfl⟩

theorem bornSince_of_le {w : World} {count : Nat} (le : w.watchers.size ≤ count) :
    w.bornSince count = [] := by
  simp [bornSince, Nat.sub_eq_zero_of_le le]

theorem bornSince_watch {w : World} {count : Nat} (le : count ≤ w.watchers.size) (link : Link)
    (path : KeyPath) (reaction : Reaction) :
    (w.watch link path reaction).1.bornSince count =
      w.bornSince count ++ [⟨w.watchers.size + 1⟩] := by
  have size : (w.watch link path reaction).1.watchers.size - count =
      w.watchers.size - count + 1 := by
    rw [watch_eq, Array.size_push]
    omega
  have last : count + 1 + (w.watchers.size - count) = w.watchers.size + 1 := by omega
  rw [bornSince, size, List.range'_1_concat, List.map_append, last]
  rfl

/-- Every watcher that wiring makes is made at a moment of it: what comes before has not made it, and
what comes after finds it there. -/
theorem Wires.exists_watch {w w' : World} (wires : Wires w w') {id : WatcherId}
    (born : id ∈ w'.bornSince w.watchers.size) :
    ∃ (w₁ : World) (watcher : Watcher), Wires w w₁ ∧ id = ⟨w₁.watchers.size + 1⟩ ∧
      (w₁.watch watcher.link watcher.path watcher.reaction).1.Wires w' := by
  induction wires with
  | refl =>
    rw [bornSince_of_le (Nat.le_refl _)] at born
    cases born
  | page _ page ih =>
    obtain ⟨w₁, watcher, before, number, after⟩ := ih born
    exact ⟨w₁, watcher, before, number, after.page page⟩
  | @watch w₁ before link path reaction ih =>
    rw [bornSince_watch before.size_le] at born
    rcases List.mem_append.mp born with earlier | newest
    · obtain ⟨w₂, watcher, before', number, after⟩ := ih earlier
      exact ⟨w₂, watcher, before', number, after.watch link path reaction⟩
    · exact ⟨w₁, ⟨link, path, reaction⟩, before, List.mem_singleton.mp newest, .refl⟩

theorem Wires.passes_iff {w w' : World} (wires : Wires w w') (r : Registry) {id : WatcherId}
    (among : id.Among w.watchers.size) : w'.Passes r id ↔ w.Passes r id := by
  simp only [Passes, wires.watcher? among, wires.hops]

theorem passes_watch_iff (w : World) (link : Link) (path : KeyPath) (reaction : Reaction)
    (r : Registry) : (w.watch link path reaction).1.Passes r ⟨w.watchers.size + 1⟩ ↔
      r ∈ (w.readPath link.table path).crossed := by
  have there : (w.watch link path reaction).1.watcher? ⟨w.watchers.size + 1⟩ =
      some ⟨link, path, reaction⟩ := by
    rw [watch_eq, watcher?]
    simp
  have same := (Wires.refl.watch link path reaction : Wires w _).hops link.table path
  rw [mem_readPath_crossed_iff, ← same]
  constructor
  · rintro ⟨watcher, e, hop⟩
    rw [there] at e
    cases e
    exact hop
  · exact fun hop => ⟨_, there, hop⟩

/-- A registry gains the new watchers that cross it, in the order of their creation. -/
theorem Wires.watchers? {w w' : World} (wires : Wires w w')
    (enrolled : w.heap.Enrolled w.watchers.size) (r : Registry) :
    w'.heap.watchers? r = (w.heap.watchers? r).map
      (· ++ (w'.bornSince w.watchers.size).filter fun id => w'.Passes r id) := by
  induction wires with
  | refl => simp [bornSince_of_le (Nat.le_refl _)]
  | page before page ih => exact ih
  | @watch w₁ before link path reaction ih =>
    have old : (w₁.bornSince w.watchers.size).filter
        (fun id => (w₁.watch link path reaction).1.Passes r id) =
        (w₁.bornSince w.watchers.size).filter fun id => w₁.Passes r id := by
      apply List.filter_congr
      intro id hid
      have hid := mem_bornSince.mp hid
      have among : id.Among w₁.watchers.size := ⟨by omega, hid.2⟩
      simpa using (Wires.refl.watch link path reaction).passes_iff r among
    rw [bornSince_watch before.size_le, List.filter_append, old]
    have heap : (w₁.watch link path reaction).1.heap =
        (w₁.readPath link.table path).crossed.foldl (·.register ⟨w₁.watchers.size + 1⟩) w₁.heap :=
      rfl
    rw [heap, Heap.watchers?_foldl_register, ih]
    by_cases hr : r ∈ (w₁.readPath link.table path).crossed
    · rcases hws : w.heap.watchers? r with _ | ws
      · simp
      · -- the newest watcher is in no registry yet
        have fresh : (⟨w₁.watchers.size + 1⟩ : WatcherId) ∉
            ws ++ (w₁.bornSince w.watchers.size).filter fun id => w₁.Passes r id := by
          intro mem
          have hall := (before.enrolled enrolled) r _ (by rw [ih, hws, Option.map_some])
          have := (hall.2 _ mem).2
          simp only at this
          omega
        simp [hr, (passes_watch_iff w₁ link path reaction r).mpr hr, enlist_of_not_mem fresh]
    · have : ¬(w₁.watch link path reaction).1.Passes r ⟨w₁.watchers.size + 1⟩ :=
        fun hp => hr ((passes_watch_iff w₁ link path reaction r).mp hp)
      simp [hr, this]

end DataBinding.World
