-- Held walks. A walk is held by a watcher if each of its hops goes through a slot that the watcher is
-- registered with, and it ends at no container. As long as such a slot does not change behind the
-- watcher's back, a walk that is held afterwards was held before and led to the same value. What is
-- assigned to the path of a held walk is written to its last slot.
import DataBinding.Proofs.World.Coverage

namespace DataBinding

variable {id : WatcherId}

namespace Heap

/-- Each hop of the walk along the segments reads a slot that the watcher is registered with, and the value
at its end is no container. -/
def Holds (h : Heap) (id : WatcherId) : Value → List String → Prop
  | v, [] => v.container? = none
  | .map m, segment :: rest => ∃ e, h.lookup? m segment = some e ∧
    id ∈ h.watchers (.slot m segment) ∧ h.Holds id e.value rest
  | _, _ :: _ => False

theorem Holds.scalar {h : Heap} {v : Value} {segments : List String}
    (holds : h.Holds id v segments) : (h.reach v segments).container? = none := by
  fun_induction Heap.Holds h id v segments with
  | case1 v => rwa [reach_nil]
  | case2 m segment rest ih =>
    obtain ⟨e, he, _, holds⟩ := holds
    rw [reach_of_present he]
    exact ih e holds
  | case3 => exact holds.elim

/-- What a watcher holds afterwards it held before, and it led to the same value. -/
theorem Follows.holds {h h' : Heap} {moved : Prop} (f : Follows id False moved h h') {v : Value}
    {segments : List String} (holds : h'.Holds id v segments) :
    h.Holds id v segments ∧ h'.reach v segments = h.reach v segments := by
  induction segments generalizing v with
  | nil =>
    refine ⟨?_, by rw [reach_nil, reach_nil]⟩
    cases v <;> exact holds
  | cons segment rest ih =>
    cases v with
    | map m =>
      obtain ⟨e', he', hid, holds⟩ := holds
      have hp := (f.slots m segment hid).resolve_right fun no => no
      simp only [peek, he', Option.map_some] at hp
      obtain ⟨e, he, hv⟩ := Option.map_eq_some_iff.mp hp.symm
      obtain ⟨before, same⟩ := ih holds
      refine ⟨⟨e, he, f.joined _ hid, hv ▸ before⟩, ?_⟩
      rw [reach_of_present he', reach_of_present he, same, hv]
    | list _ | null | bool _ | number _ | text _ => exact holds.elim

/-- A held walk ends in a slot that the watcher is registered with. -/
theorem Holds.last {h : Heap} {start : Reading} {segments : List String} (ne : segments ≠ [])
    (holds : h.Holds id start.value segments) :
    ∃ r m e ws, h.walk? start segments.dropLast = some r ∧ r.value = .map m ∧
      h.lookup? m (segments.getLast ne) = some e ∧ e.watchers = some ws ∧ id ∈ ws ∧
      e.value = h.reach start.value segments := by
  induction segments generalizing start with
  | nil => exact absurd rfl ne
  | cons segment rest ih =>
    rcases start with ⟨v, crossed⟩
    cases v with
    | map m =>
      obtain ⟨e, he, hid, holds⟩ := holds
      rcases rest with _ | ⟨next, others⟩
      · obtain ⟨ws, hws, hid⟩ := mem_watchers_iff.mp hid
        refine ⟨⟨.map m, crossed⟩, m, e, ws, rfl, rfl, he, ?_, hid, ?_⟩
        · simpa [watchers?, he] using hws
        · rw [reach_of_present he, reach_nil]
      · have hop : h.hop (.map m) segment = some ⟨e.value, crossedBy m e⟩ := by
          simp [Heap.hop, read, he]
        obtain ⟨r, m', e', ws, walk, rest⟩ :=
          @ih ⟨e.value, crossed ++ crossedBy m e⟩ (List.cons_ne_nil _ _) holds
        refine ⟨r, m', e', ws, ?_, ?_⟩
        · rw [List.dropLast_cons_of_ne_nil (List.cons_ne_nil _ _), walk?_cons, hop]
          exact walk
        · rw [reach_of_present he]
          exact rest
    | list _ | null | bool _ | number _ | text _ => exact holds.elim

/-- The text of a value that is no container does not depend on the heap. -/
theorem render_of_scalar {v : Value} (scalar : v.container? = none) (h h' : Heap) :
    h'.render v = h.render v := by
  cases v with
  | map _ | list _ => cases scalar
  | null | bool _ | number _ | text _ => rfl

end Heap

namespace World

/-- The head property leads to a live container, and the walk from there is held. -/
def Holds (w : World) (id : WatcherId) (watcher : Watcher) : Prop :=
  ∃ m, w.target? watcher.link.table watcher.path.head = some m ∧
    w.heap.Holds id (.map m) watcher.path.segments

theorem headOf_of_target? {w : World} {watcher : Watcher} {m : MapId}
    (target : w.target? watcher.link.table watcher.path.head = some m) :
    w.headOf watcher = some m := (Option.filter_eq_some_iff.mp target).1

theorem target?_of_headOf {w : World} {watcher : Watcher} {m : MapId} {key : String} {e : Entry}
    (head : w.headOf watcher = some m) (there : w.heap.lookup? m key = some e) :
    w.target? watcher.link.table watcher.path.head = some m := by
  obtain ⟨c, hc, _⟩ := Heap.lookup?_eq_some_iff.mp there
  have lookup : (w.table watcher.link.table).properties.lookup watcher.path.head = some m := head
  simp [target?, lookup, Heap.isLive, hc]

theorem valueOf_of_target? {w : World} {watcher : Watcher} {m : MapId}
    (target : w.target? watcher.link.table watcher.path.head = some m) :
    w.valueOf watcher = w.heap.reach (.map m) watcher.path.segments := by
  rw [World.valueOf, readPath_value, target]

theorem Holds.scalar {w : World} {watcher : Watcher} (holds : w.Holds id watcher) :
    (w.valueOf watcher).container? = none := by
  obtain ⟨m, target, walk⟩ := holds
  rw [valueOf_of_target? target]
  exact walk.scalar

/-- A watcher that is registered somewhere has a head property. -/
def Anchors (w : World) (id : WatcherId) (watcher : Watcher) : Prop :=
  ∀ r, id ∈ w.heap.watchers r → w.headOf watcher ≠ none

/-- A watcher who follows the slots of the heap, and whose head property stays as long as it is registered
somewhere, holds only what it held before, and its value is the same. -/
theorem holds_of_follows {w w' : World} {watcher : Watcher} {moved : Prop}
    (f : Heap.Follows id False moved w.heap w'.heap)
    (stays : ∀ r, id ∈ w.heap.watchers r → w'.headOf watcher = w.headOf watcher)
    (holds : w'.Holds id watcher) :
    w.Holds id watcher ∧ w'.valueOf watcher = w.valueOf watcher := by
  obtain ⟨m, target', walk'⟩ := holds
  obtain ⟨walk, same⟩ := f.holds walk'
  have hops : w.heap.Holds id (.map m) (watcher.path.head :: watcher.path.rest) := walk
  obtain ⟨e, there, registered, _⟩ := hops
  have head : w.headOf watcher = some m :=
    (stays _ registered).symm.trans (headOf_of_target? target')
  have target := target?_of_headOf head there
  refine ⟨⟨m, target, walk⟩, ?_⟩
  rw [valueOf_of_target? target', valueOf_of_target? target, same]

end World

end DataBinding
