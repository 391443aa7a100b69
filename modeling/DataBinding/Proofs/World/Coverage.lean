-- Covered walks. A walk is covered by a watcher if each of its hops goes through a slot or a list that
-- the watcher is registered with, or ends at an absent key. Where a watcher follows the changes of a
-- heap, a walk that is covered afterwards was covered before and led to the same value.
import DataBinding.Proofs.World.Births

namespace DataBinding

variable {id : WatcherId}

namespace Heap

/-! ## Covered walks -/

/-- Each hop of the walk along the segments reads a slot that the watcher is registered with, a key
that is absent, or a position of a list that the watcher is registered with. -/
def Covers (h : Heap) (id : WatcherId) : Value → List String → Prop
  | _, [] => True
  | .map m, segment :: rest => h.Lacks m segment ∨
    ∃ e, h.lookup? m segment = some e ∧ id ∈ h.watchers (.slot m segment) ∧ h.Covers id e.value rest
  | .list l, segment :: rest => Text.position? segment = none ∨
    (id ∈ h.watchers (.list l) ∧ h.Covers id (h.itemAt l segment) rest)
  | _, _ :: _ => True

theorem reach_of_absent {h : Heap} {m : MapId} {segment : String}
    (absent : h.lookup? m segment = none) (rest : List String) :
    h.reach (.map m) (segment :: rest) = .null := by
  simp [reach, absent]

theorem reach_of_present {h : Heap} {m : MapId} {segment : String} {e : Entry}
    (he : h.lookup? m segment = some e) (rest : List String) :
    h.reach (.map m) (segment :: rest) = h.reach e.value rest := by
  simp [reach, he]

/-- What a watcher covers afterwards it covered before, and it led to the same value. -/
theorem Follows.covers {h h' : Heap} (f : Follows id False False h h') (v : Value)
    (segments : List String) (covers : h'.Covers id v segments) :
    h.Covers id v segments ∧ h'.reach v segments = h.reach v segments := by
  induction segments generalizing v with
  | nil =>
    cases v <;> exact ⟨trivial, by rw [reach_nil, reach_nil]⟩
  | cons segment rest ih =>
    cases v with
    | map m =>
      rcases covers with absent | ⟨e', he', hid, covers⟩
      · have before := f.lacks m segment absent
        exact ⟨.inl before, by rw [reach_of_absent absent.1, reach_of_absent before.1]⟩
      · have hp := (f.slots m segment hid).resolve_right fun no => no
        simp only [peek, he', Option.map_some] at hp
        obtain ⟨e, he, hv⟩ := Option.map_eq_some_iff.mp hp.symm
        obtain ⟨before, same⟩ := ih e'.value covers
        refine ⟨.inr ⟨e, he, f.joined _ hid, hv ▸ before⟩, ?_⟩
        rw [reach_of_present he', reach_of_present he, same, hv]
    | list l =>
      simp only [reach]
      rcases covers with no | ⟨hid, covers⟩
      · refine ⟨.inl no, ?_⟩
        simp [itemAt, no]
      · have hi := (f.lists l hid).resolve_right fun no => no
        have item : h'.itemAt l segment = h.itemAt l segment := by
          have : h'.item? l = h.item? l := funext fun i => by rw [item?_eq, item?_eq, hi]
          simp [itemAt, this]
        rw [item] at covers ⊢
        obtain ⟨before, same⟩ := ih _ covers
        exact ⟨.inr ⟨f.joined _ hid, before⟩, same⟩
    | null | bool _ | number _ | text _ => exact ⟨trivial, rfl⟩

end Heap

namespace World

/-- The head property leads to a live container, and the walk from there is covered. -/
def Covers (w : World) (id : WatcherId) (watcher : Watcher) : Prop :=
  ∃ m, w.target? watcher.link.table watcher.path.head = some m ∧
    w.heap.Covers id (.map m) watcher.path.segments

/-- The container behind the head property of a watcher, be it live or not. -/
def headOf (w : World) (watcher : Watcher) : Option MapId :=
  (w.table watcher.link.table).properties.lookup watcher.path.head

/-- A walk from the head property, if there is one, is covered. -/
def Tracks (w : World) (id : WatcherId) (watcher : Watcher) : Prop :=
  ∀ m, w.headOf watcher = some m → w.heap.Covers id (.map m) watcher.path.segments

theorem Covers.tracks {w : World} {watcher : Watcher} (covers : w.Covers id watcher) :
    w.Tracks id watcher := by
  obtain ⟨m, target, covers⟩ := covers
  intro m' head
  have : w.headOf watcher = some m := (Option.filter_eq_some_iff.mp target).1
  rw [this] at head
  cases head
  exact covers

/-- A released container has no key, so the walk from a head may start at any container. -/
theorem valueOf_of_head {w : World} {watcher : Watcher} {m : MapId}
    (head : w.headOf watcher = some m) :
    w.valueOf watcher = w.heap.reach (.map m) watcher.path.segments := by
  have lookup : (w.table watcher.link.table).properties.lookup watcher.path.head = some m := head
  unfold valueOf
  rw [readPath_value]
  rcases live : w.heap.isLive (.map m) with _ | _
  · have dead : w.heap.map? m = none := by simpa [Heap.isLive] using live
    have none : w.target? watcher.link.table watcher.path.head = none := by
      simp [target?, lookup, live]
    rw [none, KeyPath.segments, Heap.reach_of_absent (by simp [Heap.lookup?, dead])]
  · have target : w.target? watcher.link.table watcher.path.head = some m := by
      simp [target?, lookup, live]
    rw [target]

theorem valueOf_of_no_head {w : World} {watcher : Watcher} (none : w.headOf watcher = none) :
    w.valueOf watcher = .null := by
  have lookup : (w.table watcher.link.table).properties.lookup watcher.path.head = .none := none
  have target : w.target? watcher.link.table watcher.path.head = .none := by
    simp [target?, lookup]
  unfold valueOf
  rw [readPath_value, target]

/-- Whoever is registered has a head property. -/
def Rooted (w : World) : Prop :=
  ∀ r id, id ∈ w.heap.watchers r → ∃ watcher, w.watcher? id = some watcher ∧
    w.headOf watcher ≠ none

/-- A watcher whose head property stays, and who follows the heap, tracks only what it tracked
before, and its value is the same. -/
theorem tracks_of_follows {w w' : World} {watcher : Watcher}
    (f : Heap.Follows id False False w.heap w'.heap)
    (there : w.watcher? id = some watcher) (rooted : w.Rooted)
    (stays : ∀ m, w.headOf watcher = some m → w'.headOf watcher = some m)
    (tracks : w'.Tracks id watcher) :
    w.Tracks id watcher ∧ w'.valueOf watcher = w.valueOf watcher := by
  rcases head : w.headOf watcher with _ | m
  · refine ⟨fun m hm => by simp [head] at hm, ?_⟩
    rw [valueOf_of_no_head head]
    rcases head' : w'.headOf watcher with _ | m'
    · exact valueOf_of_no_head head'
    · rw [valueOf_of_head head', KeyPath.segments]
      rcases tracks m' head' with absent | ⟨e, _, hid, _⟩
      · exact Heap.reach_of_absent absent.1 _
      · -- a watcher that never had a head property is registered nowhere
        obtain ⟨watcher', there', hne⟩ := rooted _ id (f.joined _ hid)
        rw [there] at there'
        cases there'
        exact absurd head hne
  · obtain ⟨covers, same⟩ := f.covers _ _ (tracks m (stays m head))
    refine ⟨fun m' hm' => ?_, ?_⟩
    · rw [head] at hm'
      cases hm'
      exact covers
    · rw [valueOf_of_head head, valueOf_of_head (stays m head), same]

/-- New watchers and changes of the page escape no watcher that was there. -/
theorem Wires.follows {w w' : World} (wires : Wires w w')
    (enrolled : w.heap.Enrolled w.watchers.size) (among : id.Among w.watchers.size) :
    Heap.Follows id False False w.heap w'.heap := by
  have faces := wires.sameFaces
  refine ⟨?_, ?_, fun l _ => .inl (faces.items l), ?_⟩
  · intro r hid
    obtain ⟨ws', hws', hid⟩ := Heap.mem_watchers_iff.mp hid
    rw [wires.watchers? enrolled] at hws'
    obtain ⟨ws, hws, rfl⟩ := Option.map_eq_some_iff.mp hws'
    rcases List.mem_append.mp hid with hid | hid
    · exact Heap.mem_watchers_iff.mpr ⟨ws, hws, hid⟩
    · have := (mem_bornSince.mp (List.mem_filter.mp hid).1).1
      have := among.2
      omega
  · intro m key _
    left
    have e := faces.entries m key
    unfold Heap.peek
    rcases he : w.heap.lookup? m key with _ | x
    · simp_all
    · rcases he' : w'.heap.lookup? m key with _ | x'
      · simp_all
      · simp_all [Entry.face]
  · rintro m key ⟨absent, there⟩
    refine ⟨?_, fun gone => there ((faces.gone_iff _).mpr gone)⟩
    have e := faces.entries m key
    rw [absent] at e
    simpa using e.symm

theorem headOf_ne_none_of_passes {w : World} {r : Registry} (passes : w.Passes r id) :
    ∃ watcher, w.watcher? id = some watcher ∧ w.headOf watcher ≠ none := by
  obtain ⟨watcher, there, hop, mem, _⟩ := passes
  refine ⟨watcher, there, fun none => ?_⟩
  have lookup : (w.table watcher.link.table).properties.lookup watcher.path.head = .none := none
  simp [hops, target?, lookup] at mem

end World

end DataBinding
