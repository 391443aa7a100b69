-- Assignments. To assign to a path is to put the value at the site that the path names: the key of its
-- head property, or what its last segment names in the value of the path of its parents. Without such
-- a site the assignment is refused and nothing changes. Otherwise one site is written, the path reads
-- the value from then on, and paths that do not visit the site read what they read before.
import DataBinding.Proofs.Session.Deeds.Moves
import DataBinding.Proofs.Session.Ownership
import DataBinding.Proofs.World.Sites

namespace DataBinding

/-! ## Values that read back -/

def Value.isNaN : Value → Bool
  | .number n => n.isNaN
  | _ => false

/-- Two values are strictly equal, or both are NaN. -/
def Value.ReadsAs (x v : Value) : Prop := x.same v = true ∨ x.isNaN = true ∧ v.isNaN = true

theorem Value.readsAs_self (v : Value) : v.ReadsAs v := by
  cases v with
  | number n =>
    rcases hn : n.isNaN with _ | _
    · exact .inl (by simp [same, Number.sameValue, hn])
    · exact .inr ⟨hn, hn⟩
  | null | bool _ | text _ | map _ | list _ => exact .inl (by simp [same])

namespace Heap

/-! ## Writes to a site -/

/-- Puts a value at a site. -/
def put (h : Heap) (v : Value) : Site → Heap × List WatcherId
  | .key m key => h.set m key v
  | .position l i => (h.setItem l i v, [])

/-- A value has been written to a site, and to no other one: what is live stays so, and every other
site holds what it held, but for the nulls that fill a list up to the position. -/
structure Writes (h h' : Heap) (site : Site) (v : Value) : Prop where
  live : ∀ c, h'.isLive c = h.isLive c
  arrives : ∃ x, h'.held? site = some x ∧ x.ReadsAs v
  others : ∀ other ≠ site, h'.held? other = h.held? other ∨
    other.Before site ∧ h.held? other = none ∧ h'.held? other = some .null

namespace Writes

variable {h h₁ h' : Heap} {site other : Site} {v : Value}

/-- The nulls of a filled list read as its missing items did. -/
theorem valueAt (writes : Writes h h' site v) (ne : other ≠ site) :
    h'.valueAt other = h.valueAt other := by
  unfold Heap.valueAt
  rcases writes.others other ne with same | ⟨_, before, after⟩
  · rw [same]
  · rw [before, after]
    rfl

theorem of_observed (o : ObservedFrom h h₁) (writes : Writes h₁ h' site v) :
    Writes h h' site v := by
  refine ⟨fun c => (writes.live c).trans (o.isLive c), writes.arrives, fun other ne => ?_⟩
  rw [← o.held? other]
  exact writes.others other ne

end Writes

theorem writes_store {h : Heap} {m : MapId} (live : h.isLive (.map m) = true) (key : String)
    (v : Value) : Writes h (h.changeMap m (·.store key v)) (.key m key) v := by
  refine ⟨h.isLive_changeMap m _, ⟨v, Call.peek_store live key v, v.readsAs_self⟩, ?_⟩
  exact fun other ne => .inl (held?_store v ne)

theorem item?_setItem {h : Heap} {l : ListId} {c : ListCell} (live : h.list? l = some c)
    (i j : Nat) (v : Value) : (h.setItem l i v).item? l j =
      if j = i then some v else if j < i ∧ c.items.length ≤ j then some .null else h.item? l j := by
  simp only [setItem, item?, list?_changeList, if_true, live, Option.map_some, Option.bind_some,
    List.getElem?_set, List.length_append, List.length_replicate, List.getElem?_append,
    List.getElem?_replicate]
  grind

theorem writes_setItem {h : Heap} {l : ListId} (live : h.isLive (.list l) = true) (i : Nat)
    (v : Value) : Writes h (h.setItem l i v) (.position l i) v := by
  obtain ⟨c, hc⟩ := Option.isSome_iff_exists.mp live
  refine ⟨h.isLive_changeList l _, ⟨v, ?_, v.readsAs_self⟩, ?_⟩
  · simp [held?, item?_setItem hc]
  · intro other ne
    cases other with
    | key m key => exact .inl (by simp [held?, peek, setItem])
    | position l' j =>
      by_cases same : l' = l
      · subst same
        have differ : j ≠ i := fun same => ne (same ▸ rfl)
        simp only [held?, item?_setItem hc, if_neg differ]
        split
        · rename_i filled
          refine .inr ⟨⟨rfl, filled.1⟩, ?_, rfl⟩
          simp [item?, hc, filled.2]
        · exact .inl rfl
      · refine .inl ?_
        simp only [held?, setItem, item?, list?_changeList, if_neg same]

/-- To put a value at a site of a live container is to write it there, and nowhere else. A slot that
has the value already is left alone. -/
theorem writes_put {h : Heap} {site : Site} (live : h.isLive site.container = true) (v : Value) :
    Writes h (h.put v site).1 site v := by
  cases site with
  | key m key =>
    show Writes h (h.set m key v).1 (.key m key) v
    rcases h.set_cases m key v with ⟨old, ws, he, same, e⟩ | ⟨old, ws, he, _, e⟩ | ⟨_, e⟩
    · rw [e]
      exact ⟨fun _ => rfl, ⟨old, by simp [held?, peek, he], .inl same⟩, fun _ _ => .inl rfl⟩
    · rw [e]
      have o := h.observedFrom_observe v
      exact (writes_store ((o.isLive _).trans live) key v).of_observed o
    · rw [e]
      exact writes_store live key v
  | position l i => exact writes_setItem live i v

end Heap

/-! ## The site that a path names -/

namespace KeyPath

/-- The path of the segments before the last one; a single segment stands for itself. -/
def parent (p : KeyPath) : KeyPath :=
  let rest := p.rest.dropLast
  ⟨".".intercalate (p.head :: rest), p.head, rest⟩

end KeyPath

namespace World

variable {w : World}

/-- An assignment to a path is refused if it is simple and its head is no property with a live
container, or if its parents lead to no container, or to a list in which the last segment is no position. -/
def Refuses (w : World) (t : TableId) (path : KeyPath) : Prop :=
  if path.isSimple then w.target? t path.head = none
  else
    match (w.evaluate t path.parent).2 with
    | .map _ => False
    | .list _ => Text.position? path.last = none
    | _ => True

/-- The site that a path names. -/
def site? (w : World) (t : TableId) (path : KeyPath) : Option Site :=
  if path.isSimple then (w.target? t path.head).map (.key · path.head)
  else (w.evaluate t path.parent).2.site? path.last

theorem refuses_iff (w : World) (t : TableId) (path : KeyPath) :
    w.Refuses t path ↔ w.site? t path = none := by
  unfold Refuses site?
  split
  · simp
  · cases (w.evaluate t path.parent).2 <;> simp [Value.site?]

/-- The parents of a path lead to the container that its site is in. -/
theorem site?_eq (w : World) (t : TableId) (path : KeyPath) :
    w.site? t path = (w.heap.reach (w.root t path.head) path.parents).site? path.last := by
  rcases path with ⟨text, head, _ | ⟨next, rest⟩⟩
  · show (w.target? t head).map (Site.key · head) = (w.heap.reach (w.root t head) []).site? head
    rw [Heap.reach_nil, root]
    rcases w.target? t head <;> rfl
  · show (w.readPath t _).value.site? _ = _
    rw [readPath_reach]
    rfl

/-- Reading a path is reading the site that it names. -/
theorem evaluate_of_site? {t : TableId} {path : KeyPath} {site : Site}
    (named : (w.heap.reach (w.root t path.head) path.parents).site? path.last = some site) :
    (w.evaluate t path).2 = w.heap.valueAt site := by
  show (w.readPath t path).value = _
  rw [readPath_reach, path.segments_eq, Heap.reach_concat, Heap.into_of_site? named]

/-- An assignment puts the value at the site that the path names, and fails if there is none. -/
theorem assign_eq (quiet : w.collector = none) (t : TableId) (path : KeyPath) (v : Value) :
    w.assign t path v =
      match w.site? t path with
      | some site => ({ w with heap := (w.heap.put v site).1 }, .ok (w.heap.put v site).2)
      | none => (w, .error (.unresolved (if path.isSimple then path.head else path.text))) := by
  unfold assign site?
  split
  · unfold setProperty
    rcases w.target? t path.head <;> rfl
  · have parent : (w.evaluate t path.parent).2 =
        ((w.heap.walk? (w.readProperty t path.head) path.rest.dropLast).map (·.value)).getD .null :=
      (w.heap.walk_value _ _).trans (w.heap.walk?_value _ _).symm
    simp only [depend_of_none quiet, parent]
    rcases w.heap.walk? (w.readProperty t path.head) path.rest.dropLast with _ | ⟨value, crossed⟩
    · rfl
    · cases value with
      | list l =>
        simp only [assignIn, Option.map_some, Option.getD_some, Value.site?]
        rcases Text.position? path.last <;> rfl
      | map _ | null | bool _ | number _ | text _ => rfl

/-! ## What paths read after an assignment -/

/-- In a later world, a path's property leads to the same container, and the sites that the path visits
hold the same: nobody has written what the path reads. -/
structure Spares (w later : World) (t : TableId) (path : KeyPath) : Prop where
  root : later.root t path.head = w.root t path.head
  sites : ∀ site ∈ w.sites t path, later.heap.valueAt site = w.heap.valueAt site

theorem Spares.refl (w : World) (t : TableId) (path : KeyPath) : w.Spares w t path :=
  ⟨rfl, fun _ _ => rfl⟩

theorem Spares.evaluate {later : World} {t : TableId} {path : KeyPath}
    (spares : w.Spares later t path) : (later.evaluate t path).2 = (w.evaluate t path).2 :=
  readPath_of_sites spares.root spares.sites

end World

/-! ## Callbacks that write nothing -/

/-- What touches no container leaves all of them as they are. -/
theorem Deed.stays {d : Deed} (w : World) (plain : d.touch? = none) :
    w.heap.Stays (d.apply w).heap := by
  cases d with
  | edit e =>
    cases e with
    | newMap entries => exact Heap.stays_newMap _ entries
    | newList items => exact Heap.stays_newList _ items
    | newRegistry =>
      exact ⟨Heap.extends_apply _ .newRegistry, fun _ _ live => live, fun _ _ _ => rfl⟩
    | register id r => exact (Heap.sameFaces_register _ id r).stays
    | observe _ | set _ _ _ | define _ _ _ | mutate _ _ _ | place _ _ _ => cases plain
  | depend crossed => exact (w.sameFaces_depend crossed).stays
  | watch link path script =>
    rw [apply, World.watch_eq]
    exact (Heap.sameFaces_foldl_register _ _ _).stays
  | compile marks vm root => exact (w.wires_compile marks vm root).sameFaces.stays
  | tables _ _ | listen _ _ _ | page _ => exact (Heap.SameFaces.refl _).stays

/-- The next move of the frame performs a step or writes an input back. -/
def Frame.Touching : Frame → Prop
  | .steps _ _ (_ :: _) | .hearing _ (.writeBack _ _ :: _) => True
  | _ => False

namespace Machine

variable {m₀ m : Machine} {events : List Event}

/-- The next move touches no container and leaves the properties of view models alone. -/
def WritesNothing (m : Machine) : Prop :=
  (∀ e w, ¬m.Touches e w) ∧ m.next.world.tables = m.world.tables

/-- A move that neither performs a step nor writes an input back touches no container. -/
theorem untouched {frame : Frame} {rest : List Frame} (top : m.frames = frame :: rest)
    (idle : ¬frame.Touching) {e : Edit} {w : World} : ¬m.Touches e w := by
  intro touches
  cases touches with
  | call makes =>
    cases makes with
    | step there _ | writeBack there _ _ =>
      rw [top] at there
      cases there
      exact idle trivial
  | step there _ =>
    rw [top] at there
    cases there
    exact idle trivial

theorem WritesNothing.stays_next (still : m.WritesNothing) :
    m.world.heap.Stays m.next.world.heap := by
  have each (w : World) (d : Deed) (may : m.May w d) (before : m.world.heap.Stays w.heap) :
      m.world.heap.Stays (d.apply w).heap := by
    refine before.trans (d.stays w ?_)
    rcases touched : d.touch? with _ | e
    · rfl
    · obtain ⟨w', touches, _⟩ := may.touches e touched
      exact absurd touches (still.1 e w')
  have moved := m.does.keeps (P := fun w => m.world.heap.Stays w.heap) each
    (Heap.SameFaces.refl _).stays
  exact moved.trans m.next_effect.2.2.2.2.stays

theorem Run.stays (run : Run WritesNothing m₀ events m) :
    m₀.world.heap.Stays m.world.heap ∧ m.world.tables = m₀.world.tables := by
  induction run with
  | start => exact ⟨(Heap.SameFaces.refl _).stays, rfl⟩
  | move _ still ih => exact ⟨ih.1.trans still.stays_next, still.2.trans ih.2⟩

/-- Turns and callbacks that write nothing leave what a path reads as it is, as long as they leave the
container of its head property alive. -/
theorem Run.spares {steps : List Step} {shows : List Show} {before : List Event}
    (first : Run (fun _ => True) (Machine.start steps shows) before m₀)
    (run : Run WritesNothing m₀ events m) {t : TableId} {path : KeyPath}
    (root : m.world.root t path.head = m₀.world.root t path.head) :
    m₀.world.Spares m.world t path := by
  have all := first.trans (run.widen (first.sound (sound_start steps shows)) fun _ _ _ => trivial)
  refine ⟨root, run.stays.1.valueAt (lives_roots first).1 (lives_roots all).1
    (m₀.world.lives_root t path.head) ?_⟩
  exact root ▸ m.world.lives_root t path.head

end Machine

/-! ## What an assignment leaves -/

namespace World

variable {w : World}

/-- What an assignment leaves that is not refused. Nothing changes but the heap, and there one site is
written. Unless the site is on the way to it, the path reads the value, for as long as nobody writes
what the path reads; and every path that did not visit the site reads what it read before. -/
structure Assigned (w : World) (t : TableId) (path : KeyPath) (v : Value) (site : Site)
    (after : World) : Prop where
  aside : after = { w with heap := after.heap }
  writes : w.heap.Writes after.heap site v
  reads : site ∉ w.heap.visits (w.root t path.head) path.parents →
    ∀ later, after.Spares later t path → (later.evaluate t path).2.ReadsAs v
  elsewhere : ∀ u other, site ∉ w.sites u other →
    ∀ later, after.Spares later u other → (later.evaluate u other).2 = (w.evaluate u other).2

theorem assigned_put (whole : w.heap.Whole) {t : TableId} {path : KeyPath} {site : Site}
    (named : w.site? t path = some site) (v : Value) :
    w.Assigned t path v site { w with heap := (w.heap.put v site).1 } := by
  rw [site?_eq] at named
  have live : w.heap.isLive site.container = true :=
    whole.reach (w.lives_root t path.head) path.parents _ (Value.container?_of_site? named)
  have writes := Heap.writes_put live v
  have roots : ∀ u name, World.root { w with heap := (w.heap.put v site).1 } u name = w.root u name :=
    root_congr rfl writes.live
  refine ⟨rfl, writes, fun apart later spares => ?_, fun u other apart later spares => ?_⟩
  · -- the way to the container is as it was, so the path still names the site
    have parents : (w.heap.put v site).1.reach (w.root t path.head) path.parents =
        w.heap.reach (w.root t path.head) path.parents :=
      Heap.reach_congr fun visited mem => writes.valueAt fun same => apart (same ▸ mem)
    obtain ⟨x, held, reads⟩ := writes.arrives
    rw [spares.evaluate, @evaluate_of_site? _ _ _ site]
    · simpa [Heap.valueAt, held] using reads
    · rw [roots]
      exact parents ▸ named
  · rw [spares.evaluate]
    exact readPath_of_sites (roots u other.head) fun visited mem =>
      writes.valueAt fun same => apart (same ▸ mem)

/-- Assignments and reads agree. While nobody collects dependencies, an assignment fails if and only if it
is refused, and then the world is as it was and nobody is owed a turn. Otherwise the value is written to
the one site that the path names. In a session that stands there, turns and callbacks that write nothing
leave what a path reads as it is, as long as its head property leads to the same container. -/
theorem assign_agrees_with_evaluate (quiet : w.collector = none) (whole : w.heap.Whole) (t : TableId)
    (path : KeyPath) (v : Value) :
    ((∃ cause, (w.assign t path v).2 = .error cause) ↔ w.Refuses t path) ∧
    (∀ cause, (w.assign t path v).2 = .error cause → (w.assign t path v).1 = w ∧
      cause = .unresolved (if path.isSimple then path.head else path.text)) ∧
    ∀ owed, (w.assign t path v).2 = .ok owed →
      (∃ site, w.site? t path = some site ∧ w.Assigned t path v site (w.assign t path v).1) ∧
      ∀ steps shows before events m₀ m, Machine.Run (fun _ => True) (.start steps shows) before m₀ →
        m₀.world = (w.assign t path v).1 → Machine.Run Machine.WritesNothing m₀ events m →
        ∀ u other, m.world.root u other.head = m₀.world.root u other.head →
          (w.assign t path v).1.Spares m.world u other := by
  rw [refuses_iff, assign_eq quiet]
  rcases named : w.site? t path with _ | site
  · refine ⟨⟨fun _ => rfl, fun _ => ⟨_, rfl⟩⟩, ?_, fun owed ok => ?_⟩
    · intro cause failed
      cases failed
      exact ⟨rfl, rfl⟩
    · cases ok
  · refine ⟨⟨?_, fun no => ?_⟩, fun cause failed => ?_, fun owed ok =>
      ⟨⟨site, rfl, assigned_put whole named v⟩, ?_⟩⟩
    · rintro ⟨cause, failed⟩
      cases failed
    · cases no
    · cases failed
    · intro steps shows before events m₀ m first here run u other root
      exact here ▸ first.spares run root

end World

/-- A session that writes past the end of a list of one item. -/
def oneItem : List Step :=
  [.newViewModel "vm" (.observed (.document (.object [("items", .array [.text "p"])]))),
    .list (.property "vm" "items") (.set 2 (.document (.text "q")))]

theorem Machine.writesNothing_of_oneItem {k : Nat} (hk : k < 2) :
    (((start oneItem []).after 4).after k).WritesNothing := by
  have top : ((start oneItem []).after 4).frames = [.reply none .nothing ⟨[], []⟩,
      .steps ⟨none, none⟩ none []] := by cbv
  have recorded : ((start oneItem []).after 5).frames = [.record .nothing,
      .steps ⟨none, none⟩ none []] := by cbv
  rcases k with _ | _ | k
  · exact ⟨fun _ _ => untouched top id, by cbv⟩
  · exact ⟨fun _ _ => untouched recorded id, by cbv⟩
  · omega

/-- Past the end of a list: the gap is filled up with null, and the path reads the value, also when the
reply has been recorded. -/
theorem World.assign_past_the_end : ∃ w later : World, w.collector = none ∧ w.heap.Whole ∧
    w.site? ⟨0⟩ ⟨"items.2", "items", ["2"]⟩ = some (.position ⟨0⟩ 2) ∧
    (w.assign ⟨0⟩ ⟨"items.2", "items", ["2"]⟩ (.text "q")).1.Spares later ⟨0⟩
      ⟨"items.2", "items", ["2"]⟩ ∧
    (later.evaluate ⟨0⟩ ⟨"items.2", "items", ["2"]⟩).2.ReadsAs (.text "q") := by
  have run : Machine.Run (fun _ => True) (Machine.start oneItem []) _ _ :=
    Machine.run_after 3 fun _ _ => trivial
  have quiet := Machine.collector_of_run run
  have whole := (Machine.lives_roots run).1
  obtain ⟨_, _, assigned⟩ := assign_agrees_with_evaluate quiet whole ⟨0⟩
    ⟨"items.2", "items", ["2"]⟩ (.text "q")
  have named : ((Machine.start oneItem []).after 3).world.site? ⟨0⟩ ⟨"items.2", "items", ["2"]⟩ =
      some (.position ⟨0⟩ 2) := by cbv
  obtain ⟨⟨site, there, assigned⟩, still⟩ := assigned [] (by cbv)
  obtain rfl : Site.position ⟨0⟩ 2 = site := Option.some.inj (named.symm.trans there)
  have spares := still oneItem [] _ _ _ _ (Machine.run_after 4 fun _ _ => trivial) (by cbv)
    (Machine.run_after 2 fun _ => Machine.writesNothing_of_oneItem) ⟨0⟩
    ⟨"items.2", "items", ["2"]⟩ (by cbv)
  refine ⟨_, _, quiet, whole, named, spares, assigned.reads ?_ _ spares⟩
  have way : ((Machine.start oneItem []).after 3).world.heap.visits
      (((Machine.start oneItem []).after 3).world.root ⟨0⟩ "items") ["items"] =
      [.key ⟨0⟩ "items"] := by cbv
  show Site.position ⟨0⟩ 2 ∉ Heap.visits _ _ ["items"]
  rw [way]
  decide

end DataBinding
