-- What the edits of a move write to. A site that no edit of a move writes to holds what it held, for as
-- long as its container is live. So a move is tame, and orderly if it leaves the page to its bindings, when
-- it makes none of the edits that nobody is told of: it defines no slot again, writes to no position
-- of a list, registers nobody by hand and puts no property down for another container.
import DataBinding.Proofs.Session.Assignments
import DataBinding.Proofs.Session.Depth
import DataBinding.Proofs.Session.Flattening
import DataBinding.Proofs.Session.Growth
import DataBinding.Proofs.Session.Mirroring

namespace DataBinding

/-! ## One edit -/

/-- The sites that an edit may write to: the key of a map, or all positions of a list. -/
def Edit.WritesTo (site : Site) : Edit → Prop
  | .set m key _ | .define m key _ => site = .key m key
  | .mutate l _ _ | .place l _ _ => site.container = .list l
  | _ => False

namespace Heap

variable {h h' : Heap} {site : Site}

theorem isLive_of_isSlot {m : MapId} {key : String} (slot : h.isSlot m key = true) :
    h.isLive (.map m) = true := by
  obtain ⟨ws, hws⟩ := Option.isSome_iff_exists.mp slot
  obtain ⟨e, he, _⟩ := Option.bind_eq_some_iff.mp hws
  exact Call.isLive_of_lookup? he

/-- What was freed does not come back. -/
theorem Grows.live (grows : h.Grows h') {c : Container} (there : h.Reserves c)
    (live : h'.isLive c = true) : h.isLive c = true := by
  cases c with
  | map m =>
    obtain ⟨cell, hc⟩ := Option.isSome_iff_exists.mp live
    rcases grows.maps m cell hc with ⟨fresh, _⟩ | ⟨_, before, _⟩
    · exact absurd there (Nat.not_lt.mpr fresh)
    · exact Option.isSome_of_mem before
  | list l =>
    obtain ⟨cell, hc⟩ := Option.isSome_iff_exists.mp live
    rcases grows.lists l cell hc with fresh | ⟨_, before, _⟩
    · exact absurd there (Nat.not_lt.mpr fresh)
    · exact Option.isSome_of_mem before

/-- A site that an edit does not write to holds what it held. -/
theorem held?_apply {e : Edit} (there : h.Reserves site.container)
    (live : (e.apply h).1.isLive site.container = true) (apart : ¬e.WritesTo site) :
    (e.apply h).1.held? site = h.held? site := by
  cases e with
  | newMap entries => exact (h.stays_newMap entries).held site there live
  | newList items => exact (h.stays_newList items).held site there live
  | newRegistry => rfl
  | register id r => exact (h.sameFaces_register id r).stays.held site there live
  | observe v => exact (h.observedFrom_observe v).held? site
  | set m key v =>
    show (h.set m key v).1.held? site = _
    rcases h.set_cases m key v with ⟨_, _, _, _, e⟩ | ⟨_, _, _, _, e⟩ | ⟨_, e⟩
    · rw [e]
    · rw [e, held?_store v apart, (h.observedFrom_observe v).held? site]
    · rw [e, held?_store v apart]
  | define m key v =>
    show ((h.observe v).changeMap m (·.install key v)).held? site = _
    rw [held?_changeMap (fun c other ne => by rw [MapCell.lookup?_install, if_neg ne]) apart,
      (h.observedFrom_observe v).held? site]
  | mutate l items inserted =>
    show (h.mutate l items inserted).1.held? site = _
    rcases h.mutate_cases l items inserted with ⟨_, e⟩ | ⟨_, _, _, e⟩ | ⟨_, _, _, e⟩
    · rw [e]
    · rw [e, (observedFrom_observeAll _ inserted).held? site, held?_changeList apart]
    · rw [e, held?_changeList apart]
  | place l i v => exact held?_changeList apart

end Heap

variable {m : Machine} {e : Edit} {w : World}

namespace Machine

/-! ## One move -/

theorem Touches.sound (touches : m.Touches e w) (sound : m.Sound) : w.Sound := by
  cases touches with
  | call makes => exact (makes_effect sound makes).1
  | @step context tag step remaining rest _ _ top touches =>
    have known : context.Known m.world := sound.frames (.steps context tag (step :: remaining))
      (by simp [top])
    exact (touches.fits sound.session known).1.world

/-- A site that no edit of a move writes to holds what it held, if its container is live after the
move. Each edit is made in a heap that has only grown since the move began. -/
theorem held?_next (sound : m.Sound) {site : Site} (there : m.world.heap.Reserves site.container)
    (apart : ∀ e w, m.Touches e w → m.world.heap.Grows w.heap →
      w.heap.isLive site.container = true → ¬e.WritesTo site)
    (live : m.next.world.heap.isLive site.container = true) :
    m.next.world.heap.held? site = m.world.heap.held? site := by
  have each (w : World) (d : Deed) (may : m.May w d)
      (before : m.world.heap.Grows w.heap ∧ (w.heap.isLive site.container = true →
        w.heap.held? site = m.world.heap.held? site)) :
      m.world.heap.Grows (d.apply w).heap ∧ ((d.apply w).heap.isLive site.container = true →
        (d.apply w).heap.held? site = m.world.heap.held? site) := by
    obtain ⟨grown, held⟩ := before
    have still := grown.extend.reserves there
    refine ⟨grown.trans (d.grows_apply w), fun live => ?_⟩
    have was := (d.grows_apply w).live still live
    rw [← held was]
    rcases ht : d.touch? with _ | e
    · exact (d.stays w ht).held site still live
    · obtain ⟨w', touches, same⟩ := may.touches e ht
      obtain rfl : w = w' := same (touches.sound sound).collector
      rw [Deed.apply_of_touch? ht] at live ⊢
      exact Heap.held?_apply still live (apart e w touches grown was)
  have released := m.next_effect.2.2.2.2
  obtain ⟨grown, held⟩ := m.does.keeps each ⟨.refl _, fun _ => rfl⟩
  rw [released.stays.held site (grown.extend.reserves there) live, held (released.isLive live)]

/-! ## Rare edits -/

end Machine

/-- An edit is of the kind that a licence is for: it makes no other rare edit, where slots may be defined
again it is a definition, and where positions may be written it writes to a key or a position. -/
structure Licence.Suits (licence : Licence) (h : Heap) (e : Edit) : Prop where
  allows : licence.Allows h e
  defines : licence.redefines → ∃ map key v, e = .define map key v
  writes : licence.places → (∃ map key v, e = .set map key v) ∨ e.Places

namespace Licence

variable {h : Heap}

theorem suits_none (registers : ¬e.Registers) (redefines : ¬e.Redefines h) (places : ¬e.Places) :
    none.Suits h e := ⟨⟨registers, redefines, places⟩, False.elim, False.elim⟩

theorem suits_redefining (map : MapId) (key : String) (v : Value) :
    redefining.Suits h (.define map key v) :=
  ⟨⟨id, fun _ => trivial, id⟩, fun _ => ⟨map, key, v, rfl⟩, False.elim⟩

theorem suits_placing_set (map : MapId) (key : String) (v : Value) :
    placing.Suits h (.set map key v) :=
  ⟨⟨id, id, False.elim⟩, False.elim, fun _ => .inl ⟨map, key, v, rfl⟩⟩

theorem suits_placing_place (l : ListId) (i : Nat) (v : Value) : placing.Suits h (.place l i v) :=
  ⟨⟨id, id, fun _ => trivial⟩, False.elim, fun _ => .inr trivial⟩

end Licence

variable {c : Context} {s s' : Session} {step : Step} {call : Call}

theorem World.Assigns.suits {t : TableId} {path : KeyPath} {v : Value}
    (assigns : w.Assigns t path v call) (h : Heap) : Licence.placing.Suits h call.edit := by
  cases assigns with
  | property _ _ | key _ _ _ => exact Licence.suits_placing_set _ _ v
  | position _ _ _ _ => exact Licence.suits_placing_place _ _ v

theorem Step.Calls.suits (calls : step.Calls c s call s') (h : Heap) :
    step.licence.Suits h call.edit := by
  cases calls with
  | map _ calls =>
    cases calls with
    | set _ | attach _ _ => exact Licence.suits_none id id id
  | list _ calls =>
    cases calls with
    | set _ => exact Licence.suits_placing_place _ _ _
    | push _ | unshift _ | pop | shift | sort | sortBy | reverse | splice _ =>
      exact Licence.suits_none id id id
  | viewModel _ calls =>
    cases calls with
    | set _ _ => exact Licence.suits_none id id id
    | assign _ _ assigns => exact assigns.suits h

theorem Step.Touches.suits (touches : step.Touches c s e s') :
    step.licence.Suits s'.world.heap e := by
  cases touches with
  | call calls => exact calls.suits _
  | map on touches =>
    cases touches with
    | call calls => exact (Step.Calls.map on calls).suits _
    | define _ => exact Licence.suits_redefining _ _ _
    | attach _ plain =>
      -- a key that is attached by a definition is no slot yet
      exact Licence.suits_none id (by simp [Edit.Redefines, plain]) id
  | observe _ | origin _ | view _ _ _ => exact Licence.suits_none id id id

namespace Machine

theorem licence_of_top {context : Context} {tag : Option String} {remaining : List Step}
    {rest : List Frame} (top : m.frames = .steps context tag (step :: remaining) :: rest) :
    m.licence = step.licence := by
  simp [licence, top, Frame.licence]

/-- What a move touches is of the kind that the move has a licence for. -/
theorem Touches.suits (touches : m.Touches e w) : m.licence.Suits w.heap e := by
  cases touches with
  | call makes =>
    cases makes with
    | step top calls => exact licence_of_top top ▸ calls.suits _
    | writeBack top _ assigns =>
      have placing : m.licence = .placing := by simp [licence, top, Frame.licence]
      exact placing ▸ assigns.suits _
  | step top touches => exact licence_of_top top ▸ touches.suits

/-! ## Candid moves -/

/-- A move that makes none of the edits that nobody is told of. It registers nobody by hand, defines no
slot again and writes to no position of a list; and it puts the head property of a watcher down for
no other container. -/
structure Candid (m : Machine) : Prop where
  registers : ¬m.Registers
  redefines : ∀ e w, m.Touches e w → ¬e.Redefines w.heap
  places : ∀ e w, m.Touches e w → ¬e.Places
  heads : ∀ id watcher map, m.world.watcher? id = some watcher →
    m.world.headOf watcher = some map →
      ∀ other, m.Puts watcher.link.table watcher.path.head other → other = map

namespace Candid

variable (candid : m.Candid)
include candid

theorem headOf_next {id : WatcherId} {watcher : Watcher} {map : MapId}
    (there : m.world.watcher? id = some watcher) (head : m.world.headOf watcher = some map) :
    m.next.world.headOf watcher = some map := by
  by_cases puts : ∃ other, m.Puts watcher.link.table watcher.path.head other
  · obtain ⟨other, puts⟩ := puts
    obtain rfl := candid.heads id watcher map there head other puts
    exact lookup_next_of_puts puts
  · exact (lookup_next_of_none fun other h => puts ⟨other, h⟩).trans head

/-- Where a candid move may define slots, the slots that are there keep their values. -/
theorem peek_next (sound : m.Sound) (may : m.licence.redefines) {map : MapId} {key : String}
    (slot : m.world.heap.isSlot map key = true) (stays : m.next.world.heap.isSlot map key = true) :
    m.next.world.heap.peek map key = m.world.heap.peek map key := by
  have live := Heap.isLive_of_isSlot slot
  show m.next.world.heap.held? (.key map key) = m.world.heap.held? (.key map key)
  refine held?_next sound (Heap.reserves_of_isLive live) ?_ (Heap.isLive_of_isSlot stays)
  rintro e w touches grown live here
  obtain ⟨_, _, v, rfl⟩ := touches.suits.defines may
  cases here
  exact candid.redefines _ w touches (grown.isSlot slot live)

/-- Where a candid move may write to positions, lists keep their items. -/
theorem items_next (sound : m.Sound) (may : m.licence.places) {l : ListId}
    (live : m.world.heap.isLive (.list l) = true) (stays : m.next.world.heap.isLive (.list l) = true) :
    m.next.world.heap.items l = m.world.heap.items l := by
  refine List.ext_getElem? fun i => ?_
  rw [← Heap.item?_eq, ← Heap.item?_eq]
  show m.next.world.heap.held? (.position l i) = m.world.heap.held? (.position l i)
  refine held?_next sound (Heap.reserves_of_isLive live) ?_ stays
  rintro e w touches - - here
  rcases touches.suits.writes may with ⟨map, key, v, rfl⟩ | places
  · cases here
  · exact candid.places e w touches places

theorem tame (sound : m.Sound) : m.Tame := by
  refine ⟨fun h => candid.registers (registers_of_licence h), fun may map key slot stays => ?_,
    fun may l live stays => ?_, fun id watcher map there head => ?_⟩
  · exact candid.peek_next sound may slot stays
  · exact candid.items_next sound may live stays
  · exact candid.headOf_next there head

/-- A candid move that binds nothing, and is no step on the page other than an input, is orderly. -/
theorem orderly (sound : m.Sound) (binds : ¬m.Binds) (arranges : ¬m.Arranges) : m.Orderly := by
  refine ⟨candid.registers, binds, fun may map key slot stays => ?_,
    fun id watcher map there head => ?_, fun h => absurd h arranges⟩
  · exact candid.peek_next sound may slot stays
  · exact candid.headOf_next there head

end Candid

theorem licence_of_registers (h : m.Registers) : m.licence.registers := by
  unfold Registers at h
  split at h
  · rename_i top
    rw [licence_of_top top]
    trivial
  · cases h

/-- A move without a licence is candid, if no property is redirected. -/
theorem candid_of_none (none : m.licence = .none)
    (heads : m.world.watchers = #[] ∨ m.next.world.tables = m.world.tables) : m.Candid := by
  refine ⟨fun h => ?_, fun e w touches h => ?_, fun e w touches h => ?_,
    fun id watcher map there head other puts => ?_⟩
  · have may := licence_of_registers h
    rwa [none] at may
  · have may := touches.suits.allows.redefines h
    rwa [none] at may
  · have may := touches.suits.allows.places h
    rwa [none] at may
  · rcases heads with nobody | tables
    · simp [World.watcher?, nobody] at there
    · have put := lookup_next_of_puts puts
      rw [World.table, tables] at put
      exact Option.some.inj (put.symm.trans head)

end Machine

end DataBinding
