-- Places that mirror the model. As long as moves are orderly, the place of a binding that no other one
-- shows in is filled with the value of its path, with two exceptions that pass: its watcher is owed a
-- turn, or a text that was put into a field waits to be written back. Whoever holds each hop of the path
-- is owed a turn by every write that changes the value.
import DataBinding.Proofs.Session.Collecting
import DataBinding.Proofs.Session.Freshness
import DataBinding.Proofs.Session.Painting
import DataBinding.Proofs.World.Holding

namespace DataBinding

/-- What is assigned to a path whose hops a watcher holds is written to a slot that the watcher is
registered with. -/
theorem World.assigns_of_holds {w : World} {id : WatcherId} {watcher : Watcher}
    (holds : w.Holds id watcher) (v : Value) :
    ∃ map key e ws, w.Assigns watcher.link.table watcher.path v (.write map key v) ∧
      w.heap.lookup? map key = some e ∧ e.watchers = some ws ∧ id ∈ ws ∧
      e.value = w.valueOf watcher := by
  obtain ⟨m, target, walk⟩ := holds
  have value := valueOf_of_target? target
  have walk : w.heap.Holds id (⟨.map m, []⟩ : Reading).value watcher.path.segments := walk
  obtain ⟨r, map, e, ws, parent, hmap, he, hws, hid, hv⟩ := walk.last (List.cons_ne_nil _ _)
  refine ⟨map, watcher.path.last, e, ws, ?_, he, hws, hid, hv.trans value.symm⟩
  obtain ⟨link, ⟨text, head, rest⟩, reaction⟩ := watcher
  rcases rest with _ | ⟨next, others⟩
  · cases parent
    cases hmap
    exact .property rfl target
  · refine .key rfl ?_ hmap
    -- the first hop from the head's container is the read of the property
    have parent : w.heap.walk? ⟨.map m, []⟩ (head :: (next :: others).dropLast) = some r := parent
    rw [Heap.walk?_cons] at parent
    obtain ⟨reading, hop, parent⟩ := Option.bind_eq_some_iff.mp parent
    have property : w.readProperty link.table head = reading := by
      have read : w.heap.read m head = some reading := hop
      simp [readProperty, target, read]
    rw [property]
    exact parent

/-- To follow a link moves no container and redirects no property. -/
theorem World.follow_effect {w : World} {id : WatcherId} {watcher : Watcher}
    (holds : w.Holds id watcher) (l : Link) : (w.follow l).1.Holds id watcher ∧
      (w.follow l).2.table = l.table ∧ (w.follow l).1.valueOf watcher = w.valueOf watcher := by
  unfold follow
  split
  · exact ⟨holds, rfl, rfl⟩
  · exact ⟨holds, rfl, rfl⟩

/-- Only a text is the same as a text. -/
theorem eq_of_same_text {v : Value} {text : String} (same : v.same (.text text) = true) :
    v = .text text := by
  cases v with
  | text s => rw [of_decide_eq_true same]
  | null | bool _ | number _ | map _ | list _ => cases same

namespace Machine

/-! ## Orderly moves -/

/-- A move that goes behind no binding's back. It registers nobody by hand and binds nothing. If it may
define a slot that is there, all slots keep their values; the head property of a watcher keeps its
container; and a step on the page, other than an input, leaves the nodes that are there alone. -/
structure Orderly (m : Machine) : Prop where
  registers : ¬m.Registers
  binds : ¬m.Binds
  redefines : m.licence.redefines → ∀ map key, m.world.heap.isSlot map key = true →
    m.next.world.heap.isSlot map key = true →
    m.next.world.heap.peek map key = m.world.heap.peek map key
  heads : ∀ id watcher map, m.world.watcher? id = some watcher →
    m.world.headOf watcher = some map → m.next.world.headOf watcher = some map
  nodes : m.Arranges → m.world.page.Retains m.next.world.page

/-! ## Texts that wait to be written back -/

variable {m : Machine} {id : WatcherId} {watcher : Watcher} {directive : Directive} {n : NodeId}

/-- An event is being heard, and a listener that writes its text back to the watcher's path still has to
hear it. -/
def Pends (m : Machine) (watcher : Watcher) (text : String) : Prop :=
  ∃ event responses, .hearing event responses ∈ m.frames ∧ event.value = some text ∧
    .writeBack watcher.link watcher.path ∈ responses

/-- A text waits until it is written back. -/
theorem pends_next {text : String} (pends : m.Pends watcher text) :
    m.next.Pends watcher text ∨ ∃ event responses rest, event.value = some text ∧
      m.frames = .hearing event (.writeBack watcher.link watcher.path :: responses) :: rest := by
  obtain ⟨event, responses, mem, value, waits⟩ := pends
  rcases top : m.frames with _ | ⟨frame, rest⟩
  · rw [top] at mem
    cases mem
  · rw [top] at mem
    rcases List.mem_cons.mp mem with rfl | below
    · rcases responses with _ | ⟨first, others⟩
      · cases waits
      · rcases List.mem_cons.mp waits with rfl | waits
        · exact .inr ⟨event, others, rest, value, rfl⟩
        · refine .inl ⟨event, others, ?_, value, waits⟩
          rw [next_frames top]
          exact List.mem_append_left _ (List.mem_append_right _ (List.mem_singleton_self _))
    · refine .inl ⟨event, responses, ?_, value, waits⟩
      rw [next_frames top]
      exact List.mem_append_right _ below

/-- A text that is written back arrives, or the watcher has it already, or the watcher is owed a turn. -/
theorem written_back (sound : m.Sound) {event : PageEvent} {text : String}
    {responses : List Response} {rest : List Frame}
    (top : m.frames = .hearing event (.writeBack watcher.link watcher.path :: responses) :: rest)
    (value : event.value = some text) (holds : m.world.Holds id watcher) :
    m.next.Owes id ∨ m.world.valueOf watcher = .text text := by
  obtain ⟨holds', table, same⟩ := World.follow_effect holds watcher.link
  obtain ⟨map, key, ⟨name, old, watchers⟩, ws, assigns, there, hws, hid, hv⟩ :=
    World.assigns_of_holds holds' (.text text)
  rw [← table] at assigns
  have makes : m.Makes (.write map key (.text text)) (m.world.follow watcher.link).1 :=
    .writeBack top value assigns
  simp only at hws hv
  subst hws
  have round : (Call.write map key (.text text)).round (m.world.follow watcher.link).1.heap =
      if old.same (.text text) then [] else ws := by
    simp only [Call.round, there]
  obtain ⟨_, _, kept, _, frames⟩ := makes_effect sound makes
  rcases differ : old.same (.text text) with _ | _
  · rw [round, differ] at frames
    rcases frames with frames | ⟨nobody, _⟩
    · exact .inl ⟨ws, by simp [frames], hid⟩
    · simp only [Bool.false_eq_true, if_false] at nobody
      rw [nobody] at hid
      cases hid
  · -- the slot has the text already, and nothing is written
    right
    rw [← same, ← hv]
    exact eq_of_same_text differ

/-! ## Places that mirror the model -/

/-- The binding of a watcher at work. If no other one shows in its place, the place is filled with the value
of the path, or with a text that waits to be written back, unless the watcher is owed a turn or does
not hold each hop of the path. -/
structure Mirrors (m : Machine) (id : WatcherId) (watcher : Watcher) (directive : Directive)
    (n : NodeId) : Prop where
  serves : m.world.Serves id watcher directive n
  among : id.Among m.world.watchers.size
  anchors : m.world.Anchors id watcher
  apart : m.world.Sole id (directive.place n) → m.world.Apart directive n
  filled : m.world.Sole id (directive.place n) → m.Owes id ∨ ¬m.world.Holds id watcher ∨
    ∃ text, m.world.page.Shows n text directive ∧
      (text = m.world.heap.render (m.world.valueOf watcher) ∨ m.Pends watcher text)

/-- Where another watcher shows its value. -/
theorem elsewhere_of_sole {w : World} {place : Place} {other : WatcherId} {shown : Watcher}
    {directive : Directive} {n : NodeId} (sole : w.Sole id place)
    (among : other.Among w.watchers.size) (there : w.watcher? other = some shown)
    (reaction : shown.reaction = .render directive n) (ne : other ≠ id) :
    directive.place n ≠ place := by
  intro e
  refine ne (sole other shown among there ?_)
  rw [reaction, ← e]
  rfl

theorem renders_of_there {w : World} {other : WatcherId} {shown : Watcher} {directive : Directive}
    {n : NodeId} (there : w.watcher? other = some shown)
    (reaction : shown.reaction = .render directive n) : w.Renders n :=
  ⟨shown, Array.mem_of_getElem? there, directive, reaction⟩

/-- Watchers are never removed. -/
theorem sole_of_next (sound : m.Sound) {place : Place} (sole : m.next.world.Sole id place) :
    m.world.Sole id place := by
  intro other shown among there shows
  have le := (watchers_moved sound).1
  rw [← m.next_effect.2.1] at le
  exact sole other shown (among.mono le) ((watcher?_next sound among).trans there) shows

/-- The turn of a watcher fills its place. -/
theorem shows_of_turn (serves : m.world.Serves id watcher directive n) {owed : List WatcherId}
    {rest : List Frame} (top : m.frames = .turns (id :: owed) :: rest) :
    m.next.world.page.Shows n (m.world.heap.render (m.world.valueOf watcher)) directive := by
  obtain ⟨_, watcher', there, _, result⟩ := hands_of_turns top serves.there
  rw [serves.there] at there
  cases there
  rw [serves.reaction] at result
  rw [result.1, World.render_eq]
  exact Page.shows_showing serves.suits _

variable (orderly : m.Orderly)
include orderly

theorem serves_next (sound : m.Sound) (serves : m.world.Serves id watcher directive n)
    (among : id.Among m.world.watchers.size) : m.next.world.Serves id watcher directive n := by
  refine ⟨(watcher?_next sound among).trans serves.there, serves.reaction, ?_,
    fun model => listeners_next (serves.echo model)⟩
  rcases paint orderly.binds orderly.nodes with retains | ⟨_, _, _, page⟩ | ⟨_, _, page, _⟩
  · exact retains.suits serves.suits
  · rw [page]
    exact serves.suits.showing _ _ _
  · rw [page]
    exact serves.suits.showing _ _ _

theorem apart_next (housed : m.world.Housed) (suits : m.world.page.Suits n directive)
    (apart : m.world.Apart directive n) : m.next.world.Apart directive n := by
  have before {k : NodeId} : m.next.world.Renders k → m.world.Renders k := renders_next orderly.binds
  have showing {shown : Directive} {k : NodeId} {text : String}
      (page : m.next.world.page = m.world.page.showing shown k text) :
      m.next.world.Apart directive n :=
    apart.showing suits page (fun _ _ _ _ renders => before renders)
      fun k renders => housed k (before renders)
  rcases paint orderly.binds orderly.nodes with retains | ⟨_, _, _, page⟩ | ⟨_, _, page, _⟩
  · intro text element child hc renders
    have face := retains n suits.lt
    simp only [Page.IsElement, Page.HasBelow, face] at element
    rw [Page.children_eq, face, ← Page.children_eq] at hc
    exact apart text element child hc (before renders)
  · exact showing page
  · exact showing page

theorem anchors_next (sound : m.Sound) (there : m.world.watcher? id = some watcher)
    (among : id.Among m.world.watchers.size) (anchors : m.world.Anchors id watcher) :
    m.next.world.Anchors id watcher := by
  intro r hid
  rcases subscribed_next sound hid with old | registers | ⟨born, _⟩
  · obtain ⟨map, head⟩ := Option.ne_none_iff_exists'.mp (anchors r old)
    rw [orderly.heads id watcher map there head]
    exact Option.some_ne_none map
  · exact absurd registers orderly.registers
  · exact absurd (World.mem_bornSince.mp born).1 (Nat.not_lt.mpr among.2)

/-- Unless the watcher has its turn, its place stays filled, or a text was put into it and waits to be
written back. -/
theorem shows_next (sound : m.Sound) (serves : m.world.Serves id watcher directive n)
    (apart : m.world.Apart directive n) (sole : m.world.Sole id (directive.place n))
    (notTurn : ¬∃ owed rest, m.frames = .turns (id :: owed) :: rest) {text : String}
    (shows : m.world.page.Shows n text directive) :
    ∃ text', m.next.world.page.Shows n text' directive ∧
      (text' = text ∨ m.next.Pends watcher text') := by
  rcases paint orderly.binds orderly.nodes with retains | @⟨other, owed, rest, shown, directive', k, top, there,
    reaction, page⟩ | @⟨_, _, _, put, _, _, k, _, _, page, hearing⟩
  · exact ⟨text, retains.shows serves.suits shows, .inl rfl⟩
  · have ne : other ≠ id := fun e => notTurn ⟨owed, rest, e ▸ top⟩
    have among : other.Among m.world.watchers.size :=
      sound.frames (.turns (other :: owed)) (by simp [top]) other (List.mem_cons_self ..)
    refine ⟨text, ?_, .inl rfl⟩
    rw [page]
    exact shows.showing serves.suits directive' _ (elsewhere_of_sole sole among there reaction ne)
      fun only element hk => apart only element k hk (renders_of_there there reaction)
  · by_cases element : m.world.page.IsElement k
    · by_cases here : Directive.model.place k = directive.place n
      · -- the text is put into the field of the binding itself
        have own : directive = .model ∧ k = n := by
          cases directive <;> simp_all [Directive.place]
        obtain ⟨rfl, rfl⟩ := own
        refine ⟨put, ?_, .inr ⟨_, _, hearing, rfl, ?_⟩⟩
        · rw [page]
          exact Page.shows_showing (.inl element) put
        · refine List.mem_map.mpr ⟨_, List.mem_filter.mpr ⟨serves.echo rfl, ?_⟩, rfl⟩
          simp
      · refine ⟨text, ?_, .inl rfl⟩
        rw [page]
        refine shows.showing serves.suits .model put here fun only outer hk => ?_
        subst only
        exact element.not_isText ⟨text, [], shows.child outer hk⟩
    · have retains : m.world.page.Retains m.next.world.page := fun j _ => by
        rw [page, Page.face?_showing_model element]
      exact ⟨text, retains.shows serves.suits shows, .inl rfl⟩

/-- A watcher that is owed no turn after an orderly move holds only what it held before, and its value has
the same text. -/
theorem holds_next (sound : m.Sound) (there : m.world.watcher? id = some watcher)
    (among : id.Among m.world.watchers.size) (anchors : m.world.Anchors id watcher)
    (rest : ¬m.next.Owes id) (holds : m.next.world.Holds id watcher) :
    m.world.Holds id watcher ∧ m.next.world.heap.render (m.next.world.valueOf watcher) =
      m.world.heap.render (m.world.valueOf watcher) := by
  have follows := follows_slots_next sound (fun h => orderly.registers (registers_of_licence h))
    orderly.redefines among rest
  have stays (r : Registry) (hid : id ∈ m.world.heap.watchers r) :
      m.next.world.headOf watcher = m.world.headOf watcher := by
    obtain ⟨map, head⟩ := Option.ne_none_iff_exists'.mp (anchors r hid)
    rw [head, orderly.heads id watcher map there head]
  obtain ⟨before, value⟩ := World.holds_of_follows follows stays holds
  exact ⟨before, by rw [value, Heap.render_of_scalar before.scalar m.world.heap m.next.world.heap]⟩

/-- A binding that mirrors the model mirrors it after an orderly move, too. -/
theorem mirrors_next (sound : m.Sound) (housed : m.world.Housed)
    (mirrors : m.Mirrors id watcher directive n) : m.next.Mirrors id watcher directive n := by
  obtain ⟨serves, among, anchors, apart, filled⟩ := mirrors
  have le := (watchers_moved sound).1
  rw [← m.next_effect.2.1] at le
  refine ⟨serves_next orderly sound serves among, among.mono le,
    anchors_next orderly sound serves.there among anchors,
    fun sole => apart_next orderly housed serves.suits (apart (sole_of_next sound sole)), ?_⟩
  intro sole
  have sole := sole_of_next sound sole
  by_cases owes' : m.next.Owes id
  · exact .inl owes'
  by_cases holds' : m.next.world.Holds id watcher
  · obtain ⟨holds, same⟩ := holds_next orderly sound serves.there among anchors owes' holds'
    rw [same]
    refine .inr (.inr ?_)
    by_cases turn : ∃ owed rest, m.frames = .turns (id :: owed) :: rest
    · obtain ⟨owed, rest, top⟩ := turn
      exact ⟨_, shows_of_turn serves top, .inl rfl⟩
    · have notOwed : ¬m.Owes id := by
        intro owes
        rcases owes_moved owes with owes | begins
        · exact owes' ((owes_next_iff m id).mpr owes)
        · exact turn begins
      obtain ⟨old, shows, why⟩ :=
        ((filled sole).resolve_left notOwed).resolve_left (not_not_intro holds)
      obtain ⟨new, shows', rfl | pends⟩ :=
        shows_next orderly sound serves (apart sole) sole turn shows
      · refine ⟨new, shows', ?_⟩
        rcases why with shown | pends
        · exact .inl shown
        · rcases pends_next pends with pends | ⟨event, responses, rest, given, top⟩
          · exact .inr pends
          · have arrived := (written_back sound top given holds).resolve_left owes'
            exact .inl (by rw [arrived]; rfl)
      · exact ⟨new, shows', .inr pends⟩
  · exact .inr (.inl holds')

omit orderly

theorem Run.mirrors {m₀ : Machine} {events : List Event} (run : Run Orderly m₀ events m)
    (sound : m₀.Sound) (housed : m₀.world.Housed) (mirrors : m₀.Mirrors id watcher directive n) :
    m.Mirrors id watcher directive n := by
  induction run with
  | start => exact mirrors
  | move before orderly ih =>
    exact mirrors_next orderly (before.sound sound) (before.housed housed) ih

end Machine

end DataBinding
