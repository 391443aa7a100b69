-- What bindings leave alone. When a part of a page is bound, its template names the places that will change:
-- later writes to the model and events show values there, and nowhere else but in the places of older
-- bindings and in the fields that are typed into. All other nodes stay as they were.
import DataBinding.Proofs.Session.Painting
import DataBinding.Proofs.Template.Places

namespace DataBinding

/-! ## Places that are filled -/

/-- A watcher shows its value in a place. -/
def World.Fills (w : World) (place : Place) : Prop :=
  ∃ watcher ∈ w.watchers, watcher.reaction.place? = some place

theorem Reaction.eq_of_place? {reaction : Reaction} {place : Place}
    (h : reaction.place? = some place) :
    ∃ directive n, reaction = .render directive n ∧ directive.place n = place := by
  cases reaction with
  | render directive n => exact ⟨directive, n, rfl, Option.some.inj h⟩
  | script script => cases h

theorem World.Fills.renders {w : World} {place : Place} (fills : w.Fills place) :
    w.Renders place.node := by
  obtain ⟨watcher, mem, h⟩ := fills
  obtain ⟨directive, n, reaction, rfl⟩ := Reaction.eq_of_place? h
  rw [directive.node_place]
  exact ⟨watcher, mem, directive, reaction⟩

namespace Demand

variable {vm : ViewModel} {demand : Demand}

/-- The watcher of a demand shows its value in the place of the demand. -/
theorem place?_of_watcher? {watcher : Watcher} (h : demand.watcher? vm = some watcher) :
    watcher.reaction.place? = demand.place? := by
  cases demand with
  | event n event method => cases h
  | value n kind expression origin =>
    simp only [watcher?] at h
    split at h
    · rename_i path directive _ shows
      cases h
      simp [place?, shows, Reaction.place?]
    · cases h

theorem node_of_listener? {w : World} {l : Listener Response} (h : demand.listener? w vm = some l) :
    l.node = demand.node := by
  cases demand with
  | value n kind expression origin =>
    simp only [listener?] at h
    split at h
    · split at h
      · cases h
        rfl
      · cases h
    · cases h
  | event n event method =>
    obtain ⟨script, _, rfl⟩ := Option.map_eq_some_iff.mp h
    rfl

end Demand

/-! ## Moves -/

namespace Machine

/-- The next move binds nothing, and if it is a step that writes to the page, it is an input into one of the
given fields. -/
structure Leaves (typed : NodeId → Prop) (m : Machine) : Prop where
  binds : ¬m.Binds
  writes : ∀ {context tag step remaining rest},
    m.frames = .steps context tag (step :: remaining) :: rest → step.Paints →
      ∃ handle text, step = .page (.input handle text) ∧
        ∀ n, m.session.nodes.lookup handle = some n → typed n

variable {typed : NodeId → Prop} {touched : Place → Prop} {m₀ m : Machine} {events : List Event}

/-- A move that leaves the page to its bindings shows the value of a watcher, or the text of a field that is
typed into. -/
theorem paint_of_leaves (leaves : m.Leaves typed) : m.Paint (m.next.world.page = m.world.page) := by
  by_cases paints : m.Paints
  · unfold Paints at paints
    split at paints
    · rename_i context tag step remaining rest top
      obtain ⟨handle, text, rfl, _⟩ := leaves.writes top paints
      exact paint_input top
    · exact paint_turns ‹_›
    · exact paints.elim
  · exact .nothing (page_next_of_still paints leaves.binds)

/-- Such a move changes the page in the places of the watchers, and in the fields that are typed into. -/
theorem spared_next (leaves : m.Leaves typed) (linked : m.world.page.Linked)
    (fills : ∀ place, m.world.Fills place → touched place) (fields : ∀ n, typed n → touched (.value n)) :
    m.next.world.page.Linked ∧ m.world.page.Spared touched m.next.world.page ∧
      m.next.world.page.listeners = m.world.page.listeners := by
  have showing {directive : Directive} {n : NodeId} {s : String}
      (page : m.next.world.page = m.world.page.showing directive n s)
      (here : touched (directive.place n)) :
      m.next.world.page.Linked ∧ m.world.page.Spared touched m.next.world.page ∧
        m.next.world.page.listeners = m.world.page.listeners := by
    rw [page]
    exact ⟨linked.showing directive n s, linked.spared_showing here s,
      (Page.repaints_showing _ directive n s).listeners⟩
  rcases paint_of_leaves leaves with page | ⟨top, there, reaction, page⟩ | ⟨top, there, page, _⟩
  · rw [page]
    exact ⟨linked, .refl _ _, rfl⟩
  · refine showing page (fills _ ⟨_, Array.mem_of_getElem? there, ?_⟩)
    rw [reaction]
    rfl
  · obtain ⟨handle, text, e, field⟩ := leaves.writes top trivial
    cases e
    exact showing page (fields _ (field _ there))

theorem fills_next (quiet : ¬m.Binds) {place : Place} (fills : m.next.world.Fills place) :
    m.world.Fills place := by
  obtain ⟨watcher, mem, h⟩ := fills
  obtain ⟨directive, n, reaction, _⟩ := Reaction.eq_of_place? h
  exact ⟨watcher, mem_watchers_next quiet reaction mem, h⟩

/-- A run that leaves the page to its bindings changes it in the places that are filled at its start, and in the
fields that are typed into. -/
theorem Run.spared (run : Run (Leaves typed) m₀ events m) (linked : m₀.world.page.Linked)
    (fills : ∀ place, m₀.world.Fills place → touched place)
    (fields : ∀ n, typed n → touched (.value n)) :
    m.world.page.Linked ∧ m₀.world.page.Spared touched m.world.page ∧
      m.world.page.listeners = m₀.world.page.listeners ∧
        ∀ place, m.world.Fills place → m₀.world.Fills place := by
  induction run with
  | start => exact ⟨linked, .refl _ _, rfl, fun _ fills => fills⟩
  | move _ leaves ih =>
    obtain ⟨linked, spared, listeners, older⟩ := ih
    obtain ⟨linked', spared', listeners'⟩ :=
      spared_next leaves linked (fun place filled => fills place (older place filled)) fields
    exact ⟨linked', spared.trans spared', listeners'.trans listeners,
      fun place filled => older place (fills_next leaves.binds filled)⟩

end Machine

/-! ## Frames of compilations -/

namespace World

/-- The places that may change on a page once a part of it is bound: those that its template binds, those of
the watchers that were there before, and the values of the fields that are typed into. -/
inductive Touches (w : World) (marks : Markers) (root : NodeId) (typed : NodeId → Prop) :
    Place → Prop where
  | bound {place : Place} (asked : w.page.AsksFor marks root place) : Touches w marks root typed place
  | older {place : Place} (fills : w.Fills place) : Touches w marks root typed place
  | typed {n : NodeId} (field : typed n) : Touches w marks root typed (.value n)

/-- What is left of a page after a part of it was bound. The nodes that were there have changed in the places
named above only, and the only new listeners are those that the template asks for. A node that is not below the
root is what it was, unless it is typed into, or an older watcher shows its value on it or on its parent; it has
no new listener. What stood in an element that shows a text or raw markup has become a root, with all below it. -/
structure Framed (w : World) (marks : Markers) (vm : ViewModel) (root : NodeId)
    (typed : NodeId → Prop) (p : Page Response) : Prop where
  linked : p.Linked
  places : w.page.Spared (w.Touches marks root typed) p
  listeners : p.listeners =
    w.page.listeners ++ (w.page.asks marks root).filterMap (·.listener? w vm)
  outside : ∀ n, n.index < w.page.nodes.size → ¬w.page.Below n root → ¬typed n → ¬w.Renders n →
    (∀ parent, w.page.parent? n = some parent → ¬w.Renders parent) → p.node? n = w.page.node? n
  unheard : ∀ n event, ¬w.page.Below n root → p.responses n event = w.page.responses n event
  freed : ∀ n, w.page.IsElement n → w.page.AsksFor marks root (.content n) →
    ∀ child ∈ w.page.children n, p.parent? child = none ∧
      ∀ x, w.page.Under x child → ¬typed x → ¬w.Renders x → p.face? x = w.page.face? x

variable {w : World} {marks : Markers} {vm : ViewModel} {root : NodeId} {typed : NodeId → Prop}
  {p : Page Response}

/-- A node has a place that may change if the template asks for something at it, if an older watcher shows
its value there, or if it is typed into. -/
theorem Touches.node {place : Place} (touches : w.Touches marks root typed place) :
    (∃ demand ∈ w.page.asks marks root, demand.node = place.node) ∨ w.Renders place.node ∨
      typed place.node := by
  cases touches with
  | bound asked =>
    obtain ⟨demand, mem, h⟩ := asked
    exact .inl ⟨demand, mem, (Demand.node_of_place? h).symm⟩
  | older fills => exact .inr (.inl fills.renders)
  | typed field => exact .inr (.inr field)

/-- The places, the listeners and the new roots say all that there is to say. -/
theorem framed_of_places (linked : w.page.Linked) (linked' : p.Linked)
    (places : w.page.Spared (w.Touches marks root typed) p)
    (listeners : p.listeners =
      w.page.listeners ++ (w.page.asks marks root).filterMap (·.listener? w vm))
    (roots : ∀ n, w.page.IsElement n → w.page.AsksFor marks root (.content n) →
      ∀ child ∈ w.page.children n, p.parent? child = none) :
    w.Framed marks vm root typed p := by
  have forest := linked.forest
  refine ⟨linked', places, listeners, fun n lt outside field older above => ?_,
    fun n event outside => ?_, fun n element asked child mem => ⟨roots n element asked child mem, ?_⟩⟩
  · refine places.node?_eq lt ?_ fun parent h touches => ?_
    · rintro place rfl touches
      obtain ⟨demand, mem, e⟩ | renders | typed := touches.node
      · exact outside (e ▸ forest.below_of_asks mem)
      · exact older renders
      · exact field typed
    · cases touches with
      | bound asked =>
        obtain ⟨demand, mem, here⟩ := asked
        have e : parent = demand.node := Demand.node_of_place? here
        exact outside ((e ▸ forest.below_of_asks mem : w.page.Below parent root).tail
          (linked.mem_children_iff.mpr h))
      | older fills => exact above parent h fills.renders
  · -- the new listeners are on nodes below the root
    have none : ((w.page.asks marks root).filterMap (·.listener? w vm)).filter
        (fun l => l.node = n && l.event = event) = [] := by
      refine List.filter_eq_nil_iff.mpr fun l hl here => ?_
      obtain ⟨demand, mem, h⟩ := List.mem_filterMap.mp hl
      simp only [Bool.and_eq_true, decide_eq_true_eq] at here
      exact outside (here.1 ▸ Demand.node_of_listener? h ▸ forest.below_of_asks mem)
    rw [Page.responses, Page.responses, listeners, List.filter_append, none, List.append_nil]
  · intro x under field older
    refine places.face?_eq (forest.lt_of_under (forest.lt_of_child mem) under) ?_
    rintro place rfl touches
    obtain ⟨demand, hd, e⟩ | renders | typed := touches.node
    · exact forest.not_below_of_asksFor asked element hd (e ▸ under.below mem)
    · exact older renders
    · exact field typed

end World

namespace Machine

variable {w : World} {marks : Markers} {vm : ViewModel} {root : NodeId} {wiring : Wiring}
  {typed : NodeId → Prop} {m₀ m : Machine} {events : List Event}

/-- Bindings touch only their own places. A part of a page is bound, and then, in any session, the model is
written to and events are delivered, but the page is written to by nothing but its bindings and inputs into
the given fields. -/
theorem bindings_stay_in_their_places (linked : w.page.Linked)
    (ok : (w.compile marks vm root).2 = .ok wiring)
    (page : m₀.world.page = (w.compile marks vm root).1.page)
    (watchers : m₀.world.watchers = (w.compile marks vm root).1.watchers)
    (run : Run (Leaves typed) m₀ events m) : w.Framed marks vm root typed m.world.page := by
  let touched (place : Place) : Prop :=
    w.Touches marks root typed place ∨ w.page.nodes.size ≤ place.node.index
  have here (d : Demand) (hd : d ∈ w.demands marks vm root) (place : Place)
      (h : d.place? = some place) : touched place := by
    rcases World.asked_or_new hd with asked | new
    · exact .inl (.bound ⟨d, asked, h⟩)
    · exact .inr (Demand.node_of_place? h ▸ new)
  have fills (place : Place) (filled : m₀.world.Fills place) : touched place := by
    obtain ⟨watcher, mem, h⟩ := filled
    rw [watchers, World.watchers_compile linked.forest ok, Array.mem_append] at mem
    rcases mem with mem | mem
    · exact .inl (.older ⟨watcher, mem, h⟩)
    · obtain ⟨demand, hd, hw⟩ := List.mem_filterMap.mp (List.mem_toArray.mp mem)
      exact here demand hd place (Demand.place?_of_watcher? hw ▸ h)
  obtain ⟨linked₀, spared₀⟩ := World.spared_compile linked ok here
  obtain ⟨linked', spared, listeners, _⟩ :=
    run.spared (page ▸ linked₀) fills fun n field => .inl (.typed field)
  rw [page] at spared listeners
  have places : w.page.Spared (w.Touches marks root typed) m.world.page :=
    (spared₀.trans spared).mono linked fun place lt touches =>
      touches.resolve_right (Nat.not_le.mpr lt)
  refine World.framed_of_places linked linked' places ?_ fun n element asked child mem => ?_
  · rw [listeners, World.listeners_compile linked.forest ok]
  · refine spared.parent?_of_none ?_ (World.parent?_compile_of_emptied linked ok asked element mem)
    exact Nat.lt_of_lt_of_le (linked.forest.lt_of_child mem) spared₀.size

/-! ## A part that shows raw markup -/

/-- A session that binds an element with raw markup, beside another element, and writes to the model. -/
def markupShown : List Step :=
  [.page (.build (.element (some "div") "div" [] [.element none "p" [("v-html", "m")] [.text "old"]])
      none),
    .page (.element "div" [] [] none),
    .newViewModel "vm" (.observed (.document (.object [("m", .text "x")]))),
    .compile "div" "vm" "s" (.given .standard),
    .viewModel "vm" (.assign "m" (.document (.text "y")))]

/-- The world of that session when nothing is bound yet. -/
def markupUnbound : World :=
  { World.empty with
    heap := ⟨#[some ⟨[⟨"m", .text "x", some []⟩], true⟩], #[], #[]⟩
    tables := #[⟨[("$data", ⟨0⟩)], [("m", ⟨0⟩)], []⟩]
    mounts := #[some [("$data", ⟨0⟩)]]
    page := ⟨#[⟨.text "old", some ⟨1⟩, []⟩,
      ⟨.element "p" [("v-html", "m")] [] none, some ⟨2⟩, [⟨0⟩]⟩,
      ⟨.element "div" [] [] none, none, [⟨1⟩]⟩, ⟨.element "div" [] [] none, none, []⟩], []⟩ }

/-- Where that session stands when the markup is bound. -/
def markupBound (answers : Array Answer) : Machine where
  session :=
    { Session.empty with
      world :=
        { World.empty with
          heap := ⟨#[some ⟨[⟨"m", .text "x", some [⟨1⟩]⟩], true⟩], #[], #[]⟩
          watchers := #[⟨⟨⟨0⟩, ⟨0⟩⟩, ⟨"m", "m", []⟩, .render .html ⟨1⟩⟩]
          tables := #[⟨[("$data", ⟨0⟩)], [("m", ⟨0⟩)], []⟩]
          mounts := #[some [("$data", ⟨0⟩)]]
          page := ⟨#[⟨.text "old", none, []⟩,
            ⟨.element "p" [("v-html", "m")] [] (some "x"), some ⟨2⟩, []⟩,
            ⟨.element "div" [] [] none, none, [⟨1⟩]⟩, ⟨.element "div" [] [] none, none, []⟩], []⟩ }
      viewModels := [("vm", ⟨⟨0⟩, ⟨0⟩⟩)]
      wirings := [("s", [⟨⟨1⟩, .directive .html, some ⟨1⟩⟩])]
      nodes := [("div", ⟨2⟩)] }
  shows := []
  frames := [.reply none (.wiring [⟨⟨1⟩, .directive .html, some "m", some ⟨1⟩⟩]) .nothing,
    .steps .outside none [.viewModel "vm" (.assign "m" (.document (.text "y")))]]
  answers

theorem markupBound_reached : ∃ before answers,
    Run (fun _ => True) (start markupShown []) before (markupBound answers) := by
  have run : Run (fun _ => True) (start markupShown []) _ _ := run_after 10 fun _ _ => trivial
  have state : (fun m : Machine => (m.session, m.shows, m.frames)) ((start markupShown []).after 10) =
      ((markupBound #[]).session, [], (markupBound #[]).frames) := by cbv
  generalize (start markupShown []).after 10 = m at run state
  obtain ⟨_, _, _, answers⟩ := m
  cases state
  exact ⟨_, answers, run⟩

theorem linked_markupUnbound : markupUnbound.page.Linked := by
  let edits : List (Page.Edit Response) := [.text "old", .element "p" [("v-html", "m")] [⟨0⟩],
    .element "div" [] [⟨1⟩], .element "div" [] []]
  have admits : Page.empty.AdmitsAll edits := by
    refine ⟨trivial, ?_, ?_, nofun, trivial⟩ <;>
    · intro child h
      rw [List.mem_singleton.mp h]
      cbv
  exact (Page.linked_empty.editAll admits).congr ⟨fun _ => rfl, fun _ => rfl⟩

theorem leaves_of_quiet {typed : NodeId → Prop} {m : Machine} (binds : ¬m.Binds)
    (quiet : ¬m.Paints ∨ ∃ owed rest, m.frames = .turns owed :: rest) : m.Leaves typed := by
  refine ⟨binds, fun top paints => ?_⟩
  rcases quiet with still | ⟨owed, rest, turns⟩
  · exact absurd (by simpa [Paints, top] using paints) still
  · rw [turns] at top
    cases top

/-- In that session the model is written to, and the watcher has its turn. -/
theorem run_of_markupBound (typed : NodeId → Prop) (answers : Array Answer) :
    Run (Leaves typed) (markupBound answers) ((markupBound answers).eventsIn 4)
      ((markupBound answers).after 4) := by
  refine run_after 4 fun k hk => ?_
  iterate 3 (rcases k with _ | k; · exact leaves_of_quiet (by cbv) (.inl (by cbv)))
  obtain rfl : k = 0 := by omega
  exact leaves_of_quiet (by cbv) (.inr ⟨[⟨1⟩], _, rfl⟩)

theorem compile_markupUnbound (answers : Array Answer) :
    markupUnbound.compile .standard ⟨⟨0⟩, ⟨0⟩⟩ ⟨2⟩ =
      ((markupBound answers).world, .ok [⟨⟨1⟩, .directive .html, some ⟨1⟩⟩]) := by cbv

/-- The old text in that session is a root and still the same, and so is the element beside. -/
theorem markup_frees_old_text : ∃ events m,
    Run (Leaves fun _ => False) (markupBound #[]) events m ∧
      markupUnbound.Framed .standard ⟨⟨0⟩, ⟨0⟩⟩ ⟨2⟩ (fun _ => False) m.world.page ∧
      m.world.page.innerMarkup? ⟨1⟩ = some "y" := by
  have compiled := compile_markupUnbound #[]
  have run := run_of_markupBound (fun _ => False) #[]
  have framed := bindings_stay_in_their_places linked_markupUnbound (congrArg Prod.snd compiled)
    (congrArg (fun r => r.1.page) compiled).symm (congrArg (fun r => r.1.watchers) compiled).symm run
  exact ⟨_, _, run, framed, by cbv⟩

/-- The element beside can be bound in that state, which adds nothing; the write to the model changes the
element with the markup nevertheless, although it is not below the one that was bound last. -/
theorem older_markup_changes_elsewhere : ∃ before answers events m,
    Run (fun _ => True) (start markupShown []) before (markupBound answers) ∧
      (markupBound answers).world.page.Linked ∧
      (markupBound answers).world.compile .standard ⟨⟨0⟩, ⟨0⟩⟩ ⟨3⟩ =
        ((markupBound answers).world, .ok []) ∧
      Run (Leaves fun _ => False) (markupBound answers) events m ∧
      ¬(markupBound answers).world.page.Below ⟨1⟩ ⟨3⟩ ∧
      (markupBound answers).world.page.innerMarkup? ⟨1⟩ = some "x" ∧
      m.world.page.innerMarkup? ⟨1⟩ = some "y" := by
  obtain ⟨before, answers, reached⟩ := markupBound_reached
  have run := run_of_markupBound (fun _ => False) answers
  have linked : (markupBound answers).world.page.Linked :=
    (linked_markupUnbound.setMarkup ⟨1⟩ "x").congr ⟨fun _ => rfl, fun _ => rfl⟩
  refine ⟨before, answers, _, _, reached, linked, by cbv, run, fun below => ?_, rfl, by cbv⟩
  obtain ⟨child, mem, _⟩ := Page.below_iff.mp below
  cases mem

end Machine

end DataBinding
