-- What a failed compilation leaves in a session. The bindings before the fault are there to stay: their
-- watchers keep their places in the registries, are owed a turn by every call that opens a round with
-- them, and show what their paths read; their listeners are never taken away.
import DataBinding.Proofs.Page.Edits
import DataBinding.Proofs.Session.Freshness
import DataBinding.Proofs.Session.Growth
import DataBinding.Proofs.Session.Painting
import DataBinding.Proofs.Template.Faults

namespace DataBinding

/-! ## Views that cannot be mounted -/

namespace World

theorem enrolled_mounting {w : World} (enrolled : w.heap.Enrolled w.watchers.size) (plan : ViewPlan)
    (model : MapId) : (w.mounting plan model).1.heap.Enrolled
      (w.mounting plan model).1.watchers.size := by
  obtain ⟨ts, ms, e⟩ := w.aside_mounting plan model
  rw [e]
  exact Heap.enrolled_apply enrolled (.observe plan.data) trivial

/-- What is done for a view before its template is compiled: the model is observed, and tables are made. -/
structure Prepares (w w' : World) (data : Value) : Prop where
  heap : w'.heap = w.heap.observe data
  watchers : w'.watchers = w.watchers
  page : w'.page = w.page
  collector : w'.collector = w.collector

theorem prepares_mounting (w : World) (plan : ViewPlan) (model : MapId) :
    w.Prepares (w.mounting plan model).1 plan.data := by
  obtain ⟨ts, ms, e⟩ := w.aside_mounting plan model
  rw [e]
  exact ⟨rfl, rfl, rfl, rfl⟩

/-- A view is not mounted because its template cannot be compiled. -/
theorem compile_of_mountView_error {w w' : World} {plan : ViewPlan} {e : CompileError}
    (failed : w.mountView plan = (w', .error (.compile e))) :
    ∃ model root, plan.data = .map model ∧ plan.mount.bind w.page.query = some root ∧
      (w.mounting plan model).1.compile plan.marks (w.mounting plan model).2 root = (w', .error e) := by
  by_cases map : ∃ model, plan.data = .map model
  · obtain ⟨model, data⟩ := map
    rw [mountView_of_map w data] at failed
    have page := (w.prepares_mounting plan model).page
    rcases found : plan.mount.bind w.page.query with _ | root
    · simp [page, found, compileMounted] at failed
    · simp only [page, found, compileMounted] at failed
      refine ⟨model, root, data, rfl, ?_⟩
      rcases run : (w.mounting plan model).1.compile plan.marks (w.mounting plan model).2 root
        with ⟨w₁, cause | wiring⟩
      · rw [run] at failed
        cases failed
        rfl
      · rw [run] at failed
        cases failed
  · rw [mountView_of_no_map w map] at failed
    cases failed

end World

/-! ## Watchers at work -/

namespace Machine

/-- A watcher that a world has is at work in a later state: it has not left a registry, a call that opens a
round with it owes it a turn, and its turn shows what its path reads then. -/
structure Employs (m : Machine) (w : World) (id : WatcherId) (watcher : Watcher) : Prop where
  there : m.world.watcher? id = some watcher
  registered : ∀ r ws ws', w.heap.watchers? r = some ws → id ∈ ws →
    m.world.heap.watchers? r = some ws' → id ∈ ws'
  owed : ∀ call w', m.Makes call w' → id ∈ call.round w'.heap → m.next.Owes id
  shows : ∀ directive n owed rest, watcher.reaction = .render directive n →
    m.frames = .turns (id :: owed) :: rest → m.next.world.page =
      m.world.page.showing directive n (m.world.heap.render (m.world.valueOf watcher))

variable {m₀ m : Machine} {events : List Event} {may : Machine → Prop}

theorem watcher?_moved (m : Machine) (id : WatcherId) :
    m.next.world.watcher? id = m.moved.world.watcher? id := by
  rw [World.watcher?, World.watcher?, m.next_effect.2.1]

theorem Run.watcher? (run : Run may m₀ events m) (sound : m₀.Sound) {id : WatcherId}
    {watcher : Watcher} (there : m₀.world.watcher? id = some watcher)
    (among : id.Among m₀.world.watchers.size) : m.world.watcher? id = some watcher := by
  suffices id.Among m.world.watchers.size ∧ m.world.watcher? id = some watcher from this.2
  induction run with
  | start => exact ⟨among, there⟩
  | move before _ ih =>
    have sound := before.sound sound
    refine ⟨ih.1.mono ?_, (watcher?_next sound ih.1).trans ih.2⟩
    rw [next_effect _ |>.2.1]
    exact (watchers_moved sound).1

theorem Run.mem_listeners (run : Run may m₀ events m) {l : Listener Response}
    (there : l ∈ m₀.world.page.listeners) : l ∈ m.world.page.listeners := by
  induction run with
  | start => exact there
  | move _ _ ih => exact listeners_next ih

/-- Whatever a move leaves stays at work. -/
theorem employs_of_moved (sound : m₀.Sound) (run : Run may m₀.next events m) {id : WatcherId}
    {watcher : Watcher} (there : m₀.moved.world.watcher? id = some watcher)
    (among : id.Among m₀.moved.world.watchers.size) :
    m.Employs m₀.moved.world id watcher := by
  have there' : m.world.watcher? id = some watcher := by
    refine run.watcher? (sound_next sound) ((m₀.watcher?_moved id).trans there) ?_
    rwa [m₀.next_effect.2.1]
  refine ⟨there', fun r ws ws' before mem after => ?_, fun call w' makes round => ?_,
    fun directive n owed rest reaction top => ?_⟩
  · have grows := m₀.next_effect.2.2.2.2.grows.trans run.grows
    exact (grows.watchers before after).subset mem
  · obtain ⟨_, _, kept, _, frames | ⟨nobody, _⟩⟩ := makes_effect (run.sound (sound_next sound)) makes
    · exact ⟨call.round w'.heap, by simp [frames], round⟩
    · rw [nobody] at round
      cases round
  · obtain ⟨_, watcher', there'', _, result⟩ := hands_of_turns top there'
    rw [there'] at there''
    cases there''
    rw [reaction] at result
    rw [result.1, World.render_eq]

end Machine

/-- Whatever is done in a session after a move that ends in a world, the watchers of the world that another
one has not, and all its listeners, stay at work. -/
def World.Lasts (w w' : World) : Prop :=
  ∀ (m₀ m : Machine) events, m₀.Sound → m₀.moved.world = w' → Machine.Run (fun _ => True) m₀.next events m →
    (∀ id watcher, w.watchers.size < id.index → w'.watcher? id = some watcher →
      m.Employs w' id watcher) ∧
    ∀ l ∈ w'.page.listeners, l ∈ m.world.page.listeners

theorem World.lasts (w w' : World) : w.Lasts w' := by
  rintro m₀ m events sound rfl run
  refine ⟨fun id watcher new there => ?_, fun l mem => ?_⟩
  · refine Machine.employs_of_moved sound run there ⟨Nat.zero_lt_of_lt new, ?_⟩
    have lt := (Array.getElem?_eq_some_iff.mp there).1
    omega
  · refine run.mem_listeners ?_
    rwa [m₀.page_next]

namespace World

/-- A failing compilation leaves exactly the bindings before the fault. -/
theorem failing_compile_keeps_earlier_bindings {w : World} (forest : w.page.Forest)
    (enrolled : w.heap.Enrolled w.watchers.size) :
    (∀ marks vm root e, (w.compile marks vm root).2 = .error e →
      ∃ made, w.Stops (w.compile marks vm root).1 marks vm root e made ∧
        w.Lasts (w.compile marks vm root).1) ∧
    ∀ plan w' e, w.mountView plan = (w', .error (.compile e)) →
      ∃ model root made, plan.data = .map model ∧ plan.mount.bind w.page.query = some root ∧
        w.Prepares (w.mounting plan model).1 plan.data ∧
        (w.mounting plan model).1.Stops w' plan.marks (w.mounting plan model).2 root e made ∧
        w.Lasts w' := by
  refine ⟨fun marks vm root e failed => ?_, fun plan w' e failed => ?_⟩
  · obtain ⟨made, stops⟩ := stops_compile forest enrolled failed
    exact ⟨made, stops, w.lasts _⟩
  · obtain ⟨model, root, data, found, compiled⟩ := compile_of_mountView_error failed
    have prepares := w.prepares_mounting plan model
    have forest' : (w.mounting plan model).1.page.Forest := prepares.page.symm ▸ forest
    obtain ⟨made, stops⟩ := stops_compile forest' (enrolled_mounting enrolled plan model)
      (congrArg Prod.snd compiled)
    rw [compiled] at stops
    exact ⟨model, root, made, data, found, prepares, stops, w.lasts w'⟩

/-- A paragraph that can be bound, and after it a button that calls a method which is not there. -/
def halfBound : List (Page.Edit Response) :=
  [.element "p" [("v-text", "msg")] [], .element "button" [("@click", "missing")] [],
    .element "div" [] [⟨0⟩, ⟨1⟩]]

/-- A world with the page that these edits make. -/
def torn : World :=
  let page : Page Response :=
    ⟨#[⟨.element "p" [("v-text", "msg")] [] none, some ⟨2⟩, []⟩,
      ⟨.element "button" [("@click", "missing")] [] none, some ⟨2⟩, []⟩,
      ⟨.element "div" [] [] none, none, [⟨0⟩, ⟨1⟩]⟩], []⟩
  let heap := (Heap.empty.newMap [("msg", .text "hello")]).1
  (World.viewModelOf { World.empty with heap, page } ⟨0⟩).1

theorem forest_torn : torn.page.Forest := by
  have admits : Page.empty.AdmitsAll halfBound :=
    ⟨nofun, nofun, by simp [Page.Admits, Page.edit, Page.element, Page.create, Page.empty], trivial⟩
  exact (Page.linked_empty.editAll admits).forest.congr rfl

theorem items_torn : torn.page.items .standard ⟨2⟩ =
    [.demand (.value ⟨0⟩ (.directive .text) "msg" "v-text"), .echo ⟨3⟩ "msg",
      .demand (.event ⟨1⟩ "click" "missing")] := by
  cbv

theorem demands_torn : torn.demands .standard ⟨⟨0⟩, ⟨0⟩⟩ ⟨2⟩ =
    [.value ⟨0⟩ (.directive .text) "msg" "v-text", .event ⟨1⟩ "click" "missing"] := by
  rw [demands, items_torn]
  rfl

theorem failed_torn : (torn.compile .standard ⟨⟨0⟩, ⟨0⟩⟩ ⟨2⟩).2 =
    .error (.missingMethod "click" "missing") := by
  have settles := outcome_eq forest_torn .standard ⟨⟨0⟩, ⟨0⟩⟩ ⟨2⟩
  rw [outcome, demands_torn] at settles
  change _ = Except.error (CompileError.missingMethod "click" "missing") at settles
  rcases h : (torn.compile .standard ⟨⟨0⟩, ⟨0⟩⟩ ⟨2⟩).2 with e | wiring
  · rw [h] at settles
    exact congrArg _ (Except.error.inj settles)
  · rw [h] at settles
    cases settles

theorem enrolled_torn : torn.heap.Enrolled torn.watchers.size := by
  have empty : Heap.empty.Enrolled 0 := by
    intro r ws hws
    cases r <;> simp [Heap.watchers?, Heap.lookup?, Heap.map?, Heap.list?, Heap.empty] at hws
  exact Heap.enrolled_apply empty (.newMap [("msg", .text "hello")]) trivial

/-- The paragraph is bound, and the button is not. -/
theorem torn_keeps_paragraph :
    (torn.compile .standard ⟨⟨0⟩, ⟨0⟩⟩ ⟨2⟩).1.page.listeners = [] ∧
      (torn.compile .standard ⟨⟨0⟩, ⟨0⟩⟩ ⟨2⟩).1.watchers =
        #[⟨⟨⟨0⟩, ⟨0⟩⟩, ⟨"msg", "msg", []⟩, .render .text ⟨0⟩⟩] ∧
      (torn.compile .standard ⟨⟨0⟩, ⟨0⟩⟩ ⟨2⟩).1.page.nodes =
        (torn.page.setText ⟨0⟩ "hello").nodes := by
  obtain ⟨made, stops, _⟩ :=
    (failing_compile_keeps_earlier_bindings forest_torn enrolled_torn).1 _ _ _ _ failed_torn
  obtain ⟨fault, later, split, unmet⟩ := stops.order
  rw [demands_torn] at split
  obtain rfl : made = [.value ⟨0⟩ (.directive .text) "msg" "v-text"] := by
    rcases made with _ | ⟨first, _ | ⟨second, more⟩⟩
    · cases split
      cases unmet
    · cases split
      rfl
    · simp at split
  exact ⟨stops.gains.listeners, stops.gains.watchers, congrArg Page.nodes stops.gains.page⟩

end World

end DataBinding
