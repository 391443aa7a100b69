-- What steps do. Steps on the page change its nodes, and compiling and mounting bind it; every other step
-- leaves the page to the turns that it owes. A step touches a container by a call, by the definition of
-- a slot or by an observation.
import DataBinding.Proofs.Session.Deeds.Operations

namespace DataBinding

variable {c : Context} {s : Session} {paints binds : Prop}

/-! ## Watchers and registries -/

theorem WatcherOp.prepares (id : WatcherId) (op : WatcherOp) :
    Act.Prepares paints binds (op.perform id) := by
  unfold perform
  refine Act.prepares_world.bind fun _ => ?_
  split
  · exact .fail _
  · cases op with
    | value => exact (Act.Prepares.still fun _ _ => rfl).bind fun _ => .pure _
    | path => exact .pure _
    | update => exact .pure _

theorem RegistryOp.prepares (r : Registry) (op : RegistryOp) :
    Act.Prepares paints binds (op.perform r) := by
  cases op with
  | register watcher =>
    dsimp only [perform]
    refine (Act.prepares_watcher watcher).bind fun id => Act.prepares_heap.bind fun _ => ?_
    exact (Act.Prepares.onHeap fun _ => ⟨.register id r, rfl, rfl⟩).bind fun _ => .pure _
  | depend =>
    dsimp only [perform]
    refine (Act.Prepares.depend (fun _ => [r]) fun _ => ()).bind fun _ => ?_
    exact Act.prepares_heap.bind fun _ => .pure _
  | notify => exact Act.prepares_heap.bind fun _ => .pure _
  | info watcher =>
    dsimp only [perform]
    refine Act.prepares_heap.bind fun _ => ?_
    cases watcher with
    | none => exact (Act.Prepares.pure none).bind fun _ => .pure _
    | some name => exact (Act.prepares_watcher name).bind fun _ => .pure _

/-! ## Nodes -/

theorem Act.prepares_mapM {α β : Type} {f : α → Act β} (hf : ∀ a, Act.Prepares paints binds (f a))
    (as : List α) : Act.Prepares paints binds (as.mapM f) := by
  induction as with
  | nil => exact .pure _
  | cons a rest ih =>
    rw [List.mapM_cons]
    exact (hf a).bind fun _ => ih.bind fun _ => .pure _

mutual

theorem NodeSpec.prepares_build (painted : paints) (spec : NodeSpec) :
    Act.Prepares paints binds spec.build := by
  match spec with
  | .text s =>
    unfold build
    exact .onPage (fun p => p.repaints_create _) painted
  | .comment s =>
    unfold build
    exact .onPage (fun p => p.repaints_create _) painted
  | .element name tag attributes children =>
    unfold build
    refine (prepares_buildAll painted children).bind fun nodes => ?_
    refine (Act.Prepares.onPage (fun p => p.repaints_element _ _ nodes) painted).bind fun n => ?_
    exact (Act.prepares_nameNode name n).bind fun _ => .pure _

theorem NodeSpec.prepares_buildAll (painted : paints) (specs : List NodeSpec) :
    Act.Prepares paints binds (NodeSpec.buildAll specs) := by
  match specs with
  | [] =>
    unfold buildAll
    exact .pure _
  | spec :: rest =>
    unfold buildAll
    refine (prepares_build painted spec).bind fun _ => ?_
    exact (prepares_buildAll painted rest).bind fun _ => .pure _

end

namespace PageOp

theorem prepares_created (name : Option String) (n : NodeId) :
    Act.Prepares paints binds (created name n) :=
  (Act.prepares_nameNode name n).bind fun _ => .pure _

theorem prepares_located (name : Option String) (n : Option NodeId) :
    Act.Prepares paints binds (located name n) := by
  unfold located
  split
  · exact .pure _
  · exact prepares_created name _

theorem prepares_changing (painted : paints) (handle : String)
    (change : NodeId → Page Response → Page Response)
    (hc : ∀ n p, Page.Repaints p (change n p)) :
    Act.Prepares paints binds (changing handle change) := by
  refine (Act.prepares_node handle).bind fun n => ?_
  exact (Act.Prepares.onPage (hc n) painted).bind fun _ => .pure _

theorem prepares_reading (handle : String) (read : NodeId → Page Response → Reply Value) :
    Act.Prepares paints binds (reading handle read) :=
  (Act.prepares_node handle).bind fun _ => Act.prepares_page.bind fun _ => .pure _

theorem prepares_dispatching (n : NodeId) (event : PageEvent) :
    Act.Prepares paints binds (dispatching n event) :=
  Act.prepares_page.bind fun _ => .pure _

/-- Steps that write to the page; all others only read it, or deliver an event. -/
def Paints : PageOp → Prop
  | .element .. | .text .. | .comment .. | .build .. | .append .. | .setText .. | .setProperty ..
  | .setAttribute .. | .setMarkup .. | .input .. => True
  | _ => False

theorem prepares (op : PageOp) (painted : op.Paints → paints) : Act.Prepares paints binds op.perform := by
  have put {f : Page Response → Page Response × NodeId} (allowed : paints) (name : Option String)
      (hf : ∀ p, Page.Repaints p (f p).1) :
      Act.Prepares paints binds (do created name (← Act.onPage f)) :=
    (Act.Prepares.onPage hf allowed).bind (prepares_created name)
  cases op with
  | element tag attributes children name =>
    dsimp only [perform]
    refine (Act.prepares_mapM Act.prepares_node children).bind fun nodes => ?_
    exact put (painted trivial) name fun p => p.repaints_element tag attributes nodes
  | text s name => exact put (painted trivial) name fun p => p.repaints_create _
  | comment s name => exact put (painted trivial) name fun p => p.repaints_create _
  | build spec name => exact (spec.prepares_build (painted trivial)).bind (prepares_created name)
  | append above below =>
    dsimp only [perform]
    refine (Act.prepares_node above).bind fun parent => (Act.prepares_node below).bind fun n => ?_
    exact (Act.Prepares.onPage (fun p => p.repaints_append parent n) (painted trivial)).bind
      fun _ => .pure _
  | query selector name => exact Act.prepares_page.bind fun _ => prepares_located name _
  | child handle position name =>
    dsimp only [perform]
    refine (Act.prepares_node handle).bind fun n => Act.prepares_page.bind fun _ => ?_
    exact prepares_located name _
  | node handle | markup handle | textOf handle | attr handle name | property handle name
  | listeners handle event => exact prepares_reading handle _
  | setText handle value =>
    exact prepares_changing (painted trivial) handle _ fun n p => p.repaints_setText n value
  | setProperty handle name value =>
    exact prepares_changing (painted trivial) handle _ fun n p => p.repaints_change n _
  | setAttribute handle name value =>
    exact prepares_changing (painted trivial) handle _ fun n p => p.repaints_change n _
  | setMarkup handle value =>
    exact prepares_changing (painted trivial) handle _ fun n p => p.repaints_setMarkup n value
  | dispatch handle event | click handle =>
    exact (Act.prepares_node handle).bind fun _ => prepares_dispatching _ _
  | input handle value =>
    dsimp only [perform]
    refine (Act.prepares_node handle).bind fun n => ?_
    exact (Act.Prepares.onPage (fun p => p.repaints_change n _) (painted trivial)).bind
      fun _ => prepares_dispatching _ _

end PageOp

/-! ## Templates -/

theorem prepares_compileStep (bound : binds) (node viewModel name : String) (marks : MarksTerm) :
    Act.Prepares paints binds (compileStep node viewModel name marks) := by
  refine (Act.prepares_node node).bind fun n => ?_
  refine (Act.prepares_viewModel viewModel).bind fun vm => ?_
  refine (Act.prepares_marks marks).bind fun marks => ?_
  refine (Act.Prepares.onWorld fun w => ?_).bind fun r => ?_
  · exact .single (.compile marks vm n) ⟨rfl, bound⟩
  split
  · exact .fail _
  · refine (Act.Prepares.still fun _ _ => rfl).bind fun _ => ?_
    exact Act.prepares_world.bind fun _ => .pure _

theorem World.does_mountView {may : World → Deed → Prop} (bound : binds) {w : World}
    (plan : ViewPlan) (observe : may w (.edit (.observe plan.data)))
    (plain : ∀ w d, Deed.Plain paints binds w d → may w d) : w.Does may (w.mountView plan).1 := by
  have observed : w.Does may { w with heap := w.heap.observe plan.data } :=
    .single (.edit (.observe plan.data)) observe
  by_cases hd : ∃ m, plan.data = .map m
  · obtain ⟨m, hm⟩ := hd
    have mounted : w.Does may (w.mounting plan m).1 := by
      obtain ⟨ts, ms, e⟩ := w.aside_mounting plan m
      rw [e]
      exact observed.snoc (d := .tables ts ms) (plain _ _ ⟨rfl, trivial⟩)
    have compiled : w.Does may ((w.mounting plan m).1.compileMounted plan.marks
        (w.mounting plan m).2 (plan.mount.bind (w.mounting plan m).1.page.query)).1 := by
      rcases plan.mount.bind (w.mounting plan m).1.page.query with _ | root
      · exact mounted
      · exact mounted.snoc (d := .compile plan.marks _ root) (plain _ _ ⟨rfl, bound⟩)
    rw [mountView_of_map w hm]
    dsimp only
    split <;> rename_i e <;> rwa [e] at compiled
  · rw [mountView_of_no_map w hd]
    exact observed

theorem prepares_newMethods (methods : List (String × List Step × Option Nat)) :
    Act.Prepares paints binds (newMethods methods) := by
  refine Act.prepares_mapM (fun method => ?_) methods
  exact (Act.prepares_newScript _ _ _ _).bind fun _ => .pure _

theorem does_viewStep (bound : binds) (name : String) (data : Term) (mount : Option String)
    (methods : List (String × List Step × Option Nat)) (marks : MarksTerm) (described : Bool) :
    s.world.Does
      (Deed.Of ((Step.view name data mount methods marks described).Touches c s) paints binds)
      ((viewStep name data mount methods marks described).on c s).2.world := by
  refine data.prepares_eval.does_bind fun v s₁ arg => ?_
  refine (Act.prepares_marks marks).does_bind fun given s₂ read => ?_
  refine (prepares_newMethods methods).does_bind fun scripts s₃ made => ?_
  refine Act.does_bind ?_ fun r _ _ => ?_
  · exact World.does_mountView bound ⟨v, scripts, mount, given⟩
      (.edit (.view arg read made) fun _ => rfl) fun _ _ plain => plain.of
  · split
    · exact .nil
    · refine ((Act.Prepares.still fun _ _ => rfl).bind fun _ => ?_).does
      exact Act.prepares_world.bind fun _ => .pure _

theorem Subject.prepares_inWords (subject : Subject) :
    Act.Prepares paints binds subject.inWords := by
  cases subject with
  | value t => exact t.prepares_eval.bind fun _ => Act.prepares_heap.bind fun _ => .pure _
  | viewModel name =>
    exact (Act.prepares_viewModel name).bind fun _ => Act.prepares_world.bind fun _ => .pure _
  | link name => exact (Act.prepares_link name).bind fun _ => Act.prepares_world.bind fun _ => .pure _
  | registry d => exact d.prepares_eval.bind fun _ => Act.prepares_heap.bind fun _ => .pure _
  | page => exact Act.prepares_page.bind fun _ => .pure _
  | wiring name => exact (Act.prepares_wiring name).bind fun _ => .pure _
  | view name =>
    dsimp only [inWords]
    refine Act.prepares_get.bind fun _ => (Act.prepares_found _ _ _).bind fun _ => ?_
    exact Act.prepares_world.bind fun _ => .pure _
  | watcher name =>
    dsimp only [inWords]
    refine (Act.prepares_watcher name).bind fun _ => Act.prepares_world.bind fun _ => ?_
    exact (Act.prepares_found _ _ _).bind fun _ => .pure _

/-! ## Steps -/

namespace Step

/-- Steps that write to the page or add a listener to it. -/
def Paints : Step → Prop
  | .page op => op.Paints
  | .listen .. => True
  | _ => False

/-- Compiling and mounting bind the page. -/
def Binds : Step → Prop
  | .compile .. | .view .. => True
  | _ => False

theorem does_map (t : Term) (op : MapOp) : s.world.Does
    (Deed.Of ((Step.map t op).Touches c s) paints binds) ((Step.map t op).perform.on c s).2.world := by
  refine t.prepares_evalMap.does_bind fun m s' on => ?_
  exact (op.does m).mono fun _ _ of => of.mono fun _ _ touches => .map on touches

theorem does_list (t : Term) (op : ListOp) : s.world.Does
    (Deed.Of ((Step.list t op).Touches c s) paints binds)
    ((Step.list t op).perform.on c s).2.world := by
  refine t.prepares_evalList.does_bind fun l s' on => ?_
  refine (op.does l).mono fun _ _ of => of.mono ?_
  rintro _ s'' ⟨call, calls, rfl⟩
  exact .call (.list on calls)

theorem does_viewModel (name : String) (op : ViewModelOp) : s.world.Does
    (Deed.Of ((Step.viewModel name op).Touches c s) paints binds)
    ((Step.viewModel name op).perform.on c s).2.world := by
  refine (Act.prepares_viewModel name).does_bind fun vm s' on => ?_
  refine (op.does vm).mono fun _ _ of => of.mono ?_
  rintro _ s'' ⟨call, calls, rfl⟩
  exact .call (.viewModel on calls)

/-- The deeds of a step, in every session. -/
theorem does (step : Step) : s.world.Does (Deed.Of (step.Touches c s) step.Paints step.Binds)
    (step.perform.on c s).2.world := by
  cases step with
  | map t op => exact does_map t op
  | list t op => exact does_list t op
  | viewModel name op => exact does_viewModel name op
  | keep name t =>
    dsimp only [perform]
    refine (t.prepares_eval.bind fun _ => ?_).does
    exact (Act.Prepares.still fun _ _ => rfl).bind fun _ => .pure _
  | value t | dump t => exact (t.prepares_eval.bind fun _ => .pure _).does
  | render t | json t =>
    exact (t.prepares_eval.bind fun _ => Act.prepares_heap.bind fun _ => .pure _).does
  | same a b => exact (a.prepares_eval.bind fun _ => b.prepares_eval.bind fun _ => .pure _).does
  | observe t =>
    dsimp only [perform]
    refine t.prepares_eval.does_bind fun v s' arg => ?_
    exact Act.does_bind (Edit.does (.observe arg) rfl) fun _ _ _ => .nil
  | drop kind name =>
    dsimp only [perform]
    refine ((Act.Prepares.still fun c s => ?_).bind fun _ => .pure _).does
    cases kind <;> rfl
  | newViewModel name origin =>
    dsimp only [perform]
    refine Act.does_bind (origin.does name) fun vm s' _ => ?_
    refine ((Act.Prepares.still fun _ _ => rfl).bind fun _ => ?_).does
    exact Act.prepares_world.bind fun _ => .pure _
  | defineMethod owner name script limit =>
    dsimp only [perform]
    refine ((Act.prepares_viewModel owner).bind fun vm => ?_).does
    refine (Act.prepares_newScript _ _ _ _).bind fun script => ?_
    exact (Act.Prepares.aside fun w => w.aside_putMethod vm.table name script).bind fun _ => .pure _
  | live handle =>
    dsimp only [perform]
    exact ((Act.prepares_link handle).bind fun _ => Act.prepares_world.bind fun _ => .pure _).does
  | follow handle name =>
    dsimp only [perform]
    refine ((Act.prepares_link handle).bind fun l => ?_).does
    refine (Act.Prepares.aside fun w => w.aside_follow l).bind fun vm => ?_
    exact (Act.Prepares.still fun _ _ => rfl).bind fun _ => .pure _
  | watch owner expression name script limit =>
    dsimp only [perform]
    refine ((Act.prepares_viewModel owner).bind fun vm => ?_).does
    refine (Act.prepares_parse expression).bind fun path => ?_
    refine (Act.prepares_newScript _ _ _ _).bind fun script => ?_
    refine Act.Prepares.bind (.onWorld fun w => ?_) fun id => ?_
    · exact .single (.watch vm.link path script) ⟨rfl, trivial⟩
    · exact (Act.Prepares.still fun _ _ => rfl).bind fun _ => .pure _
  | watcher name op =>
    dsimp only [perform]
    exact ((Act.prepares_watcher name).bind op.prepares).does
  | collecting => exact (Act.prepares_world.bind fun _ => .pure _).does
  | newRegistry name =>
    dsimp only [perform]
    refine Act.Prepares.does (.bind (.onHeap fun _ => ⟨.newRegistry, rfl, rfl⟩) fun r => ?_)
    exact (Act.Prepares.still fun _ _ => rfl).bind fun _ => .pure _
  | registry d op =>
    dsimp only [perform]
    exact (d.prepares_eval.bind op.prepares).does
  | page op => exact (op.prepares id).does
  | listen node event tag script limit =>
    dsimp only [perform]
    refine ((Act.prepares_node node).bind fun n => ?_).does
    refine (Act.prepares_newScript _ _ _ _).bind fun script => ?_
    refine Act.Prepares.bind (fun _ s => ?_) fun _ => .pure _
    exact .single (.listen n event (.script script)) ⟨rfl, trivial⟩
  | compile node owner name marks => exact (prepares_compileStep trivial node owner name marks).does
  | view name data mount methods marks described =>
    exact does_viewStep trivial name data mount methods marks described
  | wiring name | bound name expression =>
    dsimp only [perform]
    exact ((Act.prepares_wiring name).bind fun _ => Act.prepares_world.bind fun _ => .pure _).does
  | describe subject => exact (subject.prepares_inWords.bind fun _ => .pure _).does

end Step

theorem Session.perform_fst (s : Session) (c : Context) (step : Step) :
    (s.perform c step).1 = (step.perform.on c s).2 := by
  rcases hr : step.perform.on c s with ⟨f | outcome, s'⟩
  · rw [perform_of_error hr]
  · rw [perform_of_ok hr]

end DataBinding
