-- Which moves flatten. A step of a view model, a new view model over an observed map and a mounted view
-- flatten one container each, in a world that has all properties of the world before; every other
-- move leaves the properties as they are.
import DataBinding.Proofs.Session.Deeds.Moves
import DataBinding.Proofs.Session.Properties

namespace DataBinding

open Act

variable {c : Context} {s : Session} {w : World} {t : TableId} {name : String}

/-! ## View models -/

namespace World

/-- A new view model over a map, before the map is flattened. -/
def unflattened (w : World) (m : MapId) : World × ViewModel :=
  (w.newViewModel.1.mount w.newViewModel.2 modelName m, w.newViewModel.2)

theorem sameProperties_unflattened (w : World) (m : MapId) :
    w.SameProperties (w.unflattened m).1 :=
  w.sameProperties_newViewModel.trans (sameProperties_mount _ _ _ _)

theorem sameProperties_compileMounted (w : World) (marks : Markers) (vm : ViewModel)
    (root : Option NodeId) : w.SameProperties (w.compileMounted marks vm root).1 := by
  cases root with
  | none => exact .refl w
  | some root => exact .of_tables (w.wires_compile marks vm root).tables

/-- A view over a map flattens the map once, whatever becomes of its template. -/
theorem sameProperties_mountView {plan : ViewPlan} {m : MapId} (hm : plan.data = .map m) (w : World) :
    let u := { w with heap := w.heap.observe plan.data }.unflattened m
    (u.1.flatten u.2.table modelName).1.SameProperties (w.mountView plan).1 := by
  intro u
  have methods (w : World) (t : TableId) : w.SameProperties
      (plan.methods.foldl (fun w method => w.putMethod t method.1 method.2) w) := by
    induction plan.methods generalizing w with
    | nil => exact .refl w
    | cons method rest ih => exact (w.sameProperties_putMethod t method.1 method.2).trans (ih _)
  have mounted : (u.1.flatten u.2.table modelName).1.SameProperties (w.mounting plan m).1 :=
    methods _ _
  have compiled := mounted.trans (sameProperties_compileMounted _ plan.marks
    (w.mounting plan m).2 (plan.mount.bind (w.mounting plan m).1.page.query))
  rw [mountView_of_map w hm]
  dsimp only
  split <;> next e => rwa [e] at compiled

end World

/-- The step of a view model that flattens is the only one that may change properties. -/
theorem ViewModelOp.keepsProperties (vm : ViewModel) {op : ViewModelOp}
    (other : ∀ name, op ≠ .flatten name) : KeepsProperties (op.perform vm) := by
  have writing {target : World → Option Value}
      {write : World → World × Except PathError (List WatcherId)}
      (tables : ∀ w, (write w).1.tables = w.tables) :
      KeepsProperties (do writing vm (target (← Act.world)) write) := by
    refine keepsProperties_world.bind fun w => ?_
    refine (KeepsProperties.onWorld fun w => .of_tables (tables w)).bind fun owed => ?_
    exact (keepsProperties_ofPath owed).bind fun _ => .pure _
  cases op with
  | flatten name => exact absurd rfl (other name)
  | clone name | link name => exact (KeepsProperties.still fun _ _ => rfl).bind fun _ => .pure _
  | same handle => exact (keepsProperties_viewModel handle).bind fun _ => .pure _
  | mount name t =>
    dsimp only [perform]
    refine t.keepsProperties_evalMap.bind fun m => ?_
    exact (KeepsProperties.onWorld fun w => w.sameProperties_mount vm name m).bind fun _ => .pure _
  | container _ | data | properties | has _ => exact keepsProperties_world.bind fun _ => .pure _
  | get key => exact (KeepsProperties.depend _ _).bind fun _ => .pure _
  | set key v =>
    dsimp only [perform]
    refine v.keepsProperties_eval.bind fun v => ?_
    exact writing fun w => w.tables_setProperty vm.table key v
  | evaluate expression =>
    dsimp only [perform]
    refine (keepsProperties_parse expression).bind fun path => ?_
    exact (KeepsProperties.depend _ _).bind fun _ => .pure _
  | assign expression v =>
    dsimp only [perform]
    refine (keepsProperties_parse expression).bind fun path => v.keepsProperties_eval.bind fun v => ?_
    exact writing fun w => w.tables_assign vm.table path v
  | «alias» method name =>
    dsimp only [perform]
    refine keepsProperties_world.bind fun w => ?_
    split
    · exact .pure _
    · refine (KeepsProperties.onWorld fun w => ?_).bind fun _ => .pure _
      exact w.sameProperties_putMethod vm.table name _
  | call method v =>
    dsimp only [perform]
    refine v.keepsProperties_eval.bind fun v => keepsProperties_world.bind fun w => ?_
    split
    · exact .pure _
    · exact .pure _

/-! ## Watchers, registries and the page -/

theorem WatcherOp.keepsProperties (id : WatcherId) (op : WatcherOp) :
    KeepsProperties (op.perform id) := by
  refine keepsProperties_world.bind fun w => ?_
  split
  · exact .fail _
  · cases op with
    | value => exact (KeepsProperties.still fun _ _ => rfl).bind fun _ => .pure _
    | path | update => exact .pure _

theorem RegistryOp.keepsProperties (r : Registry) (op : RegistryOp) :
    KeepsProperties (op.perform r) := by
  cases op with
  | register watcher =>
    dsimp only [perform]
    refine (keepsProperties_watcher watcher).bind fun id => keepsProperties_heap.bind fun _ => ?_
    exact (KeepsProperties.onHeap _).bind fun _ => .pure _
  | depend =>
    dsimp only [perform]
    refine (KeepsProperties.depend (fun _ => [r]) fun _ => ()).bind fun _ => ?_
    exact keepsProperties_heap.bind fun _ => .pure _
  | notify => exact keepsProperties_heap.bind fun _ => .pure _
  | info watcher =>
    dsimp only [perform]
    refine keepsProperties_heap.bind fun _ => ?_
    cases watcher with
    | none => exact (KeepsProperties.pure none).bind fun _ => .pure _
    | some name => exact (keepsProperties_watcher name).bind fun _ => .pure _

mutual

theorem NodeSpec.keepsProperties_build (spec : NodeSpec) : KeepsProperties spec.build := by
  match spec with
  | .text s | .comment s =>
    unfold build
    exact .onPage _
  | .element name tag attributes children =>
    unfold build
    refine (keepsProperties_buildAll children).bind fun nodes => ?_
    refine (KeepsProperties.onPage _).bind fun n => ?_
    exact (keepsProperties_nameNode name n).bind fun _ => .pure _

theorem NodeSpec.keepsProperties_buildAll (specs : List NodeSpec) :
    KeepsProperties (NodeSpec.buildAll specs) := by
  match specs with
  | [] =>
    unfold buildAll
    exact .pure _
  | spec :: rest =>
    unfold buildAll
    refine (keepsProperties_build spec).bind fun _ => ?_
    exact (keepsProperties_buildAll rest).bind fun _ => .pure _

end

theorem PageOp.keepsProperties (op : PageOp) : KeepsProperties op.perform := by
  have created (name : Option String) (n : NodeId) : KeepsProperties (created name n) :=
    (keepsProperties_nameNode name n).bind fun _ => .pure _
  have located (name : Option String) (n : Option NodeId) : KeepsProperties (located name n) := by
    unfold PageOp.located
    split
    · exact .pure _
    · exact created name _
  have dispatching (n : NodeId) (event : PageEvent) : KeepsProperties (dispatching n event) :=
    keepsProperties_page.bind fun _ => .pure _
  cases op with
  | element tag attributes children name =>
    dsimp only [perform]
    refine (keepsProperties_mapM keepsProperties_node children).bind fun nodes => ?_
    exact (KeepsProperties.onPage _).bind (created name)
  | text s name | comment s name => exact (KeepsProperties.onPage _).bind (created name)
  | build spec name => exact spec.keepsProperties_build.bind (created name)
  | append above below =>
    dsimp only [perform]
    refine (keepsProperties_node above).bind fun _ => (keepsProperties_node below).bind fun _ => ?_
    exact (KeepsProperties.onPage _).bind fun _ => .pure _
  | query selector name => exact keepsProperties_page.bind fun _ => located name _
  | child handle position name =>
    exact (keepsProperties_node handle).bind fun _ => keepsProperties_page.bind fun _ =>
      located name _
  | node handle | markup handle | textOf handle | attr handle name | property handle name
  | listeners handle event =>
    exact (keepsProperties_node handle).bind fun _ => keepsProperties_page.bind fun _ => .pure _
  | setText handle value | setProperty handle name value | setAttribute handle name value
  | setMarkup handle value =>
    exact (keepsProperties_node handle).bind fun _ => (KeepsProperties.onPage _).bind fun _ => .pure _
  | dispatch handle event | click handle =>
    exact (keepsProperties_node handle).bind fun _ => dispatching _ _
  | input handle value =>
    exact (keepsProperties_node handle).bind fun _ => (KeepsProperties.onPage _).bind fun _ =>
      dispatching _ _

theorem keepsProperties_compileStep (node viewModel name : String) (marks : MarksTerm) :
    KeepsProperties (compileStep node viewModel name marks) := by
  refine (keepsProperties_node node).bind fun n => ?_
  refine (keepsProperties_viewModel viewModel).bind fun vm => ?_
  refine (keepsProperties_marks marks).bind fun marks => ?_
  refine (KeepsProperties.onWorld fun w => ?_).bind fun r => ?_
  · exact .of_tables (w.wires_compile marks vm n).tables
  split
  · exact .fail _
  · refine (KeepsProperties.still fun _ _ => rfl).bind fun _ => ?_
    exact keepsProperties_world.bind fun _ => .pure _

theorem keepsProperties_newMethods (methods : List (String × List Step × Option Nat)) :
    KeepsProperties (newMethods methods) := by
  refine keepsProperties_mapM (fun method => ?_) methods
  exact (keepsProperties_newScript _ _ _ _).bind fun _ => .pure _

theorem Subject.keepsProperties_inWords (subject : Subject) : KeepsProperties subject.inWords := by
  cases subject with
  | value t => exact t.keepsProperties_eval.bind fun _ => keepsProperties_heap.bind fun _ => .pure _
  | viewModel name =>
    exact (keepsProperties_viewModel name).bind fun _ => keepsProperties_world.bind fun _ => .pure _
  | link name =>
    exact (keepsProperties_link name).bind fun _ => keepsProperties_world.bind fun _ => .pure _
  | registry d => exact d.keepsProperties_eval.bind fun _ => keepsProperties_heap.bind fun _ => .pure _
  | page => exact keepsProperties_page.bind fun _ => .pure _
  | wiring name => exact (keepsProperties_wiring name).bind fun _ => .pure _
  | view name =>
    dsimp only [inWords]
    refine keepsProperties_get.bind fun _ => (keepsProperties_found _ _ _).bind fun _ => ?_
    exact keepsProperties_world.bind fun _ => .pure _
  | watcher name =>
    dsimp only [inWords]
    refine (keepsProperties_watcher name).bind fun _ => keepsProperties_world.bind fun _ => ?_
    exact (keepsProperties_found _ _ _).bind fun _ => .pure _

/-! ## Steps that flatten -/

/-- The call of `flatten` that a step makes: the world in which it is made, the view model's tables and
the name of the container. -/
inductive Step.Flattens (c : Context) (s : Session) : Step → World → TableId → String → Prop where
  | viewModel {handle name : String} {vm : ViewModel} {s' : Session}
      (on : (Act.viewModel handle).on c s = (.ok vm, s')) :
      Flattens c s (.viewModel handle (.flatten name)) s'.world vm.table name
  | origin {name : String} {t : Term} {m : MapId} {s' : Session} {u : World × ViewModel}
      (arg : t.evalMap.on c s = (.ok m, s'))
      (made : u = { s'.world with heap := s'.world.heap.observe (.map m) }.unflattened m) :
      Flattens c s (.newViewModel name (.observed t)) u.1 u.2.table modelName
  | view {name : String} {data : Term} {mount : Option String}
      {methods : List (String × List Step × Option Nat)} {marks : MarksTerm} {described : Bool}
      {m : MapId} {given : Markers} {scripts : List (String × ScriptId)} {s₁ s₂ s₃ : Session}
      {u : World × ViewModel} (arg : data.eval.on c s = (.ok (.map m), s₁))
      (read : (Act.marks marks).on c s₁ = (.ok given, s₂))
      (scripted : (newMethods methods).on c s₂ = (.ok scripts, s₃))
      (made : u = { s₃.world with heap := s₃.world.heap.observe (.map m) }.unflattened m) :
      Flattens c s (.view name data mount methods marks described) u.1 u.2.table modelName

/-- The call finds the properties of the world before, and nothing but the call changes them. -/
theorem Step.Flattens.properties {step : Step} (flattens : step.Flattens c s w t name) :
    s.world.SameProperties w ∧
      (w.flatten t name).1.SameProperties (step.perform.on c s).2.world := by
  cases flattens with
  | @viewModel handle name vm s' on =>
    have before := keepsProperties_viewModel handle c s
    rw [on] at before
    refine ⟨before, ?_⟩
    rw [Step.perform, on_bind, on]
    exact .refl _
  | @origin handle t m s' u arg made =>
    have before := t.keepsProperties_evalMap c s
    rw [arg] at before
    subst made
    refine ⟨before.trans (.trans (.of_tables rfl) (World.sameProperties_unflattened _ m)), ?_⟩
    rw [Step.perform, Origin.make, on_bind, on_bind, arg]
    exact .refl _
  | @view handle data mount methods marks described m given scripts s₁ s₂ s₃ u arg read scripted made =>
    have first := data.keepsProperties_eval c s
    have second := keepsProperties_marks marks c s₁
    have third := keepsProperties_newMethods methods c s₂
    rw [arg] at first
    rw [read] at second
    rw [scripted] at third
    subst made
    refine ⟨(first.trans second).trans (third.trans
      (.trans (.of_tables rfl) (World.sameProperties_unflattened _ m))), ?_⟩
    let plan : ViewPlan := ⟨.map m, scripts, mount, given⟩
    refine (World.sameProperties_mountView (show plan.data = .map m from rfl) s₃.world).trans ?_
    rw [Step.perform, viewStep, on_bind, arg]
    dsimp only
    rw [on_bind, read]
    dsimp only
    rw [on_bind, scripted]
    dsimp only
    rw [on_bind, on_onWorld]
    rcases (s₃.world.mountView plan).2 with cause | view
    · exact .refl _
    · exact .refl _

/-- A step that flattens nothing leaves the properties as they are. -/
theorem Step.sameProperties {step : Step} (none : ∀ w t name, ¬step.Flattens c s w t name) :
    s.world.SameProperties (step.perform.on c s).2.world := by
  have plain (keeps : KeepsProperties step.perform) := keeps c s
  cases step with
  | viewModel handle op =>
    have looked := keepsProperties_viewModel handle c s
    rw [perform, on_bind]
    rcases on : (Act.viewModel handle).on c s with ⟨f | vm, s'⟩ <;> rw [on] at looked
    · exact looked
    · refine looked.trans (op.keepsProperties vm ?_ c s')
      rintro name rfl
      exact none _ _ _ (.viewModel on)
  | newViewModel handle origin =>
    have bound (make : KeepsProperties origin.make) := plain <| make.bind fun vm =>
      (KeepsProperties.still fun _ _ => rfl).bind fun _ => keepsProperties_world.bind fun _ => .pure _
    cases origin with
    | nothing => exact bound (.onWorld World.sameProperties_newViewModel)
    | mounted t =>
      refine bound (t.keepsProperties_evalMap.bind fun m => .onWorld fun w => ?_)
      exact w.sameProperties_newViewModel.trans (World.sameProperties_mount _ _ _ _)
    | observed t =>
      have evaluated := t.keepsProperties_evalMap c s
      rw [perform, Origin.make, on_bind, on_bind]
      rcases arg : t.evalMap.on c s with ⟨f | m, s'⟩ <;> rw [arg] at evaluated
      · exact evaluated
      · exact absurd (.origin arg rfl) (none _ _ _)
  | view handle data mount methods marks described =>
    have first := data.keepsProperties_eval c s
    rw [perform, viewStep, on_bind]
    rcases arg : data.eval.on c s with ⟨f | v, s₁⟩ <;> rw [arg] at first
    · exact first
    have second := keepsProperties_marks marks c s₁
    dsimp only
    rw [on_bind]
    rcases read : (Act.marks marks).on c s₁ with ⟨f | given, s₂⟩ <;> rw [read] at second
    · exact first.trans second
    have third := keepsProperties_newMethods methods c s₂
    dsimp only
    rw [on_bind]
    rcases scripted : (newMethods methods).on c s₂ with ⟨f | scripts, s₃⟩ <;> rw [scripted] at third
    · exact first.trans (second.trans third)
    have noMap : ¬∃ m, v = .map m := by
      rintro ⟨m, rfl⟩
      exact none _ _ _ (.view arg read scripted rfl)
    dsimp only
    rw [on_bind, on_onWorld, World.mountView_of_no_map _ noMap]
    exact first.trans (second.trans (third.trans (.of_tables rfl)))
  | map t op => exact plain (t.keepsProperties_evalMap.bind fun m => op.keepsProperties m)
  | list t op => exact plain (t.keepsProperties_evalList.bind fun l => op.keepsProperties l)
  | keep handle t =>
    exact plain (t.keepsProperties_eval.bind fun _ =>
      (KeepsProperties.still fun _ _ => rfl).bind fun _ => .pure _)
  | value t | dump t => exact plain (t.keepsProperties_eval.bind fun _ => .pure _)
  | render t | json t =>
    exact plain (t.keepsProperties_eval.bind fun _ => keepsProperties_heap.bind fun _ => .pure _)
  | same a b =>
    exact plain (a.keepsProperties_eval.bind fun _ => b.keepsProperties_eval.bind fun _ => .pure _)
  | observe t =>
    exact plain (t.keepsProperties_eval.bind fun _ => (KeepsProperties.onHeap _).bind fun _ => .pure _)
  | drop kind handle =>
    refine plain ((KeepsProperties.still fun c s => ?_).bind fun _ => .pure _)
    cases kind <;> rfl
  | defineMethod owner method script limit =>
    refine plain ((keepsProperties_viewModel owner).bind fun vm => ?_)
    refine (keepsProperties_newScript _ _ _ _).bind fun script => ?_
    exact (KeepsProperties.onWorld fun w => w.sameProperties_putMethod vm.table method script).bind
      fun _ => .pure _
  | live handle =>
    exact plain ((keepsProperties_link handle).bind fun _ => keepsProperties_world.bind fun _ => .pure _)
  | follow handle name =>
    refine plain ((keepsProperties_link handle).bind fun l => ?_)
    refine (KeepsProperties.onWorld fun w => w.sameProperties_follow l).bind fun vm => ?_
    exact (KeepsProperties.still fun _ _ => rfl).bind fun _ => .pure _
  | watch owner expression name script limit =>
    refine plain ((keepsProperties_viewModel owner).bind fun vm => ?_)
    refine (keepsProperties_parse expression).bind fun path => ?_
    refine (keepsProperties_newScript _ _ _ _).bind fun script => ?_
    refine (KeepsProperties.onWorld fun w => .of_tables rfl).bind fun id => ?_
    exact (KeepsProperties.still fun _ _ => rfl).bind fun _ => .pure _
  | watcher name op => exact plain ((keepsProperties_watcher name).bind op.keepsProperties)
  | collecting => exact plain (keepsProperties_world.bind fun _ => .pure _)
  | newRegistry name =>
    exact plain ((KeepsProperties.onHeap _).bind fun r =>
      (KeepsProperties.still fun _ _ => rfl).bind fun _ => .pure _)
  | registry d op => exact plain (d.keepsProperties_eval.bind op.keepsProperties)
  | page op => exact plain op.keepsProperties
  | listen node event tag script limit =>
    refine plain ((keepsProperties_node node).bind fun n => ?_)
    refine (keepsProperties_newScript _ _ _ _).bind fun script => ?_
    exact (KeepsProperties.onPage _).bind fun _ => .pure _
  | compile node owner name marks => exact plain (keepsProperties_compileStep node owner name marks)
  | wiring name | bound name expression =>
    exact plain ((keepsProperties_wiring name).bind fun _ =>
      keepsProperties_world.bind fun _ => .pure _)
  | describe subject => exact plain (subject.keepsProperties_inWords.bind fun _ => .pure _)

/-! ## Moves -/

namespace Machine

variable {m : Machine}

/-- The call of `flatten` that the next move makes. -/
inductive Flattens (m : Machine) : World → TableId → String → Prop where
  | step {context : Context} {tag : Option String} {step : Step} {remaining : List Step}
      {rest : List Frame} {w : World} {t : TableId} {name : String}
      (top : m.frames = .steps context tag (step :: remaining) :: rest)
      (flattens : step.Flattens context m.session w t name) : Flattens m w t name

theorem sameProperties_of_moved (same : m.world.SameProperties m.moved.world) :
    m.world.SameProperties m.next.world := same.trans (.of_tables m.next_effect.2.2.1)

/-- After a move that flattens, the properties are those that the call leaves. -/
theorem Flattens.properties (flattens : m.Flattens w t name) :
    m.world.SameProperties w ∧ (w.flatten t name).1.SameProperties m.next.world := by
  obtain ⟨top, flattens⟩ := flattens
  obtain ⟨before, after⟩ := flattens.properties
  refine ⟨before, after.trans (.of_tables (m.next_effect.2.2.1.trans ?_))⟩
  rw [moved_of_cons top, ← Session.perform_fst]
  rfl

theorem sameProperties_turn (s : Session) (id : WatcherId) :
    s.world.SameProperties (turn s id).1.world := by
  rcases there : s.world.watcher? id with _ | watcher
  · rw [turn_of_none there]
    exact .refl _
  · rw [turn_of_some there]
    rcases watcher.reaction with ⟨directive, n⟩ | script
    · exact .of_tables rfl
    · exact .refl _

theorem sameProperties_hear (s : Session) (event : PageEvent) (response : Response) :
    s.world.SameProperties (hear s event response).1.world := by
  cases response with
  | script script => exact .of_tables rfl
  | method link script => exact .trans (.of_tables rfl) (World.sameProperties_follow _ link)
  | writeBack link path =>
    rcases hv : event.value with _ | text
    · simp only [hear, hv]
      exact .refl _
    · have assigned := (s.world.sameProperties_follow link).trans (.of_tables
        (World.tables_assign _ (s.world.follow link).2.table path (.text text)))
      rcases hr : (s.world.follow link).1.assign (s.world.follow link).2.table path (.text text)
        with ⟨world, cause | owed⟩ <;> rw [hr] at assigned
      · rwa [hear_writeBack_of_error hv hr]
      · obtain ⟨held, e⟩ := hear_writeBack_of_ok hv hr
        rwa [e]

/-- A move that flattens nothing leaves the properties as they are. -/
theorem sameProperties_next (none : ∀ w t name, ¬m.Flattens w t name) :
    m.world.SameProperties m.next.world := by
  refine sameProperties_of_moved ?_
  rcases top : m.frames with _ | ⟨frame, rest⟩
  · have : m.moved = m := by simp [moved, top]
    rw [this]
    exact .refl _
  · rw [moved_of_cons top]
    cases frame with
    | steps context tag remaining =>
      cases remaining with
      | nil => exact .refl _
      | cons step remaining =>
        have same : m.session.world.SameProperties (step.perform.on context m.session).2.world :=
          Step.sameProperties fun w t name flattens => none w t name (.step top flattens)
        rwa [← Session.perform_fst] at same
    | turns owed =>
      cases owed with
      | nil => exact .refl _
      | cons id owed => exact sameProperties_turn m.session id
    | hearing event responses =>
      cases responses with
      | nil => exact .refl _
      | cons response responses => exact sameProperties_hear m.session event response
    | call script context =>
      exact .of_tables (congrArg World.tables (world_callScript m.session script context))
    | keep _ | record _ => exact .refl _
    | reply tag _ _ => cases tag <;> exact .refl _

end Machine

end DataBinding
