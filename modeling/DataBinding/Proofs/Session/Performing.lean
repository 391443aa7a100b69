-- The licence of a step, and the effect of every step: it leaves a sound session, and what it does to the
-- world is licensed.
import DataBinding.Proofs.Session.Steps

namespace DataBinding

/-! ## Licences -/

/-- Which rare edits a step may make: to register, to define a slot, or to write to a position, be it
directly or by an assignment to a path. -/
def Step.licence : Step → Licence
  | .registry _ (.register _) => .registering
  | .map _ (.define _ _) => .redefining
  | .list _ (.set _ _) => .placing
  | .viewModel _ (.assign _ _) => .placing
  | _ => .none

variable {licence : Licence} {w₀ : World}

/-! ## View models -/

theorem ViewModelOp.performs_writing (vm : ViewModel) (target : Option Value)
    {write : World → World × Except PathError (List WatcherId)}
    (hw : ∀ w : World, w.Sound → w.Extends w₀ → w.Changes licence (owedBy (write w).2) (write w).1) :
    Act.Performs licence w₀ (ViewModelOp.writing vm target write) := by
  intro c s sound _ ext
  have changes := hw s.world sound.world ext
  have sound' := sound.onWorld (changes.sound sound.world) changes.extend
  unfold ViewModelOp.writing
  rw [Act.on_bind, Act.on_onWorld]
  rcases ho : (write s.world).2 with cause | owed
  · rw [ho] at changes
    exact ⟨sound', [], _, changes, .refl, rfl⟩
  · rw [ho] at changes
    refine ⟨sound', owed, _, changes, .refl, ?_, fun id hid => hid⟩
    intro id hid
    have among := changes.heap.owed_among sound.world.enrolled id hid
    exact among.mono changes.extend.watchers

theorem ViewModelOp.performs (vm : ViewModel) (op : ViewModelOp) (licence : Licence)
    (places : (∃ expression v, op = .assign expression v) → licence.places) :
    Act.Performs licence w₀ (op.perform vm) := by
  cases op with
  | clone name =>
    apply Act.Performs.bind (Q := fun _ _ => True)
    · exact Act.keeps_modify fun s sound _ =>
        ⟨⟨sound.world, sound.values, sound.views, sound.watchers⟩, rfl⟩
    · exact fun _ _ _ _ _ => .reply
  | same other => exact .bind Act.keeps_viewModel fun _ _ _ _ _ => .reply
  | mount name t =>
    apply Act.Performs.bind t.keeps_evalMap
    intro m w _ _ _
    apply Act.Performs.bind (Q := fun _ _ => True)
    · exact Act.keeps_onWorld fun w _ _ => ⟨w.changes_mount vm name m, trivial⟩
    · exact fun _ _ _ _ _ => .reply
  | container name => exact .bind Act.keeps_world fun _ _ _ _ _ => .reply
  | data => exact .bind Act.keeps_world fun _ _ _ _ _ => .reply
  | flatten name =>
    apply Act.Performs.bind (Q := fun _ _ => True)
    · exact Act.keeps_onWorld fun w _ _ => ⟨w.changes_flatten vm.table name, trivial⟩
    · exact fun _ _ _ _ _ => .reply
  | properties => exact .bind Act.keeps_world fun _ _ _ _ _ => .reply
  | has key => exact .bind Act.keeps_world fun _ _ _ _ _ => .reply
  | get key =>
    apply Act.Performs.bind (Q := fun _ _ => True)
    · apply Act.keeps_onWorld
      intro w sound _
      simp only [World.get, World.depend_of_none sound.collector]
      exact ⟨.refl _, trivial⟩
    · exact fun _ _ _ _ _ => .reply
  | set key v =>
    apply Act.Performs.bind (v.keeps_eval w₀)
    intro x w _ _ known
    apply Act.Performs.bind Act.keeps_world
    intro _ w' _ ext _
    exact performs_writing vm _ fun w'' _ ext' =>
      World.changes_setProperty vm.table key (ext'.heap.knows (ext.heap.knows known))
  | evaluate expression =>
    apply Act.Performs.bind Act.keeps_parse
    intro path w _ _ _
    apply Act.Performs.bind (Q := fun _ _ => True)
    · apply Act.keeps_onWorld
      intro w sound _
      simp only [World.evaluate, World.depend_of_none sound.collector]
      exact ⟨.refl _, trivial⟩
    · exact fun _ _ _ _ _ => .reply
  | assign expression v =>
    apply Act.Performs.bind Act.keeps_parse
    intro path w _ _ _
    apply Act.Performs.bind (v.keeps_eval w)
    intro x w₁ _ _ known
    apply Act.Performs.bind Act.keeps_world
    intro _ w₂ _ ext _
    exact performs_writing vm _ fun w₃ sound ext' =>
      World.changes_assign sound vm.table path (ext'.heap.knows (ext.heap.knows known))
        (places ⟨expression, v, rfl⟩)
  | «alias» method name =>
    apply Act.Performs.bind Act.keeps_world
    intro _ w _ _ _
    split
    · exact .reply
    · rename_i script _
      apply Act.Performs.bind (Q := fun _ _ => True)
      · exact Act.keeps_onWorld fun w _ _ => ⟨w.changes_putMethod vm.table name script, trivial⟩
      · exact fun _ _ _ _ _ => .reply
  | call method v =>
    apply Act.Performs.bind (v.keeps_eval w₀)
    intro x w _ _ known
    apply Act.Performs.bind Act.keeps_world
    intro _ w' _ ext _
    split
    · exact .reply
    · refine .pure fun w'' _ ext' => ?_
      intro y hy
      cases hy
      exact ext'.heap.knows (ext.heap.knows known)
  | link name =>
    apply Act.Performs.bind (Q := fun _ _ => True)
    · exact Act.keeps_modify fun s sound _ =>
        ⟨⟨sound.world, sound.values, sound.views, sound.watchers⟩, rfl⟩
    · exact fun _ _ _ _ _ => .reply

theorem Origin.keeps_make (origin : Origin) :
    Act.Keeps licence w₀ origin.make fun _ _ => True := by
  cases origin with
  | nothing => exact Act.keeps_onWorld fun w _ _ => ⟨w.changes_newViewModel, trivial⟩
  | mounted t =>
    apply t.keeps_evalMap.bind
    intro m w _ _ _
    exact Act.keeps_onWorld fun w _ _ =>
      ⟨w.changes_newViewModel.trans (World.changes_mount _ _ modelName m), trivial⟩
  | observed t =>
    apply t.keeps_evalMap.bind
    intro m w _ _ _
    apply Act.Keeps.bind (Q := fun _ _ => True)
    · exact Act.keeps_onWorld fun w _ _ => ⟨World.changes_observe (.map m), trivial⟩
    · intro _ w _ _ _
      exact Act.keeps_onWorld fun w _ _ => ⟨w.changes_viewModelOf m, trivial⟩

/-! ## Watchers and registries -/

theorem WatcherOp.performs {id : WatcherId} (among : id.Among w₀.watchers.size) (op : WatcherOp) :
    Act.Performs licence w₀ (op.perform id) := by
  unfold WatcherOp.perform
  apply Act.Performs.bind Act.keeps_world
  intro _ w _ ext _
  split
  · exact .fail
  · rename_i watcher _
    cases op with
    | value =>
      apply Act.Performs.bind (Q := fun _ _ => True)
      · apply Act.keeps_onWorld
        intro w _ _
        rw [World.watched_eq]
        exact ⟨.refl w, trivial⟩
      · exact fun _ _ _ _ _ => .reply
    | path => exact .reply
    | update =>
      refine .pure fun w' _ ext' => ?_
      intro x hx
      rw [List.mem_singleton.mp hx]
      exact among.mono (Nat.le_trans ext.watchers ext'.watchers)

theorem RegistryOp.performs (r : Registry) (op : RegistryOp) (licence : Licence)
    (registers : (∃ watcher, op = .register watcher) → licence.registers) :
    Act.Performs licence w₀ (op.perform r) := by
  cases op with
  | register watcher =>
    apply Act.Performs.bind Act.keeps_watcher
    intro id w _ _ among
    apply Act.Performs.bind Act.keeps_heap
    intro _ w' _ ext _
    apply Act.Performs.bind (Q := fun _ _ => True)
    · apply Act.keeps_onHeap (P := fun _ _ => True)
      intro w'' _ ext'
      refine ⟨.single (e := .register id r) (by simp [Edit.values]) ?_
        ⟨fun _ => registers ⟨watcher, rfl⟩, False.elim, False.elim⟩, trivial⟩
      exact among.mono (Nat.le_trans ext.watchers ext'.watchers)
    · exact fun _ _ _ _ _ => .reply
  | depend =>
    apply Act.Performs.bind (Q := fun _ _ => True)
    · apply Act.keeps_onWorld
      intro w sound _
      simp only [World.depend_of_none sound.collector]
      exact ⟨.refl _, trivial⟩
    · exact fun _ _ _ _ _ => .bind Act.keeps_heap fun _ _ _ _ _ => .reply
  | notify =>
    apply Act.Performs.bind Act.keeps_heap
    rintro _ w sound _ rfl
    refine .pure fun w' _ ext => ?_
    intro id hid
    obtain ⟨ws, hws, hid⟩ := Heap.mem_watchers_iff.mp hid
    exact ((sound.enrolled r ws hws).2 id hid).mono ext.watchers
  | info watcher =>
    apply Act.Performs.bind Act.keeps_heap
    intro _ w _ _ _
    have answered (contains : Option Bool) (w₀ : World) (watchers : List WatcherId) :
        Act.Performs licence w₀
          (do
            let contains ← pure contains
            return .ofReply (.registryInfo watchers contains)) :=
      .bind (Q := fun _ _ => True) (.pure fun _ _ _ => trivial) fun _ _ _ _ _ => .reply
    cases watcher with
    | none => exact answered none w _
    | some name => exact .bind Act.keeps_watcher fun _ w _ _ _ => answered _ w _

/-! ## Pages and templates -/

mutual

theorem NodeSpec.keeps_build (spec : NodeSpec) (w₀ : World) :
    Act.Keeps licence w₀ spec.build fun _ _ => True := by
  match spec with
  | .text s =>
    unfold build
    exact Act.keeps_onPage
  | .comment s =>
    unfold build
    exact Act.keeps_onPage
  | .element name tag attributes children =>
    unfold build
    apply (keeps_buildAll children w₀).bind
    intro _ w _ _ _
    apply Act.keeps_onPage.bind
    intro n w _ _ _
    apply Act.keeps_nameNode.bind
    intro _ w _ _ _
    exact .pure fun _ _ _ => trivial

theorem NodeSpec.keeps_buildAll (specs : List NodeSpec) (w₀ : World) :
    Act.Keeps licence w₀ (NodeSpec.buildAll specs) fun _ _ => True := by
  match specs with
  | [] =>
    unfold buildAll
    exact .pure fun _ _ _ => trivial
  | spec :: rest =>
    unfold buildAll
    apply (keeps_build spec w₀).bind
    intro n w _ _ _
    apply (keeps_buildAll rest w).bind
    intro _ w _ _ _
    exact .pure fun _ _ _ => trivial

end

namespace PageOp

theorem performs_created (name : Option String) (n : NodeId) :
    Act.Performs licence w₀ (created name n) :=
  .bind Act.keeps_nameNode fun _ _ _ _ _ => .reply

theorem performs_located (name : Option String) (n : Option NodeId) :
    Act.Performs licence w₀ (located name n) := by
  unfold located
  split
  · exact .reply
  · exact performs_created name _

theorem performs_changing (handle : String) (change : NodeId → Page Response → Page Response) :
    Act.Performs licence w₀ (changing handle change) :=
  .bind Act.keeps_node fun _ _ _ _ _ => .bind Act.keeps_onPage fun _ _ _ _ _ => .reply

theorem performs_reading (handle : String) (read : NodeId → Page Response → Reply Value) :
    Act.Performs licence w₀ (reading handle read) :=
  .bind Act.keeps_node fun _ _ _ _ _ => .bind Act.keeps_page fun _ _ _ _ _ => .reply

theorem performs_dispatching (n : NodeId) (event : PageEvent) :
    Act.Performs licence w₀ (dispatching n event) :=
  .bind Act.keeps_page fun _ _ _ _ _ => .pure fun _ _ _ => trivial

theorem keeps_mapM_node (names : List String) (w₀ : World) :
    Act.Keeps licence w₀ (names.mapM Act.node) fun _ _ => True := by
  induction names generalizing w₀ with
  | nil => exact .pure fun _ _ _ => trivial
  | cons name rest ih =>
    rw [List.mapM_cons]
    apply Act.keeps_node.bind
    intro n w _ _ _
    exact (ih w).bind fun _ _ _ _ _ => .pure fun _ _ _ => trivial

theorem performs (op : PageOp) : Act.Performs licence w₀ op.perform := by
  cases op with
  | element tag attributes children name =>
    apply Act.Performs.bind (keeps_mapM_node children w₀)
    intro _ w _ _ _
    exact .bind Act.keeps_onPage fun _ _ _ _ _ => performs_created name _
  | text s name => exact .bind Act.keeps_onPage fun _ _ _ _ _ => performs_created name _
  | comment s name => exact .bind Act.keeps_onPage fun _ _ _ _ _ => performs_created name _
  | build spec name => exact .bind (spec.keeps_build w₀) fun _ _ _ _ _ => performs_created name _
  | append above below =>
    apply Act.Performs.bind Act.keeps_node
    intro parent w _ _ _
    apply Act.Performs.bind Act.keeps_node
    intro node w _ _ _
    exact .bind Act.keeps_onPage fun _ _ _ _ _ => .reply
  | query selector name => exact .bind Act.keeps_page fun _ _ _ _ _ => performs_located name _
  | child handle position name =>
    apply Act.Performs.bind Act.keeps_node
    intro n w _ _ _
    exact .bind Act.keeps_page fun _ _ _ _ _ => performs_located name _
  | node handle | markup handle | textOf handle | attr handle name | property handle name
  | listeners handle event => exact performs_reading handle _
  | setText handle value | setProperty handle name value | setAttribute handle name value
  | setMarkup handle value => exact performs_changing handle _
  | dispatch handle event => exact .bind Act.keeps_node fun _ _ _ _ _ => performs_dispatching _ _
  | input handle value =>
    apply Act.Performs.bind Act.keeps_node
    intro n w _ _ _
    exact .bind Act.keeps_onPage fun _ _ _ _ _ => performs_dispatching _ _
  | click handle => exact .bind Act.keeps_node fun _ _ _ _ _ => performs_dispatching _ _

end PageOp

theorem performs_compileStep (node viewModel name : String) (marks : MarksTerm) :
    Act.Performs licence w₀ (compileStep node viewModel name marks) := by
  apply Act.Performs.bind Act.keeps_node
  intro n w _ _ _
  apply Act.Performs.bind Act.keeps_viewModel
  intro vm w _ _ _
  apply Act.Performs.bind Act.keeps_marks
  intro marks w _ _ _ c s sound _ _
  have wires := World.wires_compile s.world marks vm n
  have sound' := sound.onWorld (wires.sound sound.world) wires.extend
  rw [Act.on_bind, Act.on_onWorld]
  rcases (s.world.compile marks vm n).2 with cause | wiring
  · exact ⟨sound', [], s.world, .refl _, wires, rfl⟩
  · exact ⟨⟨sound'.world, sound'.values, sound'.views, sound'.watchers⟩, [], s.world, .refl _,
      wires, trivial, by simp⟩

theorem keeps_newMethods (methods : List (String × List Step × Option Nat)) (w₀ : World) :
    Act.Keeps licence w₀ (newMethods methods) fun _ _ => True := by
  unfold newMethods
  induction methods generalizing w₀ with
  | nil => exact .pure fun _ _ _ => trivial
  | cons method rest ih =>
    rw [List.mapM_cons]
    apply Act.Keeps.bind (Q := fun _ _ => True)
    · exact Act.keeps_newScript.bind fun _ _ _ _ _ => .pure fun _ _ _ => trivial
    · intro _ w _ _ _
      exact (ih w).bind fun _ _ _ _ _ => .pure fun _ _ _ => trivial

theorem performs_viewStep (name : String) (data : Term) (mount : Option String)
    (methods : List (String × List Step × Option Nat)) (marks : MarksTerm) (described : Bool) :
    Act.Performs licence w₀ (viewStep name data mount methods marks described) := by
  apply Act.Performs.bind (data.keeps_eval w₀)
  intro v w₁ _ _ known
  apply Act.Performs.bind Act.keeps_marks
  intro marks w₂ _ ext₂ _
  apply Act.Performs.bind (keeps_newMethods methods w₂)
  intro methods w₃ _ ext₃ _ c s sound _ ext
  obtain ⟨mid, changes, wires, model⟩ :=
    World.changes_mountView licence s.world ⟨v, methods, mount, marks⟩
  have ext' := wires.extend.trans changes.extend
  have sound' := sound.onWorld (wires.sound (changes.sound sound.world)) ext'
  rw [Act.on_bind, Act.on_onWorld]
  rcases hv : (s.world.mountView ⟨v, methods, mount, marks⟩).2 with cause | view
  · exact ⟨sound', [], mid, changes, wires, rfl⟩
  · refine ⟨⟨sound'.world, sound'.values, ?_, sound'.watchers⟩, [], mid, changes, wires, trivial,
      by simp⟩
    intro entry he
    rcases mem_putEntry he with rfl | he
    · have hd : v = .map view.model := model view hv
      rw [← hd]
      exact ext'.heap.knows (ext.heap.knows (ext₃.heap.knows (ext₂.heap.knows known)))
    · exact sound'.views entry he

theorem Subject.keeps_inWords (subject : Subject) :
    Act.Keeps licence w₀ subject.inWords fun _ _ => True := by
  cases subject with
  | value t =>
    apply (t.keeps_eval w₀).bind
    intro v w _ _ _
    exact Act.keeps_heap.bind fun _ _ _ _ _ => .pure fun _ _ _ => trivial
  | viewModel name =>
    apply Act.keeps_viewModel.bind
    intro v w _ _ _
    exact Act.keeps_world.bind fun _ _ _ _ _ => .pure fun _ _ _ => trivial
  | link name =>
    apply Act.keeps_link.bind
    intro v w _ _ _
    exact Act.keeps_world.bind fun _ _ _ _ _ => .pure fun _ _ _ => trivial
  | registry d =>
    apply d.keeps_eval.bind
    intro v w _ _ _
    exact Act.keeps_heap.bind fun _ _ _ _ _ => .pure fun _ _ _ => trivial
  | page => exact Act.keeps_page.bind fun _ _ _ _ _ => .pure fun _ _ _ => trivial
  | wiring name => exact Act.keeps_wiring.bind fun _ _ _ _ _ => .pure fun _ _ _ => trivial
  | view name =>
    apply Act.keeps_get.bind
    intro s w _ _ _
    apply (Act.keeps_found (P := fun _ => True) fun _ _ => trivial).bind
    intro v w _ _ _
    exact Act.keeps_world.bind fun _ _ _ _ _ => .pure fun _ _ _ => trivial
  | watcher name =>
    apply Act.keeps_watcher.bind
    intro id w _ _ _
    apply Act.keeps_world.bind
    intro w' w _ _ _
    apply (Act.keeps_found (P := fun _ => True) fun _ _ => trivial).bind
    intro v w _ _ _
    exact .pure fun _ _ _ => trivial

/-! ## Steps -/

theorem HandleKind.keeps_drop (kind : HandleKind) (name : String) :
    Act.Keeps licence w₀ (kind.drop name) fun _ _ => True := by
  intro c s sound _ _
  have sub {α : Type} {entries : List (String × α)} {entry : String × α}
      (h : entry ∈ dropEntry name entries) : entry ∈ entries := (List.mem_filter.mp h).1
  cases kind with
  | value =>
    exact ⟨⟨sound.world, fun e h => sound.values e (sub h), sound.views, sound.watchers⟩,
      .refl _, fun _ _ => trivial⟩
  | watcher =>
    exact ⟨⟨sound.world, sound.values, sound.views, fun e h => sound.watchers e (sub h)⟩,
      .refl _, fun _ _ => trivial⟩
  | view =>
    exact ⟨⟨sound.world, sound.values, fun e h => sound.views e (sub h), sound.watchers⟩,
      .refl _, fun _ _ => trivial⟩
  | viewModel | link | registry | wiring =>
    exact ⟨⟨sound.world, sound.values, sound.views, sound.watchers⟩, .refl _, fun _ _ => trivial⟩

theorem performs_watch (owner expression name : String) (script : List Step)
    (limit : Option Nat) :
    Act.Performs licence w₀ (Step.perform (.watch owner expression name script limit)) := by
  apply Act.Performs.bind Act.keeps_viewModel
  intro vm w _ _ _
  apply Act.Performs.bind Act.keeps_parse
  intro path w _ _ _
  apply Act.Performs.bind Act.keeps_newScript
  intro script w _ _ _ c s sound _ _
  have wires : s.world.Wires (s.world.watch vm.link path (.script script)).1 :=
    World.Wires.refl.watch vm.link path (.script script)
  have sound' := sound.onWorld (wires.sound sound.world) wires.extend
  refine ⟨⟨sound'.world, sound'.values, sound'.views, ?_⟩, [], s.world, .refl _, wires, trivial,
    by simp⟩
  intro entry he
  rcases mem_putEntry he with rfl | he
  · refine ⟨Nat.succ_pos _, ?_⟩
    have size : (s.world.watch vm.link path (.script script)).1.watchers.size =
        s.world.watchers.size + 1 := by rw [World.watch_eq, Array.size_push]
    exact Nat.le_of_eq size.symm
  · exact sound'.watchers entry he

/-- Every step makes licensed edits, then wires, and leaves a sound session. -/
theorem Step.performs (step : Step) : Act.Performs step.licence w₀ step.perform := by
  cases step with
  | keep name t =>
    apply Act.Performs.bind (t.keeps_eval w₀)
    intro v w _ _ known
    apply Act.Performs.bind (Q := fun _ _ => True)
    · apply Act.keeps_modify
      intro s sound ext
      refine ⟨⟨sound.world, ?_, sound.views, sound.watchers⟩, rfl⟩
      intro entry he
      rcases mem_putEntry he with rfl | he
      · exact ext.heap.knows known
      · exact sound.values entry he
    · exact fun _ _ _ _ _ => .reply
  | value t | dump t => exact .bind (t.keeps_eval w₀) fun _ _ _ _ _ => .reply
  | render t | json t =>
    apply Act.Performs.bind (t.keeps_eval w₀)
    intro v w _ _ _
    exact .bind Act.keeps_heap fun _ _ _ _ _ => .reply
  | same a b =>
    apply Act.Performs.bind (a.keeps_eval w₀)
    intro v w _ _ _
    exact .bind (b.keeps_eval w) fun _ _ _ _ _ => .reply
  | observe t =>
    apply Act.Performs.bind (t.keeps_eval w₀)
    intro v w _ _ _
    apply Act.Performs.bind (Q := fun _ _ => True)
    · exact Act.keeps_onWorld fun w _ _ => ⟨World.changes_observe v, trivial⟩
    · exact fun _ _ _ _ _ => .reply
  | drop kind name => exact .bind (kind.keeps_drop name) fun _ _ _ _ _ => .reply
  | map t op =>
    apply Act.Performs.bind t.keeps_evalMap
    intro m w _ _ _
    apply op.performs
    rintro ⟨key, v, rfl⟩
    trivial
  | list t op =>
    apply Act.Performs.bind t.keeps_evalList
    intro l w _ _ _
    apply op.performs
    rintro ⟨position, v, rfl⟩
    trivial
  | newViewModel name origin =>
    apply Act.Performs.bind origin.keeps_make
    intro vm w _ _ _
    apply Act.Performs.bind (Q := fun _ _ => True)
    · exact Act.keeps_modify fun s sound _ =>
        ⟨⟨sound.world, sound.values, sound.views, sound.watchers⟩, rfl⟩
    · exact fun _ _ _ _ _ => .bind Act.keeps_world fun _ _ _ _ _ => .reply
  | viewModel name op =>
    apply Act.Performs.bind Act.keeps_viewModel
    intro vm w _ _ _
    apply op.performs
    rintro ⟨expression, v, rfl⟩
    trivial
  | defineMethod owner name script limit =>
    apply Act.Performs.bind Act.keeps_viewModel
    intro vm w _ _ _
    apply Act.Performs.bind Act.keeps_newScript
    intro script w _ _ _
    apply Act.Performs.bind (Q := fun _ _ => True)
    · exact Act.keeps_onWorld fun w _ _ => ⟨w.changes_putMethod vm.table name script, trivial⟩
    · exact fun _ _ _ _ _ => .reply
  | live handle =>
    apply Act.Performs.bind Act.keeps_link
    intro l w _ _ _
    exact .bind Act.keeps_world fun _ _ _ _ _ => .reply
  | follow handle name =>
    apply Act.Performs.bind Act.keeps_link
    intro l w _ _ _
    apply Act.Performs.bind (Q := fun _ _ => True)
    · exact Act.keeps_onWorld fun w _ _ => ⟨w.changes_follow _ l, trivial⟩
    · intro vm w _ _ _
      apply Act.Performs.bind (Q := fun _ _ => True)
      · exact Act.keeps_modify fun s sound _ =>
          ⟨⟨sound.world, sound.values, sound.views, sound.watchers⟩, rfl⟩
      · exact fun _ _ _ _ _ => .reply
  | watch owner expression name script limit =>
    exact performs_watch owner expression name script limit
  | watcher name op =>
    apply Act.Performs.bind Act.keeps_watcher
    intro id w _ _ among
    exact op.performs among
  | collecting => exact .bind Act.keeps_world fun _ _ _ _ _ => .reply
  | newRegistry name =>
    apply Act.Performs.bind (Q := fun _ _ => True)
    · apply Act.keeps_onHeap (P := fun _ _ => True)
      intro w _ _
      exact ⟨.single (e := .newRegistry) (by simp [Edit.values]) trivial
        ⟨False.elim, False.elim, False.elim⟩, trivial⟩
    · intro r w _ _ _
      apply Act.Performs.bind (Q := fun _ _ => True)
      · exact Act.keeps_modify fun s sound _ =>
          ⟨⟨sound.world, sound.values, sound.views, sound.watchers⟩, rfl⟩
      · exact fun _ _ _ _ _ => .reply
  | registry d op =>
    apply Act.Performs.bind d.keeps_eval
    intro r w _ _ _
    apply op.performs
    rintro ⟨watcher, rfl⟩
    trivial
  | page op => exact op.performs
  | listen node event tag script limit =>
    apply Act.Performs.bind Act.keeps_node
    intro n w _ _ _
    apply Act.Performs.bind Act.keeps_newScript
    intro script w _ _ _
    exact .bind Act.keeps_onPage fun _ _ _ _ _ => .reply
  | compile node owner name marks => exact performs_compileStep node owner name marks
  | view name data mount methods marks described =>
    exact performs_viewStep name data mount methods marks described
  | wiring name =>
    apply Act.Performs.bind Act.keeps_wiring
    intro wiring w _ _ _
    exact .bind Act.keeps_world fun _ _ _ _ _ => .reply
  | bound name expression =>
    apply Act.Performs.bind Act.keeps_wiring
    intro wiring w _ _ _
    exact .bind Act.keeps_world fun _ _ _ _ _ => .reply
  | describe subject => exact .bind subject.keeps_inWords fun _ _ _ _ _ => .reply

theorem Session.perform_of_ok {s s' : Session} {context : Context} {step : Step}
    {outcome : Outcome} (ok : step.perform.on context s = (.ok outcome, s')) :
    s.perform context step = (s', outcome) := by
  unfold Act.on at ok
  simp [Session.perform, ok]

theorem Session.perform_of_error {s s' : Session} {context : Context} {step : Step} {f : Fault}
    (error : step.perform.on context s = (.error f, s')) :
    s.perform context step = (s', .ofReply (.fault f)) := by
  unfold Act.on at error
  simp [Session.perform, error]

/-- The effect of a step on a session; a fault leaves no work. -/
theorem Session.perform_effect {s : Session} (sound : s.Sound) {context : Context}
    (known : context.Known s.world) (step : Step) :
    (s.perform context step).1.Sound ∧ ∃ owed mid, s.world.Changes step.licence owed mid ∧
      mid.Wires (s.perform context step).1.world ∧
      (s.perform context step).2.work.Sound (s.perform context step).1.world ∧
      owed ⊆ (s.perform context step).2.work.owed := by
  obtain ⟨sound', owed, mid, changes, wires, pays⟩ :=
    (step.performs : Act.Performs _ s.world _) context s sound known (.refl _)
  rcases hr : step.perform.on context s with ⟨f | outcome, s'⟩
  · rw [Session.perform_of_error hr]
    simp only [hr] at sound' wires pays
    refine ⟨sound', owed, mid, changes, wires, trivial, ?_⟩
    rw [show owed = [] from pays]
    simp
  · rw [Session.perform_of_ok hr]
    simp only [hr] at sound' wires pays
    exact ⟨sound', owed, mid, changes, wires, pays⟩

end DataBinding
