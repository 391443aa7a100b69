-- Compilations that stop. Compiling meets the demands of a page one after the other. Each of them is met
-- as a whole, with its listener, its text on the page, its watcher and its place in the wiring, or it
-- leaves nothing behind and ends the compilation. So a fault leaves exactly the bindings before it.
import DataBinding.Proofs.Template.DocumentOrder
import DataBinding.Proofs.Template.Showing

namespace DataBinding

theorem World.Wires.defines {w w' : World} (wires : w.Wires w') (vm : ViewModel) :
    w'.defines vm = w.defines vm := by
  funext name
  simp only [World.defines, wires.method?]

/-! ## What one demand adds -/

/-- A draft after one more demand is met. What is put into a field is written back, which is arranged
before its value is shown; a value is shown and then watched. -/
def Draft.make (vm : ViewModel) (d : Draft) : Demand → Draft
  | .value n kind expression _ =>
    match KeyPath.parse expression, kind.directive? with
    | .ok path, some directive =>
      let heard := d.world.page.listen n Compile.inputEvent (.writeBack vm.link path)
      let w := if kind = .directive .model then { d.world with page := heard } else d.world
      ⟨w.display vm n path directive, d.wiring ++ [⟨n, kind, some ⟨w.watchers.size + 1⟩⟩]⟩
    | _, _ => d
  | .event n event method =>
    match d.world.method? vm.table method with
    | some script =>
      ⟨{ d.world with page := d.world.page.listen n event (.method vm.link script) },
        d.wiring ++ [⟨n, .event event method, none⟩]⟩
    | none => d

namespace Demand

/-- The watcher that meets a demand of a value. -/
def watcher? (vm : ViewModel) : Demand → Option Watcher
  | .value n kind expression _ =>
    match KeyPath.parse expression, kind.directive? with
    | .ok path, some directive => some ⟨vm.link, path, .render directive n⟩
    | _, _ => none
  | .event _ _ _ => none

/-- The listener that meets a demand: of a field, or of an event. -/
def listener? (w : World) (vm : ViewModel) : Demand → Option (Listener Response)
  | .value n kind expression _ =>
    match KeyPath.parse expression with
    | .ok path =>
      if kind = .directive .model then some ⟨n, Compile.inputEvent, .writeBack vm.link path⟩ else none
    | .error _ => none
  | .event n name method =>
    (w.method? vm.table method).map fun script => ⟨n, name, .method vm.link script⟩

/-- The page on which a demand is met: it gets the listener, and then shows the value as it is in the
given world. -/
def paint (w : World) (vm : ViewModel) (p : Page Response) (demand : Demand) : Page Response :=
  let heard : Page Response := { p with listeners := p.listeners ++ (demand.listener? w vm).toList }
  match demand with
  | .value n kind expression _ =>
    match KeyPath.parse expression, kind.directive? with
    | .ok path, some directive =>
      heard.showing directive n (w.heap.render (w.readPath vm.table path).value)
    | _, _ => heard
  | .event _ _ _ => heard

theorem listeners_paint (w : World) (vm : ViewModel) (p : Page Response) (demand : Demand) :
    (demand.paint w vm p).listeners = p.listeners ++ (demand.listener? w vm).toList := by
  unfold paint
  dsimp only
  split
  · split
    · exact (Page.repaints_showing _ _ _ _).listeners
    · rfl
  · rfl

end Demand

namespace Compile

variable {vm : ViewModel} {d : Draft} {demand : Demand}

/-- A demand that can be met is met. -/
theorem on_meet_of_isMet (met : demand.isMet (d.world.defines vm) = true) :
    (meet vm demand).on d = (.ok (), d.make vm demand) := by
  cases demand with
  | value n kind expression origin =>
    rcases parsed : KeyPath.parse expression with cause | path
    · simp [Demand.isMet, parsed] at met
    · rw [meet, on_bind, on_path parsed]
      simp only [Draft.make, parsed]
      rcases kind with _ | directive | _
      · exact on_bindValue vm n path .text .interpolation d
      · by_cases model : directive = .model
        · subst model
          simp only [wire, BindingKind.directive?, if_true]
          rw [on_bind, on_onWorld]
          exact on_bindValue vm n path .model (.directive .model) _
        · simp only [wire, BindingKind.directive?, BindingKind.directive.injEq, if_neg model]
          exact on_bindValue vm n path directive (.directive directive) d
      · rfl
  | event n event method =>
    obtain ⟨script, found⟩ := Option.isSome_iff_exists.mp
      (show (d.world.method? vm.table method).isSome = true from met)
    simp only [meet, Draft.make, found]
    unfold bindEvent
    simp only [on_bind, on_onWorld, found, on_hold]

/-- A demand that cannot be met leaves the draft as it was. -/
theorem on_meet_of_fault {e : CompileError} (fault : demand.settle (d.world.defines vm) = .error e) :
    (meet vm demand).on d = (.error e, d) := by
  cases demand with
  | value n kind expression origin =>
    rcases parsed : KeyPath.parse expression with cause | path
    · simp only [Demand.settle, parsed, Except.error.injEq] at fault
      rw [meet, on_bind, nothing_of_path parsed, fault]
    · simp [Demand.settle, parsed] at fault
  | event n event method =>
    rcases found : d.world.method? vm.table method with _ | script
    · simp only [Demand.settle, World.defines, found, Option.isSome_none, Bool.false_eq_true,
        if_false, Except.error.injEq] at fault
      simp only [meet]
      unfold bindEvent
      simp only [on_bind, on_onWorld, found, ← fault]
      rfl
    · simp [Demand.settle, World.defines, found] at fault

end Compile

namespace Draft

variable {w₀ : World} {d : Draft} {vm : ViewModel}

theorem wires_make (vm : ViewModel) (d : Draft) (demand : Demand) :
    d.world.Wires (d.make vm demand).world := by
  cases demand with
  | value n kind expression origin =>
    unfold make
    dsimp only
    split
    · split
      · exact (World.Wires.refl.page _).trans (World.wires_display _ vm n _ _)
      · exact World.wires_display _ vm n _ _
    · exact .refl
  | event n event method =>
    unfold make
    dsimp only
    split
    · exact World.Wires.refl.page _
    · exact .refl

theorem wires_makeAll (vm : ViewModel) (made : List Demand) (d : Draft) :
    d.world.Wires (made.foldl (make vm) d).world := by
  induction made generalizing d with
  | nil => exact .refl
  | cons demand rest ih => exact (wires_make vm d demand).trans (ih _)

theorem watchers_make (vm : ViewModel) (d : Draft) (demand : Demand) :
    (d.make vm demand).world.watchers =
      d.world.watchers ++ (demand.watcher? vm).toList.toArray := by
  cases demand with
  | value n kind expression origin =>
    unfold make Demand.watcher?
    dsimp only
    split
    · rw [World.display, World.render_eq, World.watch_eq]
      split <;> rfl
    · simp
  | event n event method =>
    unfold make Demand.watcher?
    dsimp only
    split <;> simp

/-- A demand is met on the page with what the world showed at the start. -/
theorem page_make (wires : w₀.Wires d.world) (demand : Demand) :
    (d.make vm demand).world.page = demand.paint w₀ vm d.world.page := by
  cases demand with
  | value n kind expression origin =>
    unfold make Demand.paint Demand.listener?
    dsimp only
    rcases parsed : KeyPath.parse expression with cause | path
    · simp
    rcases shows : kind.directive? with _ | directive
    · have : kind ≠ .directive .model := fun e => by simp [e, BindingKind.directive?] at shows
      simp [this]
    · dsimp only
      split
      · rw [World.page_display]
        have same := (wires.page (d.world.page.listen n Compile.inputEvent
          (.writeBack vm.link path))).render vm.table path
        rw [same]
        rfl
      · rw [World.page_display, wires.render vm.table path]
        simp
  | event n event method =>
    unfold make Demand.paint Demand.listener?
    dsimp only
    rw [wires.method? vm.table method]
    split
    · next found => simp [found, Page.listen]
    · next none => simp [none]

end Draft

/-! ## What several demands add -/

/-- One world is another one after some demands were met, each of them as a whole and in their order. Every
registry has got, behind its watchers, the new ones whose walk crosses it. -/
structure World.Gains (w w' : World) (vm : ViewModel) (made : List Demand) : Prop where
  page : w'.page = made.foldl (Demand.paint w vm) w.page
  listeners : w'.page.listeners = w.page.listeners ++ made.filterMap (·.listener? w vm)
  watchers : w'.watchers = w.watchers ++ (made.filterMap (·.watcher? vm)).toArray
  registries : ∀ r, w'.heap.watchers? r = (w.heap.watchers? r).map
    (· ++ (w'.bornSince w.watchers.size).filter fun id => w'.Passes r id)
  faces : Heap.SameFaces w.heap w'.heap
  tables : w'.tables = w.tables
  mounts : w'.mounts = w.mounts
  collector : w'.collector = w.collector

theorem Demand.listeners_paintAll (w : World) (vm : ViewModel) (made : List Demand)
    (p : Page Response) : (made.foldl (Demand.paint w vm) p).listeners =
      p.listeners ++ made.filterMap (·.listener? w vm) := by
  induction made generalizing p with
  | nil => simp
  | cons demand rest ih =>
    rw [List.foldl_cons, ih, listeners_paint]
    rcases h : demand.listener? w vm with _ | l <;> simp [h]

namespace Draft

variable {w₀ : World} {vm : ViewModel}

theorem watchers_makeAll (vm : ViewModel) (made : List Demand) (d : Draft) :
    (made.foldl (make vm) d).world.watchers =
      d.world.watchers ++ (made.filterMap (·.watcher? vm)).toArray := by
  induction made generalizing d with
  | nil => simp
  | cons demand rest ih =>
    rw [List.foldl_cons, ih, watchers_make]
    rcases h : demand.watcher? vm with _ | watcher <;> simp [h]

theorem page_makeAll (made : List Demand) {d : Draft} (wires : w₀.Wires d.world) :
    (made.foldl (make vm) d).world.page = made.foldl (Demand.paint w₀ vm) d.world.page := by
  induction made generalizing d with
  | nil => rfl
  | cons demand rest ih =>
    rw [List.foldl_cons, ih (wires.trans (wires_make vm d demand)), page_make wires, List.foldl_cons]

theorem gains_makeAll {w : World} (enrolled : w.heap.Enrolled w.watchers.size) (vm : ViewModel)
    (made : List Demand) : w.Gains (made.foldl (make vm) ⟨w, []⟩).world vm made := by
  have wires := wires_makeAll vm made ⟨w, []⟩
  have page : (made.foldl (make vm) ⟨w, []⟩).world.page = made.foldl (Demand.paint w vm) w.page :=
    page_makeAll made .refl
  exact {
    page
    listeners := by rw [page, Demand.listeners_paintAll]
    watchers := watchers_makeAll vm made ⟨w, []⟩
    registries := wires.watchers? enrolled
    faces := wires.sameFaces
    tables := wires.tables
    mounts := wires.mounts
    collector := wires.collector }

end Draft

/-! ## Compilations -/

namespace Compile

variable {vm : ViewModel}

/-- As long as demands can be met, they are met one after the other. -/
theorem on_forM_meet {made : List Demand} {d : Draft}
    (met : ∀ x ∈ made, x.isMet (d.world.defines vm) = true) (later : List Demand) :
    ((made ++ later).forM (meet vm)).on d = (later.forM (meet vm)).on (made.foldl (Draft.make vm) d) := by
  induction made generalizing d with
  | nil => rfl
  | cons first rest ih =>
    rw [List.forall_mem_cons] at met
    rw [List.cons_append, on_forM_cons, on_meet_of_isMet met.1]
    refine ih fun x hx => ?_
    rw [(Draft.wires_make vm d first).defines]
    exact met.2 x hx

end Compile

namespace World

variable {w : World} {marks : Markers} {vm : ViewModel} {root : NodeId}

/-- A compilation meets the demands of the page, one after the other. -/
theorem draft_eq (forest : w.page.Forest) (marks : Markers) (vm : ViewModel) (root : NodeId) :
    w.draft marks vm root = ((w.demands marks vm root).forM (Compile.meet vm)).on ⟨w, []⟩ :=
  (yields_compile forest marks vm root).runs

/-- A compilation that succeeds has met all demands. -/
theorem draft_of_ok (forest : w.page.Forest) {wiring : Wiring}
    (ok : (w.compile marks vm root).2 = .ok wiring) :
    (∀ x ∈ w.demands marks vm root, x.isMet (w.defines vm) = true) ∧
      w.draft marks vm root = (.ok (), (w.demands marks vm root).foldl (Draft.make vm) ⟨w, []⟩) := by
  have settles := outcome_eq forest marks vm root
  rw [outcome, ok] at settles
  have met := Demand.settleAll_ok_iff.mp ⟨_, settles.symm⟩
  have run := Compile.on_forM_meet (d := ⟨w, []⟩) met []
  rw [List.append_nil] at run
  exact ⟨met, (draft_eq forest marks vm root).trans run⟩

/-- A compilation that fails has met the demands before the first one that cannot be met. -/
theorem draft_of_error (forest : w.page.Forest) {e : CompileError}
    (failed : (w.compile marks vm root).2 = .error e) :
    ∃ made fault later, w.demands marks vm root = made ++ fault :: later ∧
      (∀ x ∈ made, x.isMet (w.defines vm) = true) ∧ fault.settle (w.defines vm) = .error e ∧
        w.draft marks vm root = (.error e, made.foldl (Draft.make vm) ⟨w, []⟩) := by
  have settles := outcome_eq forest marks vm root
  rw [outcome, failed] at settles
  obtain ⟨made, fault, later, split, met, unmet⟩ := Demand.exists_of_settleAll_error settles.symm
  refine ⟨made, fault, later, split, met, unmet, ?_⟩
  have stops : fault.settle ((made.foldl (Draft.make vm) ⟨w, []⟩).world.defines vm) = .error e := by
    rwa [(Draft.wires_makeAll vm made ⟨w, []⟩).defines]
  rw [draft_eq forest, split, Compile.on_forM_meet (d := ⟨w, []⟩) met, Compile.on_forM_cons,
    Compile.on_meet_of_fault stops]

/-- A compilation stopped with a fault: of the demands of the page, those before the first one that cannot be
met have been met, and nothing else has been done. -/
structure Stops (w w' : World) (marks : Markers) (vm : ViewModel) (root : NodeId) (e : CompileError)
    (made : List Demand) : Prop where
  order : ∃ fault later, w.demands marks vm root = made ++ fault :: later ∧
    fault.settle (w.defines vm) = .error e
  met : ∀ x ∈ made, x.isMet (w.defines vm) = true
  gains : w.Gains w' vm made

theorem stops_compile (forest : w.page.Forest) (enrolled : w.heap.Enrolled w.watchers.size)
    {e : CompileError} (failed : (w.compile marks vm root).2 = .error e) :
    ∃ made, w.Stops (w.compile marks vm root).1 marks vm root e made := by
  obtain ⟨made, fault, later, split, met, unmet, draft⟩ := draft_of_error forest failed
  refine ⟨made, ⟨fault, later, split, unmet⟩, met, ?_⟩
  rw [compile_eq_draft, draft]
  exact Draft.gains_makeAll enrolled vm made

end World

end DataBinding
