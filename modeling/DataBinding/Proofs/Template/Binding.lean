-- Binding, one place at a time. A part of a compilation yields some demands: it fails where settling them
-- fails, with the same fault, and otherwise it makes the bindings that they settle to and leaves a page
-- of which something is known.
import DataBinding.Proofs.Template.Demands
import DataBinding.Proofs.World.Compiling
import DataBinding.Proofs.Heap.Rendering

namespace DataBinding

/-! ## What is bound -/

def Bound.of (w : World) (b : Binding) : Bound :=
  ⟨b.node, b.kind, (b.watcher.bind w.watcher?).map (·.path.text)⟩

def Draft.bounds (d : Draft) : List Bound := d.wiring.map (Bound.of d.world)

namespace World

/-- The text of the value of an expression; a malformed one has none. -/
def shown (w : World) (vm : ViewModel) (expression : String) : String :=
  match KeyPath.parse expression with
  | .ok path => w.heap.render (w.readPath vm.table path).value
  | .error _ => ""

def defines (w : World) (vm : ViewModel) (name : String) : Bool :=
  (w.method? vm.table name).isSome

theorem Wires.method? {w w' : World} (wires : w.Wires w') (t : TableId) (name : String) :
    w'.method? t name = w.method? t name := by
  simp only [World.method?, table, wires.tables]

theorem Wires.render {w w' : World} (wires : w.Wires w') (t : TableId) (path : KeyPath) :
    w'.heap.render (w'.readPath t path).value = w.heap.render (w.readPath t path).value := by
  rw [wires.readPath, wires.sameFaces.render]

end World

/-- A draft that comes from a world by wiring; all its watchers exist. -/
structure Draft.From (w₀ : World) (d : Draft) : Prop where
  wires : w₀.Wires d.world
  watchers : ∀ b ∈ d.wiring, ∀ id, b.watcher = some id → id.Among d.world.watchers.size

/-- What is bound stays bound to the same paths. -/
theorem Draft.From.bounds {w₀ : World} {d : Draft} (drawn : d.From w₀) {w : World}
    (wires : d.world.Wires w) : d.wiring.map (Bound.of w) = d.bounds := by
  apply List.map_congr_left
  intro b hb
  rcases hw : b.watcher with _ | id
  · simp only [Bound.of, hw]
    rfl
  · simp only [Bound.of, hw, Option.bind_some, wires.watcher? (drawn.watchers b hb id hw)]

namespace Compile

/-! ## Meeting demands -/

/-- Binds a key path at a node; what is put into a field is written back. -/
def wire (vm : ViewModel) (n : NodeId) (path : KeyPath) : BindingKind → Compile Unit
  | .interpolation => bindValue vm n path .text .interpolation
  | .directive directive => do
    if directive = .model then
      onWorld fun w => ({ w with page := w.page.listen n inputEvent (.writeBack vm.link path) }, ())
    bindValue vm n path directive (.directive directive)
  | .event _ _ => pure ()

/-- Binds what one demand asks for. -/
def meet (vm : ViewModel) : Demand → Compile Unit
  | .value n kind expression origin => do wire vm n (← path expression origin) kind
  | .event n event method => bindEvent vm n event method

section

variable {α : Type}

/-- A part that succeeds is followed by the next one. -/
theorem on_forM_cons (f : α → Compile Unit) (x : α) (rest : List α) (d : Draft) :
    ((x :: rest).forM f).on d = match (f x).on d with
      | (.ok (), d') => (rest.forM f).on d'
      | (.error e, d') => (.error e, d') := by
  change (f x >>= fun _ => rest.forM f).on d = _
  rw [on_bind]
  rcases (f x).on d with ⟨_ | _, d'⟩ <;> rfl

theorem on_forM_singleton (f : α → Compile Unit) (x : α) (d : Draft) :
    ([x].forM f).on d = (f x).on d := by
  rw [on_forM_cons]
  rcases (f x).on d with ⟨_ | _, d'⟩ <;> rfl

theorem on_forM_append (f : α → Compile Unit) (xs ys : List α) (d : Draft) :
    ((xs ++ ys).forM f).on d = match (xs.forM f).on d with
      | (.ok (), d') => (ys.forM f).on d'
      | (.error e, d') => (.error e, d') := by
  induction xs generalizing d with
  | nil => rfl
  | cons x rest ih =>
    rw [List.cons_append, on_forM_cons, on_forM_cons]
    rcases (f x).on d with ⟨_ | _, d'⟩
    · rfl
    · exact ih d'

end

variable (w₀ : World) (vm : ViewModel)

/-- From a draft, a part of a compilation meets its demands one after the other: it fails with the fault of
the first that does not settle, or it makes their bindings and leaves a page that satisfies `Q`. -/
structure Yields (a : Compile Unit) (d : Draft) (demands : List Demand)
    (Q : Page Response → Prop) : Prop where
  runs : a.on d = (demands.forM (meet vm)).on d
  fails : ∀ e, Demand.settleAll (w₀.defines vm) demands = .error e → (a.on d).1 = .error e
  binds : ∀ bounds, Demand.settleAll (w₀.defines vm) demands = .ok bounds →
    ∃ d', a.on d = (.ok (), d') ∧ d'.From w₀ ∧ d'.bounds = d.bounds ++ bounds ∧ Q d'.world.page

variable {w₀ vm} {a b : Compile Unit} {d : Draft} {demands more : List Demand}
  {Q R : Page Response → Prop}

theorem Yields.congr (yields : Yields w₀ vm a d demands Q) (same : b.on d = a.on d) :
    Yields w₀ vm b d demands Q := by
  obtain ⟨runs, fails, binds⟩ := yields
  exact ⟨same.trans runs, same ▸ fails, same ▸ binds⟩

theorem Yields.mono (yields : Yields w₀ vm a d demands Q)
    (weaker : ∀ page, Q page → R page) : Yields w₀ vm a d demands R := by
  refine ⟨yields.runs, yields.fails, fun bounds h => ?_⟩
  obtain ⟨d', hd', drawn, hb, hQ⟩ := yields.binds bounds h
  exact ⟨d', hd', drawn, hb, weaker _ hQ⟩

theorem Yields.nothing (drawn : d.From w₀) (page : Q d.world.page) :
    Yields w₀ vm (pure ()) d [] Q := by
  refine ⟨rfl, nofun, fun bounds h => ?_⟩
  cases h
  exact ⟨d, rfl, drawn, (List.append_nil _).symm, page⟩

/-- Where demands settle, it is enough to say what is bound. -/
theorem Yields.of_ok {bounds : List Bound} {d' : Draft}
    (runs : a.on d = (demands.forM (meet vm)).on d)
    (settled : Demand.settleAll (w₀.defines vm) demands = .ok bounds)
    (run : a.on d = (.ok (), d')) (drawn : d'.From w₀) (bound : d'.bounds = d.bounds ++ bounds)
    (page : Q d'.world.page) : Yields w₀ vm a d demands Q := by
  refine ⟨runs, fun e h => ?_, fun bounds' h => ?_⟩
  · rw [settled] at h
    cases h
  · rw [settled] at h
    cases h
    exact ⟨d', run, drawn, bound, page⟩

/-- Where demands do not settle, it is enough to say how they fail. -/
theorem Yields.of_error {e : CompileError}
    (runs : a.on d = (demands.forM (meet vm)).on d)
    (settled : Demand.settleAll (w₀.defines vm) demands = .error e)
    (run : (a.on d).1 = .error e) : Yields w₀ vm a d demands Q := by
  refine ⟨runs, fun e' h => ?_, fun bounds h => ?_⟩
  · rw [settled] at h
    cases h
    exact run
  · rw [settled] at h
    cases h

/-- Parts that follow each other yield their demands in order. -/
theorem Yields.bind (first : Yields w₀ vm a d demands Q)
    (second : ∀ d', d'.From w₀ → Q d'.world.page → Yields w₀ vm b d' more R) :
    Yields w₀ vm (a >>= fun _ => b) d (demands ++ more) R := by
  have runs (rest : ∀ d', a.on d = (.ok (), d') → b.on d' = (more.forM (meet vm)).on d') :
      (a >>= fun _ => b).on d = ((demands ++ more).forM (meet vm)).on d := by
    rw [on_bind, on_forM_append, ← first.runs]
    rcases hr : a.on d with ⟨_ | _, d'⟩
    · rfl
    · exact rest d' hr
  rcases hs : Demand.settleAll (w₀.defines vm) demands with e | bounds
  · have failed := first.fails e hs
    refine .of_error (e := e) (runs fun d' run => ?_)
      (by rw [Demand.settleAll_append, hs]) ?_
    · rw [run] at failed
      cases failed
    · rw [on_bind]
      rcases hr : a.on d with ⟨r, d'⟩
      rw [hr] at failed
      cases failed
      rfl
  · obtain ⟨d', hd', drawn, hb, hQ⟩ := first.binds bounds hs
    have rest := second d' drawn hQ
    have runs := runs fun d'' run => by
      rw [hd'] at run
      cases run
      exact rest.runs
    rcases hm : Demand.settleAll (w₀.defines vm) more with e | others
    · refine .of_error (e := e) runs (by rw [Demand.settleAll_append, hs, hm]; rfl) ?_
      rw [on_bind, hd']
      exact rest.fails e hm
    · obtain ⟨d'', hd'', drawn', hb', hR⟩ := rest.binds others hm
      have settled : Demand.settleAll (w₀.defines vm) (demands ++ more) = .ok (bounds ++ others) := by
        rw [Demand.settleAll_append, hs, hm]
        rfl
      refine .of_ok runs settled ?_ drawn' (by rw [hb', hb, List.append_assoc]) hR
      rw [on_bind, hd']
      exact hd''

/-! ## Values -/

end Compile

namespace Compile

variable {w₀ : World} {vm : ViewModel} {d : Draft}

/-- A bound value is shown, and it is bound to its path. -/
theorem binds_bindValue (vm : ViewModel) (drawn : d.From w₀) (n : NodeId) (directive : Directive)
    (kind : BindingKind) {path : KeyPath} {expression : String}
    (parsed : KeyPath.parse expression = .ok path) :
    ∃ d', (bindValue vm n path directive kind).on d = (.ok (), d') ∧ d'.From w₀ ∧
      d'.bounds = d.bounds ++ [⟨n, kind, some path.text⟩] ∧
      d'.world.page = d.world.page.showing directive n (w₀.shown vm expression) := by
  let s := w₀.shown vm expression
  have shows : d.world.heap.render (d.world.readPath vm.table path).value = s := by
    simp only [s, World.shown, parsed]
    exact drawn.wires.render vm.table path
  let w₁ : World := { d.world with page := d.world.page.showing directive n s }
  let w₂ := (w₁.watch vm.link path (.render directive n)).1
  let id : WatcherId := ⟨w₁.watchers.size + 1⟩
  have run : (bindValue vm n path directive kind).on d =
      (.ok (), ⟨w₂, d.wiring ++ [⟨n, kind, some id⟩]⟩) := by
    unfold bindValue
    simp only [on_bind, on_onWorld, on_hold, World.untracked_evaluate, World.render_eq, shows]
    rfl
  have wires₁ : d.world.Wires w₁ := World.Wires.refl.page _
  have wires : d.world.Wires w₂ := wires₁.watch vm.link path (.render directive n)
  have size : w₂.watchers.size = d.world.watchers.size + 1 := Array.size_push ..
  have there : w₂.watcher? id = some ⟨vm.link, path, .render directive n⟩ := by
    simp only [w₂, id, World.watch_eq, World.watcher?]
    simp
  refine ⟨_, run, ⟨drawn.wires.trans wires, ?_⟩, ?_, rfl⟩
  · intro b hb other hw
    rcases List.mem_append.mp hb with hb | hb
    · exact (drawn.watchers b hb other hw).mono (size ▸ Nat.le_succ _)
    · rw [List.mem_singleton.mp hb] at hw
      cases hw
      exact ⟨Nat.succ_pos _, Nat.le_of_eq size.symm⟩
  · rw [Draft.bounds, List.map_append, drawn.bounds wires]
    simp only [Bound.of, List.map_cons, List.map_nil, Option.bind_some, there]
    rfl

theorem settleAll_value (n : NodeId) (kind : BindingKind) {path : KeyPath} {expression : String}
    (origin : String) (parsed : KeyPath.parse expression = .ok path) :
    Demand.settleAll (w₀.defines vm) [.value n kind expression origin] =
      .ok [⟨n, kind, some path.text⟩] := by
  simp only [Demand.settleAll_cons, Demand.settle, parsed]
  rfl

/-- The page changes, but no node of it does. -/
theorem Draft.From.listen {w₀ : World} {d : Draft} (drawn : d.From w₀) (page : Page Response) :
    Draft.From w₀ { d with world := { d.world with page } } :=
  ⟨drawn.wires.page page, drawn.watchers⟩

/-- A value with a malformed expression is not bound. -/
theorem yields_malformed {a : Compile Unit} (n : NodeId) (kind : BindingKind) {expression : String}
    (origin : String) {cause : PathError} (malformed : KeyPath.parse expression = .error cause)
    (same : a.on d = (meet vm (.value n kind expression origin)).on d) {Q : Page Response → Prop} :
    Yields w₀ vm a d [.value n kind expression origin] Q := by
  have settles : Demand.settleAll (w₀.defines vm) [.value n kind expression origin] =
      .error (.invalidExpression origin cause) := by
    simp only [Demand.settleAll_cons, Demand.settle, malformed]
  refine .of_error (same.trans (on_forM_singleton (meet vm) _ d).symm) settles ?_
  rw [same, meet, on_bind, nothing_of_path malformed]

/-- A directive is bound at its node; before, a listener may be added. -/
theorem yields_bindDirective (drawn : d.From w₀) (n : NodeId) (directive : Directive)
    (name value : String) :
    Yields w₀ vm (bindDirective vm n directive name value) d
      [.value n (.directive directive) value name] fun page =>
        ∃ p : Page Response, p.nodes = d.world.page.nodes ∧
          page = p.showing directive n (w₀.shown vm value) := by
  have same : (bindDirective vm n directive name value).on d =
      (meet vm (.value n (.directive directive) value name)).on d := rfl
  have runs := same.trans (on_forM_singleton (meet vm) _ d).symm
  rcases parsed : KeyPath.parse value with cause | path
  · exact yields_malformed n _ name parsed same
  · by_cases model : directive = .model
    · subst model
      let heard := d.world.page.listen n inputEvent (.writeBack vm.link path)
      obtain ⟨d', run, drawn', bounds, page⟩ :=
        binds_bindValue vm (Draft.From.listen drawn heard) n .model (.directive .model) parsed
      refine .of_ok runs (settleAll_value n _ name parsed) ?_ drawn' ?_ ⟨heard, rfl, page⟩
      · rw [← run]
        unfold bindDirective
        rw [on_bind, on_path parsed]
        simp only [if_true]
        rw [on_bind, on_onWorld]
      · exact bounds.trans
          (congrArg (· ++ _) (drawn.bounds (World.Wires.refl.page heard : d.world.Wires _)))
    · obtain ⟨d', run, drawn', bounds, page⟩ :=
        binds_bindValue vm drawn n directive (.directive directive) parsed
      refine .of_ok runs (settleAll_value n _ name parsed) ?_ drawn' bounds ⟨_, rfl, page⟩
      rw [← run]
      unfold bindDirective
      rw [on_bind, on_path parsed]
      simp only
      rw [if_neg model]

/-- An event is bound where its method is defined. -/
theorem yields_bindEvent (drawn : d.From w₀) (n : NodeId) (event method : String) :
    Yields w₀ vm (bindEvent vm n event method) d [.event n event method] fun page =>
      page.nodes = d.world.page.nodes := by
  have runs := (on_forM_singleton (meet vm) (.event n event method) d).symm
  have same := drawn.wires.method? vm.table method
  rcases found : w₀.method? vm.table method with _ | script
  · have settles : Demand.settleAll (w₀.defines vm) [.event n event method] =
        .error (.missingMethod event method) := by
      simp only [Demand.settleAll_cons, Demand.settle, World.defines, found]
      rfl
    refine .of_error runs settles ?_
    unfold bindEvent
    simp only [on_bind, on_onWorld, same, found]
    rfl
  · have settles : Demand.settleAll (w₀.defines vm) [.event n event method] =
        .ok [⟨n, .event event method, none⟩] := by
      simp only [Demand.settleAll_cons, Demand.settle, World.defines, found]
      rfl
    let w₁ : World :=
      { d.world with page := d.world.page.listen n event (.method vm.link script) }
    have run : (bindEvent vm n event method).on d =
        (.ok (), ⟨w₁, d.wiring ++ [⟨n, .event event method, none⟩]⟩) := by
      unfold bindEvent
      simp only [on_bind, on_onWorld, same, found, on_hold]
      rfl
    refine .of_ok runs settles run ⟨drawn.wires.page _, ?_⟩ ?_ rfl
    · intro b hb id hw
      rcases List.mem_append.mp hb with hb | hb
      · exact drawn.watchers b hb id hw
      · rw [List.mem_singleton.mp hb] at hw
        cases hw
    · have kept := drawn.bounds (World.Wires.refl.page w₁.page : d.world.Wires w₁)
      rw [Draft.bounds, List.map_append, kept]
      rfl

/-- A text with a marker is bound; any other text is passed over. -/
theorem yields_compileText (vm : ViewModel) (drawn : d.From w₀) (marks : Markers) (n : NodeId) :
    Yields w₀ vm (compileText marks vm n) d (marks.ofText n (d.world.page.textOf n)) fun page =>
      page = d.world.page ∨ ∃ s, page = d.world.page.setText n s := by
  rcases found : marks.interpolation (d.world.page.textOf n) with _ | expression
  · have none : marks.ofText n (d.world.page.textOf n) = [] := by simp only [Markers.ofText, found]
    rw [none]
    refine Yields.congr (Yields.nothing drawn (.inl rfl)) ?_
    unfold compileText
    simp only [on_bind, on_get, found]
  · have one : marks.ofText n (d.world.page.textOf n) =
        [.value n .interpolation expression (Text.trim (d.world.page.textOf n))] := by
      simp only [Markers.ofText, found]
    rw [one]
    have same : (compileText marks vm n).on d = (meet vm (.value n .interpolation expression
        (Text.trim (d.world.page.textOf n)))).on d := by
      unfold compileText
      simp only [on_bind, on_get, found, meet, wire]
    rcases parsed : KeyPath.parse expression with cause | path
    · exact yields_malformed n _ _ parsed same
    · obtain ⟨d', run, drawn', bounds, page⟩ := binds_bindValue vm drawn n .text .interpolation parsed
      refine .of_ok (same.trans (on_forM_singleton (meet vm) _ d).symm)
        (settleAll_value n _ _ parsed) ?_ drawn' bounds (.inr ⟨_, page⟩)
      simp only [same, ← run, meet, wire, on_bind, on_path parsed]

end Compile

end DataBinding
