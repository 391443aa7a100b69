-- Steps side by side: steps on the page and on templates, and all other steps put together. What a session
-- performs, its twin performs, with the same reply.
import DataBinding.Proofs.Session.TwinOperations

namespace DataBinding

variable {P : Parting} {T T' T₀ : Pair}

/-! ## Nodes -/

theorem Act.alike_mapM {α β : Type} {f : α → Act β}
    (same : ∀ T a, Act.Alike P T (f a) (f a) fun T => T.Equal fun _ => []) (as : List α) :
    Act.Alike P T₀ (as.mapM f) (as.mapM f) fun T => T.Equal fun _ => [] := by
  induction as generalizing T₀ with
  | nil => exact .pure fun _ _ _ => Pair.equal_plain.mpr rfl
  | cons a rest ih =>
    rw [List.mapM_cons]
    refine (same T₀ a).bindPlain fun T b _ => ?_
    refine ih.bindPlain fun T' bs _ => ?_
    exact .pure fun _ _ _ => Pair.equal_plain.mpr rfl

namespace Act

theorem alike_create (content : Content) :
    Alike P T₀ (onPage (·.create content)) (onPage (·.create content))
      fun T => T.Equal fun _ => [] :=
  alike_onPage (fun _ _ same => Page.nodes_create_congr same content)
    fun p => (p.repaints_create content).listeners

theorem alike_element (tag : String) (attributes : List (String × String)) (children : List NodeId) :
    Alike P T₀ (onPage (·.element tag attributes children)) (onPage (·.element tag attributes children))
      fun T => T.Equal fun _ => [] :=
  alike_onPage (fun _ _ same => Page.nodes_element_congr same tag attributes children)
    fun p => (p.repaints_element tag attributes children).listeners

end Act

mutual

theorem NodeSpec.alike_build (spec : NodeSpec) (T₀ : Pair) :
    Act.Alike P T₀ spec.build spec.build fun T => T.Equal fun _ => [] := by
  match spec with
  | .text s =>
    unfold build
    exact Act.alike_create (.text s)
  | .comment s =>
    unfold build
    exact Act.alike_create (.comment s)
  | .element name tag attributes children =>
    unfold build
    refine (NodeSpec.alike_buildAll children T₀).bindPlain fun T nodes _ => ?_
    refine (Act.alike_element tag attributes nodes).bindPlain fun T n _ => ?_
    exact (Act.alike_nameNode name n).bind fun _ _ _ _ _ => .pure fun _ _ _ => Pair.equal_plain.mpr rfl

theorem NodeSpec.alike_buildAll (specs : List NodeSpec) (T₀ : Pair) :
    Act.Alike P T₀ (buildAll specs) (buildAll specs) fun T => T.Equal fun _ => [] := by
  match specs with
  | [] =>
    unfold buildAll
    exact .pure fun _ _ _ => Pair.equal_plain.mpr rfl
  | spec :: rest =>
    unfold buildAll
    refine (NodeSpec.alike_build spec T₀).bindPlain fun T n _ => ?_
    refine (NodeSpec.alike_buildAll rest T).bindPlain fun T' ns _ => ?_
    exact .pure fun _ _ _ => Pair.equal_plain.mpr rfl

end

/-! ## The page -/

namespace PageOp

theorem alike_created (name : Option String) (n : NodeId) :
    Act.Alike P T₀ (created name n) (created name n) fun T => Outcomes P T :=
  (Act.alike_nameNode name n).bind fun _ _ _ _ _ => .pure fun _ _ _ => .plain rfl

theorem alike_located (name : Option String) (n : Option NodeId) :
    Act.Alike P T₀ (located name n) (located name n) fun T => Outcomes P T := by
  cases n with
  | none => exact .pure fun _ _ _ => .plain rfl
  | some n => exact alike_created name n

theorem alike_changing (handle : String) {change : NodeId → Page Response → Page Response}
    (nodes : ∀ n p q, q.nodes = p.nodes → (change n q).nodes = (change n p).nodes)
    (listeners : ∀ n p, (change n p).listeners = p.listeners) :
    Act.Alike P T₀ (changing handle change) (changing handle change) fun T => Outcomes P T := by
  unfold changing
  refine (Act.alike_node handle).bindPlain fun T n _ => ?_
  exact (Act.alike_onPage (fun p q same => ⟨nodes n p q same, rfl⟩) (listeners n)).bind
    fun _ _ _ _ _ => .pure fun _ _ _ => .plain rfl

theorem alike_reading (handle : String) {read : NodeId → Page Response → Reply Value}
    (same : ∀ n (T : Pair), T.Fits P → read n T.right.page = read n T.left.page)
    (plain : ∀ n p, (read n p).held = .nothing) :
    Act.Alike P T₀ (reading handle read) (reading handle read) fun T => Outcomes P T := by
  unfold reading
  refine (Act.alike_node handle).bindPlain fun T n _ => ?_
  refine .page fun T' _ fits => ?_
  rw [same n T' fits]
  exact .pure fun _ _ _ => .plain (plain _ _)

theorem alike_dispatching (n : NodeId) (event : PageEvent) :
    Act.Alike P T₀ (dispatching n event) (dispatching n event) fun T => Outcomes P T := by
  refine .page fun T _ fits => ?_
  have responses := fits.responses n event.name
  dsimp only
  rw [← responses.length_eq]
  exact .pure fun T' le _ => ⟨rfl, shows_nothing rfl,
    .hearing event (responses.imp fun _ _ h => h.mono le), holds_nothing⟩

theorem alike_perform (op : PageOp) :
    Act.Alike P T₀ op.perform op.perform fun T => Outcomes P T := by
  cases op with
  | element tag attributes children name =>
    refine (Act.alike_mapM (fun _ => Act.alike_node) children).bindPlain fun T nodes _ => ?_
    refine (Act.alike_element tag attributes nodes).bindPlain fun T n _ => ?_
    exact alike_created name n
  | text s name =>
    refine (Act.alike_create (.text s)).bindPlain fun T n _ => ?_
    exact alike_created name n
  | comment s name =>
    refine (Act.alike_create (.comment s)).bindPlain fun T n _ => ?_
    exact alike_created name n
  | build spec name =>
    refine (spec.alike_build T₀).bindPlain fun T n _ => ?_
    exact alike_created name n
  | append above below =>
    refine (Act.alike_node above).bindPlain fun T parent _ => ?_
    refine (Act.alike_node below).bindPlain fun T child _ => ?_
    exact (Act.alike_onPage (fun _ _ same => ⟨Page.nodes_append_congr same parent child, rfl⟩)
      fun p => (p.repaints_append parent child).listeners).bind
      fun _ _ _ _ _ => .pure fun _ _ _ => .plain rfl
  | query selector name =>
    refine .page fun T _ fits => ?_
    rw [Page.query_congr fits.nodes]
    exact alike_located name _
  | child handle position name =>
    refine (Act.alike_node handle).bindPlain fun T n _ => ?_
    refine .page fun T _ fits => ?_
    rw [Page.children_congr fits.nodes]
    exact alike_located name _
  | node handle =>
    refine alike_reading handle (fun n T fits => ?_) fun _ _ => rfl
    simp only [NodeReport.ofNode, Page.content?_congr fits.nodes, Page.tag?_congr fits.nodes,
      Page.parent?_congr fits.nodes, Page.children_congr fits.nodes,
      Page.innerMarkup?_congr fits.nodes, Page.textOf_congr fits.nodes, Page.attributes]
  | markup handle =>
    exact alike_reading handle (fun n T fits => by rw [Page.markupOf_congr fits.nodes]) fun _ _ => rfl
  | textOf handle =>
    exact alike_reading handle (fun n T fits => by rw [Page.textOf_congr fits.nodes]) fun _ _ => rfl
  | attr handle name =>
    exact alike_reading handle (fun n T fits => by rw [Page.attribute?_congr fits.nodes]) fun _ _ => rfl
  | property handle name =>
    exact alike_reading handle (fun n T fits => by rw [Page.property?_congr fits.nodes]) fun _ _ => rfl
  | listeners handle event =>
    exact alike_reading handle (fun n T fits => by rw [(fits.responses n event).length_eq]) fun _ _ => rfl
  | setText handle value =>
    exact alike_changing handle (fun n _ _ same => Page.nodes_setText_congr same n value)
      fun n p => (p.repaints_setText n value).listeners
  | setProperty handle name value =>
    exact alike_changing handle (fun n _ _ same => Page.nodes_change_congr same n _) fun _ _ => rfl
  | setAttribute handle name value =>
    exact alike_changing handle (fun n _ _ same => Page.nodes_change_congr same n _) fun _ _ => rfl
  | setMarkup handle value =>
    exact alike_changing handle (fun n _ _ same => Page.nodes_setMarkup_congr same n value)
      fun n p => (p.repaints_setMarkup n value).listeners
  | dispatch handle event =>
    refine (Act.alike_node handle).bindPlain fun T n _ => ?_
    exact alike_dispatching n event
  | input handle value =>
    refine (Act.alike_node handle).bindPlain fun T n _ => ?_
    exact (Act.alike_onPage (fun _ _ same => ⟨Page.nodes_change_congr same n _, rfl⟩)
      fun _ => rfl).bind fun _ _ _ _ _ => alike_dispatching n _
  | click handle =>
    refine (Act.alike_node handle).bindPlain fun T n _ => ?_
    exact alike_dispatching n _

end PageOp

/-! ## Templates -/

namespace Pair.Fits

theorem pathOf (fits : T.Fits P) (id : Option WatcherId) :
    (id.bind T.right.watcher?).map (·.path.text) = (id.bind T.left.watcher?).map (·.path.text) := by
  cases id with
  | none => rfl
  | some id =>
    have same := fits.watcher? id
    simp only [Option.bind_some]
    generalize T.left.watcher? id = x, T.right.watcher? id = y at same
    cases same with
    | none => rfl
    | some same => simp only [Option.map_some, same.path]

theorem report (fits : T.Fits P) (wiring : Wiring) :
    BindingReport.ofWiring T.right wiring = BindingReport.ofWiring T.left wiring :=
  List.map_congr_left fun b _ => by simp only [BindingReport.ofBinding, fits.pathOf]

theorem boundTo (fits : T.Fits P) (wiring : Wiring) (expression : String) :
    wiring.boundTo T.right expression = wiring.boundTo T.left expression := by
  simp only [Wiring.boundTo, fits.pathOf]

end Pair.Fits

theorem alike_compileStep (node owner name : String) (marks : MarksTerm) (spared : P.Spares owner) :
    Act.Alike P T₀ (compileStep node owner name marks) (compileStep node owner name marks)
      fun T => Outcomes P T := by
  unfold compileStep
  refine (Act.alike_node node).bindPlain fun T n _ => ?_
  refine (Act.alike_viewModel spared).bind fun T vm vm' _ same => ?_
  refine (Act.alike_marks marks).bindPlain fun T marks le => ?_
  refine Act.Alike.bind (R := fun T => T.Equal fun _ => []) (Act.alike_onWorld fun T le' fits => ?_)
    fun T r r' _ equal => ?_
  · obtain ⟨outcome, becomes⟩ := fits.compile marks (same.mono (le.trans le')) n
    exact becomes.imp fun _ _ _ _ _ _ => Pair.equal_plain.mpr outcome
  · obtain rfl := Pair.equal_plain.mp equal
    rcases r' with cause | wiring
    · exact .fail
    · refine (Act.alike_modify fun T s t _ twins => ?_).bind fun T _ _ _ _ => .world fun T _ fits => ?_
      · exact { twins with wirings := congrArg (putEntry name wiring) twins.wirings }
      · rw [fits.report]
        exact .pure fun _ _ _ => .plain rfl

theorem alike_newMethods (methods : List (String × List Step × Option Nat)) :
    Act.Alike P T₀ (newMethods methods) (newMethods methods) fun T => T.Equal fun _ => [] := by
  refine Act.alike_mapM (fun T method => ?_) methods
  refine (Act.alike_newScript _ _ _ _).bindPlain fun T id _ => ?_
  exact .pure fun _ _ _ => Pair.equal_plain.mpr rfl

theorem alike_viewStep (name : String) (data : Term) (mount : Option String)
    (methods : List (String × List Step × Option Nat)) (marks : MarksTerm) (described : Bool)
    (spared : P.SparesAll (name :: data.names)) :
    Act.Alike P T₀ (viewStep name data mount methods marks described)
      (viewStep name data mount methods marks described) fun T => Outcomes P T := by
  obtain ⟨own, terms⟩ := Parting.sparesAll_cons.mp spared
  unfold viewStep
  refine (data.alike_eval terms T₀).bindOne fun T v le lives => ?_
  refine (Act.alike_marks marks).bindPlain fun T' marks le' => ?_
  refine (alike_newMethods methods).bindPlain fun T'' scripts le'' => ?_
  have lives := (le'.trans le'').lives lives
  refine Act.Alike.bind (R := fun T => Agrees (T.Views P)) (Act.alike_onWorld fun T le fits => ?_)
    fun T r r' _ agrees => ?_
  · exact fits.mountView _ (le.lives lives)
  · cases agrees with
    | error cause => exact .fail
    | @ok view view' same =>
      refine (Act.alike_modify fun T s t le twins => ?_).bind fun T _ _ le _ => .world fun T' le' fits => ?_
      · exact twins.putView own (same.mono le)
      · rw [fits.report, fits.propertyNames, ← same.viewModel.table, ← same.root, ← same.wiring]
        exact .pure fun _ _ _ => .plain rfl

/-! ## Descriptions -/

theorem Pair.Fits.ofViewModel (fits : T.Fits P) (t : TableId) :
    Description.ofViewModel T.right t = Description.ofViewModel T.left t := by
  rw [fits.right_eq]
  rfl

theorem Subject.alike_inWords (subject : Subject) (spared : P.SparesAll subject.names) :
    Act.Alike P T₀ subject.inWords subject.inWords fun T => T.Equal fun _ => [] := by
  have same {T : Pair} {x y : String} (e : y = x) :
      Act.Alike P T (pure x) (pure y) fun T => T.Equal fun _ => [] :=
    .pure fun _ _ _ => Pair.equal_plain.mpr e
  cases subject with
  | value t =>
    refine (t.alike_eval spared T₀).bindOne fun T v _ _ => ?_
    exact .heap fun T _ _ => same rfl
  | viewModel name =>
    refine (Act.alike_viewModel (spared name (List.mem_singleton_self _))).bind fun T vm vm' _ vms => ?_
    exact .world fun T _ fits => same (by rw [← vms.table, fits.ofViewModel])
  | link name =>
    refine (Act.alike_link name).bind fun T l l' le links => ?_
    exact .world fun T le fits => same (by
      rw [Description.ofLink, Description.ofLink, fits.isLive (links.mono le)])
  | registry d =>
    refine (d.alike_eval spared).bindEqual fun T r _ _ => ?_
    exact .heap fun T _ _ => same rfl
  | page =>
    refine .page fun T _ fits => same ?_
    rw [Description.ofPage, Description.ofPage, fits.nodes, fits.listeners.length_eq]
  | wiring name =>
    refine (Act.alike_wiring (spared name (List.mem_singleton_self _))).bindPlain fun T w _ => ?_
    exact same rfl
  | view name =>
    refine .get fun T s t _ twins => ?_
    have found := twins.viewOf (spared name (List.mem_singleton_self _))
    refine (Act.Alike.found (R := fun T => T.Views P) found fun _ _ _ le h => h.mono le).bind
      fun T v v' _ views => .world fun T _ fits => same ?_
    rw [Description.ofView, Description.ofView, fits.ofViewModel, views.viewModel.table, views.root,
      views.wiring]
  | watcher name =>
    refine (Act.alike_watcher name).bindPlain fun T id _ => ?_
    refine .world fun T _ fits => ?_
    have found := fits.watcher? id
    refine (Act.Alike.found (R := fun T => T.Watches P) found fun _ _ _ le h => h.mono le).bind
      fun T w w' _ watches => same ?_
    rw [Description.ofWatcher, Description.ofWatcher, watches.path]

/-! ## Dropped handles -/

theorem mem_dropEntry {α : Type} {name : String} {entries : List (String × α)} {entry : String × α}
    (h : entry ∈ dropEntry name entries) : entry ∈ entries := List.mem_of_mem_filter h

theorem rel_isSome {α β : Type} {R : α → β → Prop} {x : Option α} {y : Option β}
    (same : Option.Rel R x y) : y.isSome = x.isSome := by
  cases same <;> rfl

theorem HandleKind.alike_drop (name : String) (kind : HandleKind)
    (spared : P.SparesAll (Step.drop kind name).names) :
    Act.Alike P T₀ (kind.drop name) (kind.drop name) fun T => T.Equal fun _ => [] := by
  intro T c c' s t _ twins _
  have ok {x y : Bool} (e : y = x) : Agrees (T.Equal fun _ => []) (.ok x : Except Fault Bool) (.ok y) :=
    .ok (Pair.equal_plain.mpr e)
  refine ⟨T, .refl T, ?_⟩
  cases kind with
  | value =>
    refine ⟨{ twins with
      values := congrArg (dropEntry name) twins.values
      lives := fun entry h => twins.lives entry (mem_dropEntry h) }, ok ?_⟩
    exact congrArg (fun values : List (String × Value) => (values.lookup name).isSome) twins.values
  | viewModel =>
    have own := spared name (List.mem_singleton_self _)
    refine ⟨{ twins with
      viewModels := spare_dropEntry ▸ twins.viewModels.drop name
      ownViewModels := fun entry h => twins.ownViewModels entry (mem_dropEntry h) }, ok ?_⟩
    have found := twins.viewModels.lookup name
    rw [lookup_spare own.1] at found
    exact rel_isSome found
  | link =>
    exact ⟨{ twins with links := twins.links.drop name }, ok (rel_isSome (twins.links.lookup name))⟩
  | watcher =>
    refine ⟨{ twins with watchers := congrArg (dropEntry name) twins.watchers }, ok ?_⟩
    exact congrArg (fun watchers : List (String × WatcherId) => (watchers.lookup name).isSome) twins.watchers
  | registry =>
    refine ⟨{ twins with registries := congrArg (dropEntry name) twins.registries }, ok ?_⟩
    exact congrArg (fun rs : List (String × RegistryId) => (rs.lookup name).isSome) twins.registries
  | wiring =>
    refine ⟨{ twins with wirings := congrArg (dropEntry name) twins.wirings }, ok ?_⟩
    exact congrArg (fun wirings : List (String × Wiring) => (wirings.lookup name).isSome) twins.wirings
  | view =>
    have own := spared name (List.mem_singleton_self _)
    refine ⟨{ twins with
      views := spare_dropEntry ▸ twins.views.drop name
      ownViews := fun entry h => twins.ownViews entry (mem_dropEntry h) }, ok ?_⟩
    exact rel_isSome (twins.viewOf own)

/-! ## Steps -/

/-- The view model that a name means in a context. -/
def Session.viewModelIn? (s : Session) (c : Context) (name : String) : Option ViewModel :=
  if name = Act.ownName then c.viewModel else s.viewModel? name

/-- The table that a step mounts something over. -/
def Step.mountsOver? (s : Session) (c : Context) : Step → Option TableId
  | .viewModel name (.mount _ _) => (s.viewModelIn? c name).map (·.table)
  | _ => none

theorem Act.on_viewModel (name : String) (c : Context) (s : Session) :
    (Act.viewModel name).on c s = (Act.found "view model" name (s.viewModelIn? c name)).on c s := by
  unfold Act.viewModel Session.viewModelIn?
  split <;> rfl

/-- Two sessions after the same step, with what it leaves to be done. -/
def Performed (P : Parting) (T : Pair) (r r' : Except Fault Outcome × Session) : Prop :=
  ∃ T', T.Le T' ∧ Twins P T' r.2 r'.2 ∧ Agrees (Outcomes P T') r.1 r'.1

namespace Step

/-- A step on a view model is the same on both sides, unless it mounts something over the parted
table. -/
theorem alike_viewModel {name : String} {op : ViewModelOp} {s t : Session} {c c' : Context}
    (twins : Twins P T s t) (contexts : Contexts P T c c')
    (spared : P.SparesAll (Step.viewModel name op).names)
    (apart : ∀ u, (Step.viewModel name op).mountsOver? t c' = some u → P.table ≠ some u) :
    Performed P T ((Step.viewModel name op).perform.on c s) ((Step.viewModel name op).perform.on c' t) := by
  obtain ⟨own, terms⟩ := Parting.sparesAll_cons.mp spared
  have same : Option.Rel (T.ViewModels P) (s.viewModelIn? c name) (t.viewModelIn? c' name) := by
    unfold Session.viewModelIn?
    split
    · exact contexts.viewModel
    · exact twins.viewModel? own
  have other (mounted : String) (u : Term) (is : op = .mount mounted u) (vm : ViewModel)
      (found : t.viewModelIn? c' name = some vm) : P.table ≠ some vm.table := by
    subst is
    exact apart _ (by rw [mountsOver?, found]; rfl)
  show Performed P T ((Act.viewModel name >>= op.perform).on c s) ((Act.viewModel name >>= op.perform).on c' t)
  rw [Act.on_bind, Act.on_bind, Act.on_viewModel, Act.on_viewModel]
  generalize s.viewModelIn? c name = x, t.viewModelIn? c' name = y at same other
  cases same with
  | none => exact ⟨T, .refl T, twins, .error _⟩
  | @some vm vm' same =>
    have alike := ViewModelOp.alike_perform same op terms fun mounted u is =>
      same.table ▸ other mounted u is vm' rfl
    exact alike T c c' s t (.refl T) twins contexts

/-- Every step is performed alike on both sides. -/
theorem alike_perform (step : Step) {s t : Session} {c c' : Context} (twins : Twins P T s t)
    (contexts : Contexts P T c c') (spared : P.SparesAll step.names)
    (apart : ∀ u, step.mountsOver? t c' = some u → P.table ≠ some u) :
    Performed P T (step.perform.on c s) (step.perform.on c' t) := by
  -- all other steps are alike wherever they are performed
  have alike {a : Act Outcome} (same : Act.Alike P T a a fun T => Outcomes P T) :
      Performed P T (a.on c s) (a.on c' t) := same T c c' s t (.refl T) twins contexts
  have only {name : String} (spared : P.SparesAll [name]) : P.Spares name :=
    spared name (List.mem_singleton_self _)
  have done {T : Pair} {r : Reply Value} (none : r.held = .nothing) :
      Act.Alike P T (pure (.ofReply r)) (pure (.ofReply r)) fun T => Outcomes P T :=
    .pure fun _ _ _ => .plain none
  cases step with
  | keep name t =>
    refine alike ((t.alike_eval spared T).bindOne fun T v le lives => ?_)
    refine (Act.alike_modify fun T s t le twins => ?_).bind fun T _ _ le _ =>
      .pure fun T' le' _ => .value ((le.trans le').lives lives)
    exact twins.putValue name (le.lives lives)
  | value t =>
    refine alike ((t.alike_eval spared T).bindOne fun T v le lives => ?_)
    exact .pure fun T le _ => .value (le.lives lives)
  | render t =>
    refine alike ((t.alike_eval spared T).bindOne fun T v le lives => ?_)
    exact .heap fun _ _ _ => done rfl
  | json t =>
    refine alike ((t.alike_eval spared T).bindOne fun T v le lives => ?_)
    exact .heap fun _ _ _ => done rfl
  | same a b =>
    obtain ⟨first, second⟩ := Parting.sparesAll_append.mp spared
    refine alike ((a.alike_eval first T).bindOne fun T v le lives => ?_)
    refine (b.alike_eval second T).bindOne fun T w _ _ => ?_
    exact done rfl
  | dump t =>
    refine alike ((t.alike_eval spared T).bindOne fun T v le lives => ?_)
    exact .pure fun T le _ => .reply' (List.forall_mem_singleton.mpr (le.lives lives))
  | observe t =>
    refine alike ((t.alike_eval spared T).bindOne fun T v le lives => ?_)
    refine (Act.alike_onHeap_plain fun T _ _ => ?_).bind
      fun T _ _ le _ => .pure fun T' le' _ =>
        .reply' (List.forall_mem_singleton.mpr ((le.trans le').lives lives))
    exact T.left.heap.preserves_apply (.observe v) (by simp [Edit.values])
  | drop kind name =>
    refine alike ((kind.alike_drop name spared).bindPlain fun T b _ => ?_)
    exact done rfl
  | map t op =>
    obtain ⟨first, second⟩ := Parting.sparesAll_append.mp spared
    refine alike ((t.alike_evalMap first).bindEqual fun T m _ lives => ?_)
    exact op.alike_perform (List.forall_mem_singleton.mp lives) second
  | list t op =>
    obtain ⟨first, second⟩ := Parting.sparesAll_append.mp spared
    refine alike ((t.alike_evalList first).bindEqual fun T l _ lives => ?_)
    exact op.alike_perform (List.forall_mem_singleton.mp lives) second
  | newViewModel name origin =>
    obtain ⟨own, terms⟩ := Parting.sparesAll_cons.mp spared
    refine alike ((origin.alike_make terms).bind fun T vm vm' _ same => ?_)
    refine (Act.alike_modify fun T s t le twins => ?_).bind fun T _ _ _ _ => .world fun T _ fits => ?_
    · exact twins.putViewModel own (same.mono le)
    · rw [fits.propertyNames, ← same.table]
      exact done rfl
  | viewModel name op => exact alike_viewModel twins contexts spared apart
  | defineMethod owner name script limit =>
    refine alike ((Act.alike_viewModel (only spared)).bind fun T vm vm' _ same => ?_)
    refine (Act.alike_newScript _ _ _ _).bindPlain fun T id _ => ?_
    refine Act.Alike.bind (R := fun _ _ _ => True) (Act.alike_onWorld fun T _ fits => ?_)
      fun _ _ _ _ _ => done rfl
    rw [← same.table]
    exact fits.putMethod vm.table name id fun _ _ => trivial
  | live handle =>
    refine alike ((Act.alike_link handle).bind fun T l l' _ links => .world fun T le fits => ?_)
    rw [fits.isLive (links.mono le)]
    exact done rfl
  | follow handle name =>
    refine alike ((Act.alike_link handle).bind fun T l l' _ links => ?_)
    refine Act.Alike.bind (R := fun T => T.ViewModels P) (Act.alike_onWorld fun T le fits =>
      fits.follow (links.mono le)) fun T vm vm' _ same => ?_
    exact (Act.alike_modify fun T s t le twins => twins.putViewModel (only spared) (same.mono le)).bind
      fun _ _ _ _ _ => done rfl
  | watch owner expression name script limit =>
    refine alike ((Act.alike_viewModel (only spared)).bind fun T vm vm' le same => ?_)
    refine (Act.alike_parse expression).bindPlain fun T path le₁ => ?_
    refine (Act.alike_newScript _ _ _ _).bindPlain fun T script le₂ => ?_
    refine Act.Alike.bind (R := fun T => T.Equal fun _ => []) (Act.alike_onWorld fun T le₃ fits => ?_)
      fun T id id' _ equal => ?_
    · have le := (le₁.trans le₂).trans le₃
      obtain ⟨value, becomes⟩ := fits.watch (same.mono le).links path (.script script)
      exact becomes.imp fun _ _ _ _ _ _ => Pair.equal_plain.mpr value
    · obtain rfl := Pair.equal_plain.mp equal
      refine (Act.alike_modify fun T s t _ twins => ?_).bind fun _ _ _ _ _ => done rfl
      exact { twins with watchers := congrArg (putEntry name id') twins.watchers }
  | watcher name op =>
    refine alike ((Act.alike_watcher name).bindPlain fun T id _ => ?_)
    exact op.alike_perform id
  | collecting =>
    refine alike (.world fun T _ fits => ?_)
    rw [fits.right_eq]
    exact done rfl
  | newRegistry name =>
    refine alike ((Act.alike_onHeap_plain fun T _ _ => ?_).bindPlain fun T r _ => ?_)
    · exact T.left.heap.preserves_apply .newRegistry (by simp [Edit.values])
    · refine (Act.alike_modify fun T s t _ twins => ?_).bind fun _ _ _ _ _ => done rfl
      exact { twins with registries := congrArg (putEntry name r) twins.registries }
  | registry d op =>
    refine alike ((d.alike_eval spared).bindEqual fun T r _ lives => ?_)
    exact op.alike_perform lives
  | page op => exact alike op.alike_perform
  | listen node event tag script limit =>
    refine alike ((Act.alike_node node).bindPlain fun T n _ => ?_)
    refine (Act.alike_newScript _ _ _ _).bindPlain fun T id _ => ?_
    refine Act.Alike.bind (R := fun _ _ _ => True) (Act.alike_onWorld fun T _ fits => ?_)
      fun _ _ _ _ _ => done rfl
    exact fits.listen (.script id) n event
  | compile node owner name marks => exact alike (alike_compileStep node owner name marks (only spared))
  | view name data mount methods marks described =>
    exact alike (alike_viewStep name data mount methods marks described spared)
  | wiring name =>
    refine alike ((Act.alike_wiring (only spared)).bindPlain fun T w _ => .world fun T _ fits => ?_)
    rw [fits.report]
    exact done rfl
  | bound name expression =>
    refine alike ((Act.alike_wiring (only spared)).bindPlain fun T w _ => .world fun T _ fits => ?_)
    rw [fits.boundTo]
    exact done rfl
  | describe subject =>
    refine alike ((subject.alike_inWords spared).bindPlain fun T w _ => ?_)
    exact done rfl

end Step

/-- What a session performs, its twin performs, with the same outcome. -/
theorem Twins.perform {s t : Session} {c c' : Context} (twins : Twins P T s t)
    (contexts : Contexts P T c c') (step : Step) (spared : P.SparesAll step.names)
    (apart : ∀ u, step.mountsOver? t c' = some u → P.table ≠ some u) :
    ∃ T', T.Le T' ∧ Twins P T' (s.perform c step).1 (t.perform c' step).1 ∧
      Outcomes P T' (s.perform c step).2 (t.perform c' step).2 := by
  obtain ⟨T', le, twins', agrees⟩ := step.alike_perform twins contexts spared apart
  have both (s : Session) (c : Context) : s.perform c step = match step.perform.on c s with
      | (.ok outcome, s') => (s', outcome)
      | (.error f, s') => (s', .ofReply (.fault f)) := rfl
  rw [both, both]
  generalize step.perform.on c s = x, step.perform.on c' t = y at twins' agrees ⊢
  obtain ⟨r, s'⟩ := x
  obtain ⟨r', t'⟩ := y
  dsimp only at twins' agrees
  cases agrees with
  | error f => exact ⟨T', le, twins', .plain rfl⟩
  | ok same => exact ⟨T', le, twins', same⟩

end DataBinding
