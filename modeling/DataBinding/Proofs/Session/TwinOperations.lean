-- Operations side by side. An operation that names no handle that was let go of, and mounts nothing over
-- the parted table, has the same reply in both sessions, leaves the same work to be done and holds the same
-- values.
import DataBinding.Proofs.Session.TwinTerms

namespace DataBinding

/-! ## The names in a step -/

def MapOp.names : MapOp → List String
  | .set _ v | .attach _ v | .define _ v => v.names
  | _ => []

def ListOp.names : ListOp → List String
  | .push v | .unshift v | .set _ v => v.names
  | .splice _ _ inserted => Term.namesAll inserted
  | _ => []

def ViewModelOp.names : ViewModelOp → List String
  | .clone name | .same name => [name]
  | .mount _ v | .set _ v | .assign _ v | .call _ v => v.names
  | _ => []

def Origin.names : Origin → List String
  | .nothing => []
  | .mounted t | .observed t => t.names

def Subject.names : Subject → List String
  | .value t => t.names
  | .viewModel name | .wiring name | .view name => [name]
  | .registry d => d.names
  | .link _ | .page | .watcher _ => []

/-- The values, view models and views that a step names. -/
def Step.names : Step → List String
  | .keep _ t | .value t | .render t | .json t | .dump t | .observe t => t.names
  | .same a b => a.names ++ b.names
  | .drop .viewModel name | .drop .view name => [name]
  | .map t op => t.names ++ op.names
  | .list t op => t.names ++ op.names
  | .newViewModel name origin => name :: origin.names
  | .viewModel name op => name :: op.names
  | .defineMethod owner _ _ _ | .watch owner _ _ _ _ | .compile _ owner _ _ => [owner]
  | .follow _ name | .wiring name | .bound name _ => [name]
  | .registry d _ => d.names
  | .view name data _ _ _ _ => name :: data.names
  | .describe subject => subject.names
  | _ => []

variable {P : Parting} {T T' T₀ : Pair}

/-! ## Outcomes -/

/-- The same values are held, and view models that belong together. -/
structure Holds (P : Parting) (T : Pair) (a b : Held) : Prop where
  values : b.values = a.values
  lives : ∀ v ∈ a.values, T.left.heap.Lives v
  viewModels : List.Forall₂ (T.ViewModels P) a.viewModels b.viewModels

/-- The same work is left. -/
inductive Works (P : Parting) (T : Pair) : Work → Work → Prop where
  | nothing : Works P T .nothing .nothing
  | turns (owed : List WatcherId) : Works P T (.turns owed) (.turns owed)
  | hearing (event : PageEvent) {rs rs' : List Response} (same : List.Forall₂ (T.Responds P) rs rs') :
    Works P T (.hearing event rs) (.hearing event rs')
  | call (script : ScriptId) {c c' : Context} (same : Contexts P T c c') :
    Works P T (.call script c) (.call script c')

structure Outcomes (P : Parting) (T : Pair) (o o' : Outcome) : Prop where
  reply : o'.reply = o.reply
  lives : ∀ v ∈ o.reply.held.values, T.left.heap.Lives v
  work : Works P T o.work o'.work
  held : Holds P T o.held o'.held

theorem holds_nothing : Holds P T .nothing .nothing := ⟨rfl, nofun, .nil⟩

/-- A reply that names no value. -/
theorem shows_nothing {r : Reply Value} (none : r.held = .nothing) :
    ∀ v ∈ r.held.values, T.left.heap.Lives v := by
  simp [none, Held.nothing]

theorem holds_values {vs : List Value} (lives : ∀ v ∈ vs, T.left.heap.Lives v) :
    Holds P T ⟨vs, []⟩ ⟨vs, []⟩ := ⟨rfl, lives, .nil⟩

namespace Outcomes

/-- A reply and nothing left to do. -/
theorem reply' {r : Reply Value} (lives : ∀ v ∈ r.held.values, T.left.heap.Lives v) :
    Outcomes P T (.ofReply r) (.ofReply r) := ⟨rfl, lives, .nothing, holds_nothing⟩

theorem plain {r : Reply Value} (none : r.held = .nothing) : Outcomes P T (.ofReply r) (.ofReply r) :=
  reply' (shows_nothing none)

theorem value {v : Value} (lives : T.left.heap.Lives v) :
    Outcomes P T (.ofReply (.value v)) (.ofReply (.value v)) :=
  reply' (List.forall_mem_singleton.mpr lives)

theorem optional {v : Option Value} (lives : ∀ x, v = some x → T.left.heap.Lives x) :
    Outcomes P T (.ofReply (.ofOption v)) (.ofReply (.ofOption v)) := by
  cases v with
  | none => exact plain rfl
  | some v => exact value (lives v rfl)

end Outcomes

/-! ## Handles -/

namespace Twins

variable {s t : Session}

theorem putValue (twins : Twins P T s t) (name : String) {v : Value} (lives : T.left.heap.Lives v) :
    Twins P T { s with values := putEntry name v s.values }
      { t with values := putEntry name v t.values } :=
  { twins with
    values := congrArg (putEntry name v) twins.values
    lives := fun entry h => by
      rcases mem_putEntry h with rfl | h
      · exact lives
      · exact twins.lives entry h }

theorem putViewModel (twins : Twins P T s t) {name : String} (spared : P.Spares name)
    {vm vm' : ViewModel} (same : T.ViewModels P vm vm') :
    Twins P T { s with viewModels := putEntry name vm s.viewModels }
      { t with viewModels := putEntry name vm' t.viewModels } :=
  { twins with
    viewModels := spare_putEntry spared.1 vm ▸ twins.viewModels.put name same
    ownViewModels := fun entry h own => by
      rcases mem_putEntry h with rfl | h
      · exact absurd own spared.1
      · exact twins.ownViewModels entry h own }

theorem putView (twins : Twins P T s t) {name : String} (spared : P.Spares name)
    {v v' : MountedView} (same : T.Views P v v') :
    Twins P T { s with views := putEntry name v s.views }
      { t with views := putEntry name v' t.views } :=
  { twins with
    views := spare_putEntry spared.2 v ▸ twins.views.put name same
    ownViews := fun entry h own => by
      rcases mem_putEntry h with rfl | h
      · exact absurd own spared.2
      · exact twins.ownViews entry h own }

end Twins

/-! ## Maps and lists -/

namespace MapOp

theorem alike_writing {m : MapId} (lives : T₀.left.heap.Lives (.map m))
    {write : Heap → Heap × List WatcherId}
    (preserves : ∀ T, T₀.Le T → Heap.Preserves T.left.heap (write T.left.heap).1) :
    Act.Alike P T₀ (writing m write) (writing m write) fun T => Outcomes P T := by
  unfold writing
  refine (Act.alike_onHeap_plain fun T le _ => preserves T le).bindPlain fun T owed le => ?_
  exact .pure fun T' le' _ => ⟨rfl, nofun, .turns _,
    holds_values (List.forall_mem_singleton.mpr ((le.trans le').lives lives))⟩

theorem alike_perform {m : MapId} (lives : T₀.left.heap.Lives (.map m)) (op : MapOp)
    (spared : P.SparesAll op.names) :
    Act.Alike P T₀ (op.perform m) (op.perform m) fun T => Outcomes P T := by
  cases op with
  | get key =>
    refine .heap fun T _ fits => ?_
    have found : ∀ x, ((T.left.heap.read m key).map (·.value)) = some x → T.left.heap.Lives x := by
      intro x hx
      obtain ⟨r, hr, rfl⟩ := Option.map_eq_some_iff.mp hx
      obtain ⟨e, he, rfl⟩ := Option.map_eq_some_iff.mp hr
      exact fits.whole.lookup? he
    refine Act.Alike.bind (R := fun _ _ _ => True) (Act.alike_onWorld fun T' _ fits' => ?_)
      fun T' _ _ le _ => ?_
    · simp only [fits'.depend]
      exact fits'.rests trivial
    · exact .pure fun T'' le' _ => .optional fun x hx => (le.trans le').lives (found x hx)
  | peek key =>
    refine .heap fun T _ fits => .pure fun T' le _ => .optional fun x hx => le.lives ?_
    obtain ⟨e, he, rfl⟩ := Option.map_eq_some_iff.mp hx
    exact fits.whole.lookup? he
  | set key v =>
    refine (v.alike_eval spared T₀).bindOne fun T x le value => ?_
    exact alike_writing (le.lives lives) fun T' le' => Heap.preserves_set _ m key (le'.lives value)
  | attach key v =>
    refine (v.alike_eval spared T₀).bindOne fun T x le value => ?_
    exact alike_writing (le.lives lives) fun T' le' => Heap.preserves_attach _ m key (le'.lives value)
  | define key v =>
    refine (v.alike_eval spared T₀).bindOne fun T x le value => ?_
    refine (Act.alike_onHeap_plain fun T' le' _ =>
      Heap.preserves_define _ m key (le'.lives value)).bind fun _ _ _ _ _ => ?_
    exact .pure fun _ _ _ => .plain rfl
  | info => exact .heap fun T _ _ => .pure fun _ _ _ => .plain rfl
  | keyInfo key => exact .heap fun T _ _ => .pure fun _ _ _ => .plain rfl

end MapOp

namespace ListOp

theorem alike_mutating {l : ListId} (lives : T₀.left.heap.Lives (.list l)) {reply : Reply Value}
    (shown : ∀ v ∈ reply.held.values, T₀.left.heap.Lives v) {held : List Value}
    (kept : ∀ v ∈ held, T₀.left.heap.Lives v) {operate : Heap → Heap × List WatcherId}
    (preserves : ∀ T, T₀.Le T → T.Fits P → Heap.Preserves T.left.heap (operate T.left.heap).1) :
    Act.Alike P T₀ (mutating l reply held operate) (mutating l reply held operate)
      fun T => Outcomes P T := by
  unfold mutating
  refine (Act.alike_onHeap_plain preserves).bindPlain fun T owed le => ?_
  refine .pure fun T' le' _ => ⟨rfl, fun v hv => (le.trans le').lives (shown v hv), .turns _,
    holds_values (List.forall_mem_cons.mpr ⟨(le.trans le').lives lives, fun v hv => ?_⟩)⟩
  exact (le.trans le').lives (kept v hv)

theorem alike_perform {l : ListId} (lives : T₀.left.heap.Lives (.list l)) (op : ListOp)
    (spared : P.SparesAll op.names) :
    Act.Alike P T₀ (op.perform l) (op.perform l) fun T => Outcomes P T := by
  -- an operation that only takes items away or reorders them
  have shuffles {T : Pair} (fits : T.Fits P) {items : List Value}
      (among : ∀ v ∈ items, v ∈ T.left.heap.items l) :
      Heap.Preserves T.left.heap (T.left.heap.mutate l items []).1 :=
    fits.whole.preserves_mutate l (fun v hv => .inl (among v hv)) (by simp)
  have item {T : Pair} (fits : T.Fits P) {x : Option Value}
      (among : ∀ v, x = some v → v ∈ T.left.heap.items l) :
      ∀ v ∈ (Reply.ofOption x).held.values, T.left.heap.Lives v := by
    cases x with
    | none => nofun
    | some v => exact List.forall_mem_singleton.mpr (fits.whole.items (among v rfl))
  cases op with
  | push v =>
    refine (v.alike_eval spared T₀).bindOne fun T x le value => ?_
    refine .heap fun T' le' _ => alike_mutating ((le.trans le').lives lives) (shows_nothing rfl)
      (by simp)
      fun T'' le'' fits => fits.whole.preserves_mutate l (fun v hv => ?_)
        (List.forall_mem_singleton.mpr ((le'.trans le'').lives value))
    exact List.mem_append.mp hv
  | unshift v =>
    refine (v.alike_eval spared T₀).bindOne fun T x le value => ?_
    refine .heap fun T' le' _ => alike_mutating ((le.trans le').lives lives) (shows_nothing rfl)
      (by simp)
      fun T'' le'' fits => fits.whole.preserves_mutate l (fun v hv => ?_)
        (List.forall_mem_singleton.mpr ((le'.trans le'').lives value))
    exact (List.mem_cons.mp hv).symm.imp_right fun e => List.mem_singleton.mpr e
  | pop =>
    refine .heap fun T le fits => alike_mutating (le.lives lives)
      (item fits fun v hv => List.mem_of_getLast? hv) (by simp) fun T' _ fits' => shuffles fits' ?_
    exact fun v hv => List.mem_of_mem_dropLast hv
  | shift =>
    refine .heap fun T le fits => alike_mutating (le.lives lives)
      (item fits fun v hv => List.mem_of_head? hv) (by simp) fun T' _ fits' => shuffles fits' ?_
    exact fun v hv => List.mem_of_mem_tail hv
  | sort =>
    refine alike_mutating lives (shows_nothing rfl) (by simp) fun T _ fits => shuffles fits fun v hv => ?_
    exact (List.mergeSort_perm _ _).subset hv
  | sortBy comparator =>
    refine alike_mutating lives (shows_nothing rfl) (by simp) fun T _ fits => shuffles fits fun v hv => ?_
    exact (List.mergeSort_perm _ _).subset hv
  | reverse =>
    refine alike_mutating lives (shows_nothing rfl) (by simp) fun T _ fits => shuffles fits fun v hv => ?_
    exact List.mem_reverse.mp hv
  | splice start count inserted =>
    refine (Term.alike_evalAll inserted spared T₀).bindEqual fun T xs le values => ?_
    refine .heap fun T' le' fits' => alike_mutating ((le.trans le').lives lives) ?_
      (fun v hv => le'.lives (values v hv)) fun T'' le'' fits => ?_
    · exact fun v hv => fits'.whole.items (List.mem_of_mem_take (List.mem_of_mem_drop hv))
    · refine fits.whole.preserves_mutate l (fun v hv => ?_)
        fun v hv => (le'.trans le'').lives (values v hv)
      simp only [List.mem_append] at hv
      rcases hv with (hv | hv) | hv
      · exact .inl (List.mem_of_mem_take hv)
      · exact .inr hv
      · exact .inl (List.mem_of_mem_drop hv)
  | get position =>
    refine .heap fun T _ fits => .pure fun T' le _ => .optional fun x hx => le.lives ?_
    rw [Heap.item?_eq] at hx
    exact fits.whole.items (List.mem_of_getElem? hx)
  | set position v =>
    refine (v.alike_eval spared T₀).bindOne fun T x le value => ?_
    refine (Act.alike_onHeap_plain fun T' le' _ => ?_).bind
      fun _ _ _ _ _ => .pure fun _ _ _ => .plain rfl
    exact Heap.preserves_apply _ (.place l position x) (List.forall_mem_singleton.mpr (le'.lives value))
  | info => exact .heap fun T _ _ => .pure fun _ _ _ => .plain rfl

end ListOp

/-! ## View models -/

namespace ViewModelOp

variable {vm vm' : ViewModel}

theorem alike_writing (same : T₀.ViewModels P vm vm') {target : Option Value}
    (lives : ∀ v ∈ target.toList, T₀.left.heap.Lives v)
    {write write' : World → World × Except PathError (List WatcherId)}
    (writes : ∀ T, T₀.Le T → T.Fits P → (write' T.right).2 = (write T.left).2 ∧
      T.Becomes P (write T.left).1 (write' T.right).1 fun _ => True) :
    Act.Alike P T₀ (writing vm target write) (writing vm' target write') fun T => Outcomes P T := by
  unfold writing
  refine Act.Alike.bind (R := fun T => T.Equal fun _ => []) (Act.alike_onWorld fun T le fits => ?_)
    fun T r r' le equal => ?_
  · obtain ⟨value, becomes⟩ := writes T le fits
    exact becomes.imp fun _ _ _ _ _ _ => Pair.equal_plain.mpr value
  · obtain rfl := Pair.equal_plain.mp equal
    refine (Act.Alike.ofPath _).bindPlain fun T' owed le' => ?_
    have le := le.trans le'
    exact .pure fun T'' le'' _ => ⟨rfl, shows_nothing rfl, .turns _,
      ⟨rfl, fun v hv => (le.trans le'').lives (lives v hv), .cons (same.mono (le.trans le'')) .nil⟩⟩

theorem alike_perform (same : T₀.ViewModels P vm vm') (op : ViewModelOp) (spared : P.SparesAll op.names)
    (apart : ∀ name t, op = .mount name t → P.table ≠ some vm.table) :
    Act.Alike P T₀ (op.perform vm) (op.perform vm') fun T => Outcomes P T := by
  have table : vm'.table = vm.table := same.table.symm
  cases op with
  | clone name =>
    refine (Act.alike_modify fun T s t le twins => ?_).bind fun _ _ _ _ _ => .pure fun _ _ _ => .plain rfl
    exact twins.putViewModel (spared name (List.mem_singleton_self _)) (same.mono le)
  | same other =>
    refine (Act.alike_viewModel (spared other (List.mem_singleton_self _))).bind fun T a a' _ same' => ?_
    rw [table, ← same'.table]
    exact .pure fun _ _ _ => .plain rfl
  | mount name t =>
    refine (t.alike_evalMap spared).bindEqual fun T m le lives => ?_
    refine Act.Alike.bind (R := fun _ _ _ => True) (Act.alike_onWorld fun T' le' fits => ?_)
      fun _ _ _ _ _ => .pure fun _ _ _ => .plain rfl
    exact fits.mount (same.mono (le.trans le')) (apart name t rfl) name
      (le'.lives (List.forall_mem_singleton.mp lives))
  | container name =>
    refine .world fun T _ fits => ?_
    rw [table, fits.container?]
    refine .pure fun T' le _ => .optional fun x hx => le.lives ?_
    obtain ⟨m, hm, rfl⟩ := Option.map_eq_some_iff.mp hx
    exact World.lives_container hm
  | data =>
    refine .world fun T _ fits => ?_
    rw [table, fits.container?]
    refine .pure fun T' le _ => .optional fun x hx => le.lives ?_
    obtain ⟨m, hm, rfl⟩ := Option.map_eq_some_iff.mp hx
    exact World.lives_container hm
  | flatten name =>
    refine Act.Alike.bind (R := fun T => T.Equal fun _ => []) (Act.alike_onWorld fun T _ fits => ?_)
      fun T n n' _ equal => ?_
    · rw [table]
      obtain ⟨value, becomes⟩ := fits.flatten vm.table name (Q := fun _ => True) fun _ _ => trivial
      exact becomes.imp fun _ _ _ _ _ _ => Pair.equal_plain.mpr value
    · obtain rfl := Pair.equal_plain.mp equal
      exact .pure fun _ _ _ => .plain rfl
  | properties =>
    refine .world fun T _ fits => ?_
    rw [table, fits.propertyNames]
    exact .pure fun _ _ _ => .plain rfl
  | has key =>
    refine .world fun T _ fits => ?_
    rw [table, fits.right_eq]
    exact .pure fun _ _ _ => .plain rfl
  | get key =>
    refine (Act.alike_get same.table key).bindOne fun T v _ lives => ?_
    exact .pure fun _ le _ => .value (le.lives lives)
  | set key v =>
    refine (v.alike_eval spared T₀).bindOne fun T x le lives => ?_
    refine .world fun T' le' fits => ?_
    rw [table, fits.target?]
    refine alike_writing (same.mono (le.trans le')) (fun x hx => ?_) fun T'' le'' fits =>
      fits.setProperty vm.table key ((le'.trans le'').lives lives)
    obtain ⟨m, hm, rfl⟩ := Option.map_eq_some_iff.mp (Option.mem_toList.mp hx)
    exact World.lives_target hm
  | evaluate expression =>
    refine (Act.alike_parse expression).bindPlain fun T path _ => ?_
    refine (Act.alike_evaluate same.table path).bindOne fun T v _ lives => ?_
    exact .pure fun _ le _ => .value (le.lives lives)
  | assign expression v =>
    refine (Act.alike_parse expression).bindPlain fun T path le => ?_
    refine (v.alike_eval spared T).bindOne fun T' x le' lives => ?_
    refine .world fun T'' le'' fits => ?_
    rw [table, fits.assignTarget?]
    refine alike_writing (same.mono ((le.trans le').trans le'')) (fun x hx => ?_) fun T₃ le₃ fits =>
      fits.assign vm.table path ((le''.trans le₃).lives lives)
    exact fits.lives_assignTarget (Option.mem_toList.mp hx)
  | «alias» method name =>
    refine .world fun T _ fits => ?_
    rw [table, fits.method?]
    rcases T.left.method? vm.table method with _ | script
    · exact .pure fun _ _ _ => .plain rfl
    · refine Act.Alike.bind (R := fun _ _ _ => True) (Act.alike_onWorld fun T' _ fits' => ?_)
        fun _ _ _ _ _ => .pure fun _ _ _ => .plain rfl
      exact fits'.putMethod vm.table name script fun _ _ => trivial
  | call method v =>
    refine (v.alike_eval spared T₀).bindOne fun T x le lives => ?_
    refine .world fun T' le' fits => ?_
    rw [table, fits.method?]
    rcases T'.left.method? vm.table method with _ | script
    · exact .pure fun _ _ _ => .plain rfl
    · refine .pure fun T'' le'' _ => ⟨rfl, shows_nothing rfl, .call script ⟨rfl, ?_, .some ?_⟩,
        holds_nothing⟩
      · rintro _ ⟨⟩
        exact (le'.trans le'').lives lives
      · exact same.mono ((le.trans le').trans le'')
  | link name =>
    refine (Act.alike_modify fun T s t le twins => ?_).bind fun _ _ _ _ _ => .pure fun _ _ _ => .plain rfl
    exact { twins with links := twins.links.put name (same.links.mono le) }

end ViewModelOp

theorem Origin.alike_make (origin : Origin) (spared : P.SparesAll origin.names) :
    Act.Alike P T₀ origin.make origin.make fun T => T.ViewModels P := by
  cases origin with
  | nothing => exact Act.alike_onWorld fun T _ fits => fits.newViewModel.imp fun _ _ _ _ _ h => h.1
  | mounted t =>
    refine (t.alike_evalMap spared).bindEqual fun T m le lives => ?_
    refine Act.alike_onWorld fun T' le' fits => ?_
    refine fits.newViewModel.bind fun T₁ le₁ fits₁ hl hr made => ?_
    have mounted := fits₁.mount made.1 made.2 modelName
      ((le'.trans le₁).lives (List.forall_mem_singleton.mp lives))
    rw [hl, hr] at mounted
    exact mounted.imp fun T₂ le₂ _ _ _ _ => made.1.mono le₂
  | observed t =>
    refine (t.alike_evalMap spared).bindEqual fun T m le lives => ?_
    refine (Act.alike_onHeap_plain fun T' _ _ => ?_).bind
      fun T' _ _ le' _ => Act.alike_onWorld fun T'' le'' fits =>
        fits.viewModelOf ((le'.trans le'').lives (List.forall_mem_singleton.mp lives))
    exact T'.left.heap.preserves_apply (.observe (.map m)) (by simp [Edit.values])

/-! ## Watchers and registries -/

theorem WatcherOp.alike_perform (id : WatcherId) (op : WatcherOp) :
    Act.Alike P T₀ (op.perform id) (op.perform id) fun T => Outcomes P T := by
  refine .world fun T _ fits => ?_
  have same := fits.watcher? id
  generalize T.left.watcher? id = x, T.right.watcher? id = y at same
  cases same with
  | none => exact .fail
  | @some watcher watcher' same =>
    cases op with
    | value =>
      refine Act.Alike.bind (R := fun T => T.Equal fun v => [v]) (Act.alike_onWorld fun T' _ fits' => ?_)
        fun T' v v' _ equal => ?_
      · rw [World.watched_eq, World.watched_eq, World.valueOf, World.valueOf, ← same.links.table,
          ← same.path, fits'.readPath]
        exact fits'.rests (Pair.equal_one.mpr ⟨rfl, fits'.lives_readPath _ _⟩)
      · obtain ⟨rfl, lives⟩ := Pair.equal_one.mp equal
        exact .pure fun _ le _ => .value (le.lives lives)
    | path =>
      dsimp only
      rw [← same.path]
      exact .pure fun _ _ _ => .plain rfl
    | update => exact .pure fun _ _ _ => ⟨rfl, shows_nothing rfl, .turns _, holds_nothing⟩

namespace RegistryOp

theorem alike_perform {r : Registry} (lives : ∀ v ∈ (owner r).values, T₀.left.heap.Lives v)
    (op : RegistryOp) :
    Act.Alike P T₀ (op.perform r) (op.perform r) fun T => Outcomes P T := by
  cases op with
  | register watcher =>
    refine (Act.alike_watcher watcher).bindPlain fun T id _ => ?_
    refine .heap fun T' _ _ => ?_
    refine (Act.alike_onHeap_plain fun T'' _ _ => ?_).bind
      fun _ _ _ _ _ => .pure fun _ _ _ => .plain rfl
    exact T''.left.heap.preserves_apply (.register id r) (by simp [Edit.values])
  | depend =>
    refine Act.Alike.bind (R := fun _ _ _ => True) (Act.alike_onWorld fun T _ fits => ?_)
      fun _ _ _ _ _ => .heap fun _ _ _ => .pure fun _ _ _ => .plain rfl
    simp only [fits.depend]
    exact fits.rests trivial
  | notify =>
    refine .heap fun T le _ => .pure fun T' le' _ => ⟨rfl, shows_nothing rfl, .turns _, ?_⟩
    have none : (owner r).viewModels = [] := by cases r <;> rfl
    exact ⟨rfl, fun v hv => (le.trans le').lives (lives v hv), none ▸ .nil⟩
  | info watcher =>
    refine .heap fun T _ _ => ?_
    dsimp only
    cases watcher with
    | none =>
      exact Act.Alike.bind (R := fun T => T.Equal fun _ => [])
        (.pure fun _ _ _ => Pair.equal_plain.mpr rfl) fun _ x x' _ equal => by
          obtain rfl := Pair.equal_plain.mp equal
          exact .pure fun _ _ _ => .plain rfl
    | some name =>
      refine (Act.alike_watcher name).bindPlain fun T' id _ => ?_
      exact .pure fun _ _ _ => .plain rfl

end RegistryOp

end DataBinding
