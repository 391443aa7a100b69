-- Which actions leave the properties of view models as they are. Mounting, following a link, a new view
-- model or a new method change the tables, and none of them changes a property; neither does any term, any
-- operation on a map or a list, any read and any write. The only function that does is to flatten.
import DataBinding.Proofs.Session.Calls

namespace DataBinding

/-! ## Worlds -/

/-- No property has come, and none has changed its container. -/
def World.SameProperties (w w' : World) : Prop :=
  ∀ t, (w'.table t).properties = (w.table t).properties

namespace World

variable {w w₁ w₂ : World}

theorem SameProperties.refl (w : World) : w.SameProperties w := fun _ => rfl

theorem SameProperties.trans (a : w.SameProperties w₁) (b : w₁.SameProperties w₂) :
    w.SameProperties w₂ := fun t => (b t).trans (a t)

theorem SameProperties.of_tables (tables : w₁.tables = w.tables) : w.SameProperties w₁ := by
  intro t
  rw [table, table, tables]

theorem table_changeTable (w : World) (t other : TableId) (f : Table → Table) :
    (w.changeTable t f).table other =
      if other = t ∧ t.index < w.tables.size then f (w.table other) else w.table other := by
  simp only [table, changeTable, Array.getElem?_modify]
  by_cases same : t.index = other.index
  · obtain rfl : other = t := congrArg TableId.mk same.symm
    by_cases lt : other.index < w.tables.size <;> simp [lt]
  · have ne : other ≠ t := fun e => same (congrArg TableId.index e.symm)
    simp [same, ne]

theorem sameProperties_changeTable (w : World) (t : TableId) {f : Table → Table}
    (hf : ∀ table, (f table).properties = table.properties) :
    w.SameProperties (w.changeTable t f) := by
  intro other
  rw [table_changeTable]
  split
  · exact hf _
  · rfl

theorem sameProperties_newViewModel (w : World) : w.SameProperties w.newViewModel.1 := by
  intro t
  simp only [table, newViewModel, Array.getElem?_push]
  split
  · next e => simp [e, Table.empty]
  · rfl

theorem sameProperties_mount (w : World) (vm : ViewModel) (name : String) (m : MapId) :
    w.SameProperties (w.mount vm name m) :=
  sameProperties_changeTable { w with mounts := _ } vm.table fun _ => rfl

theorem sameProperties_putMethod (w : World) (t : TableId) (name : String) (script : ScriptId) :
    w.SameProperties (w.putMethod t name script) := w.sameProperties_changeTable t fun _ => rfl

theorem sameProperties_follow (w : World) (l : Link) : w.SameProperties (w.follow l).1 := by
  unfold follow
  split
  · exact .refl w
  · exact .of_tables rfl

theorem tables_depend (w : World) (crossed : List Registry) :
    (w.depend crossed).tables = w.tables := by
  unfold depend
  split <;> rfl

theorem tables_setProperty (w : World) (t : TableId) (name : String) (v : Value) :
    (w.setProperty t name v).1.tables = w.tables := by
  unfold setProperty
  split <;> rfl

theorem tables_assignIn (w : World) (parent : Value) (path : KeyPath) (v : Value) :
    (w.assignIn parent path v).1.tables = w.tables := by
  unfold assignIn
  split
  · rfl
  · split <;> rfl
  · rfl

theorem tables_assign (w : World) (t : TableId) (path : KeyPath) (v : Value) :
    (w.assign t path v).1.tables = w.tables := by
  unfold assign
  split
  · exact w.tables_setProperty t path.head v
  · dsimp only
    split
    · exact w.tables_depend _
    · exact (tables_assignIn _ _ path v).trans (w.tables_depend _)

end World

/-! ## Actions -/

namespace Act

variable {α β : Type}

def KeepsProperties (a : Act α) : Prop :=
  ∀ (c : Context) (s : Session), s.world.SameProperties (a.on c s).2.world

namespace KeepsProperties

theorem pure (x : α) : KeepsProperties (pure x : Act α) := fun _ s => .refl s.world

theorem fail (f : Fault) : KeepsProperties (fail f : Act α) := fun _ s => .refl s.world

theorem bind {a : Act α} {f : α → Act β} (ha : KeepsProperties a)
    (hf : ∀ x, KeepsProperties (f x)) : KeepsProperties (a >>= f) := by
  intro c s
  have first := ha c s
  rw [on_bind]
  rcases hr : a.on c s with ⟨_ | x, s'⟩ <;> rw [hr] at first
  · exact first
  · exact first.trans (hf x c s')

/-- An action that leaves the world alone. -/
theorem still {a : Act α} (same : ∀ c s, (a.on c s).2.world = s.world) : KeepsProperties a :=
  fun c s => .of_tables (congrArg World.tables (same c s))

theorem onWorld {f : World → World × α} (hf : ∀ w : World, w.SameProperties (f w).1) :
    KeepsProperties (onWorld f) := fun _ s => hf s.world

theorem onHeap (f : Heap → Heap × α) : KeepsProperties (onHeap f) := onWorld fun _ => .of_tables rfl

theorem onPage (f : Page Response → Page Response × α) : KeepsProperties (onPage f) :=
  onWorld fun _ => .of_tables rfl

/-- A tracked read. -/
theorem depend (crossed : World → List Registry) (x : World → α) :
    KeepsProperties (Act.onWorld fun w => (w.depend (crossed w), x w)) :=
  onWorld fun w => .of_tables (w.tables_depend _)

end KeepsProperties

theorem keepsProperties_get : KeepsProperties get := .still fun _ _ => rfl

theorem keepsProperties_read : KeepsProperties read := .still fun _ _ => rfl

theorem keepsProperties_world : KeepsProperties world := .still fun _ _ => rfl

theorem keepsProperties_heap : KeepsProperties heap := .still fun _ _ => rfl

theorem keepsProperties_page : KeepsProperties page := .still fun _ _ => rfl

theorem keepsProperties_found (what name : String) (x : Option α) :
    KeepsProperties (found what name x) := by
  cases x with
  | none => exact .fail _
  | some a => exact .pure a

theorem keepsProperties_ofPath (x : Except PathError α) : KeepsProperties (ofPath x) := by
  cases x with
  | ok a => exact .pure a
  | error cause => exact .fail _

theorem keepsProperties_parse (expression : String) : KeepsProperties (parse expression) :=
  keepsProperties_ofPath _

theorem keepsProperties_viewModel (name : String) : KeepsProperties (viewModel name) := by
  unfold viewModel
  split
  · exact keepsProperties_read.bind fun _ => keepsProperties_found _ _ _
  · exact keepsProperties_get.bind fun _ => keepsProperties_found _ _ _

theorem keepsProperties_watcher (name : String) : KeepsProperties (watcher name) :=
  keepsProperties_get.bind fun _ => keepsProperties_found _ _ _

theorem keepsProperties_link (name : String) : KeepsProperties (link name) :=
  keepsProperties_get.bind fun _ => keepsProperties_found _ _ _

theorem keepsProperties_node (name : String) : KeepsProperties (node name) :=
  keepsProperties_get.bind fun _ => keepsProperties_found _ _ _

theorem keepsProperties_wiring (name : String) : KeepsProperties (wiring name) :=
  keepsProperties_get.bind fun _ => keepsProperties_found _ _ _

theorem keepsProperties_marks (term : MarksTerm) : KeepsProperties (marks term) := by
  unfold marks
  split
  · exact .pure _
  · split
    · exact .pure _
    · exact .fail _

theorem keepsProperties_nameNode (name : Option String) (n : NodeId) :
    KeepsProperties (nameNode name n) := by
  unfold nameNode
  split
  · exact .pure _
  · exact .still fun _ _ => rfl

theorem keepsProperties_newScript (caller : Caller) (tag : String) (steps : List Step)
    (limit : Option Nat) : KeepsProperties (newScript caller tag steps limit) :=
  .still fun _ _ => rfl

theorem keepsProperties_mapM {f : α → Act β} (hf : ∀ a, KeepsProperties (f a)) (as : List α) :
    KeepsProperties (as.mapM f) := by
  induction as with
  | nil => exact .pure _
  | cons a rest ih =>
    rw [List.mapM_cons]
    exact (hf a).bind fun _ => ih.bind fun _ => .pure _

end Act

open Act

/-! ## Terms -/

theorem keepsProperties_follow (v : Value) (segments : List Segment) :
    KeepsProperties (follow v segments) := by
  induction segments generalizing v with
  | nil => exact .pure v
  | cons segment rest ih =>
    unfold follow
    refine keepsProperties_heap.bind fun h => ?_
    dsimp only
    split
    · exact ih _
    · exact .fail _

namespace Term

theorem keepsProperties_wrap {inside : Value → Act Value} (hi : ∀ v, KeepsProperties (inside v))
    (levels : Nat) (v : Value) : KeepsProperties (wrap inside levels v) := by
  induction levels generalizing v with
  | zero => exact .pure v
  | succ levels ih => exact (hi v).bind ih

mutual

/-- A term makes containers and reads. -/
theorem keepsProperties_eval (t : Term) : KeepsProperties t.eval := by
  match t with
  | .document d =>
    unfold eval
    exact .onHeap _
  | .array items =>
    unfold eval
    exact (keepsProperties_evalAll items).bind fun _ => .onHeap _
  | .object entries =>
    unfold eval
    exact (keepsProperties_evalEntries entries).bind fun _ => .onHeap _
  | .handle name segments =>
    unfold eval
    exact keepsProperties_get.bind fun _ =>
      (keepsProperties_found _ _ _).bind (keepsProperties_follow · segments)
  | .argument segments =>
    unfold eval
    exact keepsProperties_read.bind fun _ =>
      (keepsProperties_found _ _ _).bind (keepsProperties_follow · segments)
  | .property viewModel name =>
    unfold eval
    exact (keepsProperties_viewModel viewModel).bind fun vm => .depend _ _
  | .evaluation viewModel expression =>
    unfold eval
    exact (keepsProperties_viewModel viewModel).bind fun vm =>
      (keepsProperties_parse expression).bind fun path => .depend _ _
  | .sum t n =>
    unfold eval
    exact (keepsProperties_eval t).bind fun _ => .pure _
  | .joined parts =>
    unfold eval
    exact (keepsProperties_evalAll parts).bind fun _ => keepsProperties_heap.bind fun _ => .pure _
  | .nestedMaps levels t =>
    unfold eval
    exact (keepsProperties_eval t).bind (keepsProperties_wrap (fun _ => .onHeap _) levels)
  | .nestedLists levels t =>
    unfold eval
    exact (keepsProperties_eval t).bind (keepsProperties_wrap (fun _ => .onHeap _) levels)

theorem keepsProperties_evalAll (ts : List Term) : KeepsProperties (evalAll ts) := by
  match ts with
  | [] =>
    unfold evalAll
    exact .pure _
  | t :: rest =>
    unfold evalAll
    exact (keepsProperties_eval t).bind fun _ =>
      (keepsProperties_evalAll rest).bind fun _ => .pure _

theorem keepsProperties_evalEntries (es : List (String × Term)) :
    KeepsProperties (evalEntries es) := by
  match es with
  | [] =>
    unfold evalEntries
    exact .pure _
  | (key, t) :: rest =>
    unfold evalEntries
    exact (keepsProperties_eval t).bind fun _ =>
      (keepsProperties_evalEntries rest).bind fun _ => .pure _

end

theorem keepsProperties_evalMap (t : Term) : KeepsProperties t.evalMap := by
  unfold evalMap
  refine (keepsProperties_eval t).bind fun v => ?_
  split
  · exact .pure _
  · exact .fail _

theorem keepsProperties_evalList (t : Term) : KeepsProperties t.evalList := by
  unfold evalList
  refine (keepsProperties_eval t).bind fun v => ?_
  split
  · exact .pure _
  · exact .fail _

end Term

theorem RegistryTerm.keepsProperties_eval (d : RegistryTerm) : KeepsProperties d.eval := by
  unfold RegistryTerm.eval
  cases d
  case' handle name =>
    refine keepsProperties_get.bind fun _ => (keepsProperties_found _ _ _).bind fun _ => ?_
  case' slot t key => refine t.keepsProperties_evalMap.bind fun _ => ?_
  case' list t => refine t.keepsProperties_evalList.bind fun _ => ?_
  -- whatever registry the term names, it is looked up
  all_goals
    refine (KeepsProperties.pure _).bind fun _ => keepsProperties_heap.bind fun h => ?_
    split
    · exact .pure _
    · exact .fail _

/-! ## Operations on the model -/

theorem MapOp.keepsProperties (m : MapId) (op : MapOp) : KeepsProperties (op.perform m) := by
  cases op with
  | get key =>
    refine keepsProperties_heap.bind fun h => ?_
    exact (KeepsProperties.depend (fun _ => _) _).bind fun _ => .pure _
  | peek key | info | keyInfo key => exact keepsProperties_heap.bind fun _ => .pure _
  | set key v | attach key v | define key v =>
    exact v.keepsProperties_eval.bind fun _ => (KeepsProperties.onHeap _).bind fun _ => .pure _

theorem ListOp.keepsProperties (l : ListId) (op : ListOp) : KeepsProperties (op.perform l) := by
  have mutating {reply : Reply Value} {held : List Value} {f : Heap → Heap × List WatcherId} :
      KeepsProperties (mutating l reply held f) := (KeepsProperties.onHeap _).bind fun _ => .pure _
  cases op with
  | push v | unshift v =>
    exact v.keepsProperties_eval.bind fun _ => keepsProperties_heap.bind fun _ => mutating
  | pop | shift => exact keepsProperties_heap.bind fun _ => mutating
  | sort | sortBy _ | reverse => exact mutating
  | splice start count inserted =>
    exact (Term.keepsProperties_evalAll inserted).bind fun _ =>
      keepsProperties_heap.bind fun _ => mutating
  | set position v =>
    exact v.keepsProperties_eval.bind fun _ => (KeepsProperties.onHeap _).bind fun _ => .pure _
  | get position | info => exact keepsProperties_heap.bind fun _ => .pure _

end DataBinding
