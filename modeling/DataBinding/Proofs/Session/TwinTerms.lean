-- Terms side by side. A term reads no handle but those that it names. If none of them was let go of, it
-- makes the same containers in both sessions and has the same live value.
import DataBinding.Proofs.Session.Twins

namespace DataBinding

/-! ## The names in a term -/

namespace Term

mutual

/-- The handles that a term reads. -/
def names : Term → List String
  | .document _ | .argument _ => []
  | .array items | .joined items => namesAll items
  | .object entries => namesEntries entries
  | .handle name _ => [name]
  | .property viewModel _ | .evaluation viewModel _ => [viewModel]
  | .sum t _ | .nestedMaps _ t | .nestedLists _ t => names t

def namesAll : List Term → List String
  | [] => []
  | t :: rest => names t ++ namesAll rest

def namesEntries : List (String × Term) → List String
  | [] => []
  | (_, t) :: rest => names t ++ namesEntries rest

end

end Term

def RegistryTerm.names : RegistryTerm → List String
  | .handle _ => []
  | .slot t _ | .list t => t.names

/-- None of the names is one of those that were let go of. -/
def Parting.SparesAll (P : Parting) (names : List String) : Prop := ∀ name ∈ names, P.Spares name

instance (P : Parting) (names : List String) : Decidable (P.SparesAll names) :=
  inferInstanceAs (Decidable (∀ name ∈ names, P.Spares name))

variable {P : Parting} {T T₀ : Pair}

namespace Parting

theorem sparesAll_append {a b : List String} :
    P.SparesAll (a ++ b) ↔ P.SparesAll a ∧ P.SparesAll b := List.forall_mem_append

theorem sparesAll_cons {name : String} {rest : List String} :
    P.SparesAll (name :: rest) ↔ P.Spares name ∧ P.SparesAll rest := List.forall_mem_cons

end Parting

/-! ## Reads -/

namespace Pair.Fits

/-- A tracked read of a property changes neither world. -/
theorem get (fits : T.Fits P) (t : TableId) (name : String) :
    T.left.get t name = (T.left, (T.left.readProperty t name).value) ∧
      T.right.get t name = (T.right, (T.left.readProperty t name).value) := by
  simp only [World.get, fits.readProperty, fits.depend, and_self]

theorem evaluate (fits : T.Fits P) (t : TableId) (path : KeyPath) :
    T.left.evaluate t path = (T.left, (T.left.readPath t path).value) ∧
      T.right.evaluate t path = (T.right, (T.left.readPath t path).value) := by
  simp only [World.evaluate, fits.readPath, fits.depend, and_self]

end Pair.Fits

namespace Act

variable {vm vm' : ViewModel}

theorem alike_get (table : vm.table = vm'.table) (name : String) :
    Alike P T₀ (onWorld (·.get vm.table name)) (onWorld (·.get vm'.table name))
      fun T => T.Equal fun v => [v] := by
  refine alike_onWorld fun T le fits => ?_
  rw [← table, (fits.get vm.table name).1, (fits.get vm.table name).2]
  exact fits.rests (Pair.equal_one.mpr ⟨rfl, fits.lives_readProperty _ _⟩)

theorem alike_evaluate (table : vm.table = vm'.table) (path : KeyPath) :
    Alike P T₀ (onWorld (·.evaluate vm.table path)) (onWorld (·.evaluate vm'.table path))
      fun T => T.Equal fun v => [v] := by
  refine alike_onWorld fun T le fits => ?_
  rw [← table, (fits.evaluate vm.table path).1, (fits.evaluate vm.table path).2]
  exact fits.rests (Pair.equal_one.mpr ⟨rfl, fits.lives_readPath _ _⟩)

end Act

/-- What segments lead to is the same and live. -/
theorem alike_follow {v : Value} (lives : T₀.left.heap.Lives v) (segments : List Segment) :
    Act.Alike P T₀ (follow v segments) (follow v segments) fun T => T.Equal fun v => [v] := by
  induction segments generalizing v T₀ with
  | nil => exact .pure fun T le _ => Pair.equal_one.mpr ⟨rfl, le.lives lives⟩
  | cons segment rest ih =>
    unfold follow
    refine .heap fun T le fits => ?_
    dsimp only
    split
    · rename_i x hx
      refine ih ?_
      split at hx
      · obtain ⟨e, he, rfl⟩ := Option.map_eq_some_iff.mp hx
        exact fits.whole.lookup? he
      · rw [Heap.item?_eq] at hx
        exact fits.whole.items (List.mem_of_getElem? hx)
      · cases hx
    · exact .fail

/-! ## Terms -/

namespace Term

theorem alike_newList {items : List Value} (lives : ∀ v ∈ items, T₀.left.heap.Lives v) :
    Act.Alike P T₀ (newList items) (newList items) fun T => T.Equal fun v => [v] :=
  Act.alike_onHeap fun T le _ =>
    ⟨T.left.heap.preserves_newList fun v hv => le.lives (lives v hv),
      List.forall_mem_singleton.mpr (Heap.lives_newList _ _)⟩

theorem alike_newMap {entries : List (String × Value)}
    (lives : ∀ e ∈ entries, T₀.left.heap.Lives e.2) :
    Act.Alike P T₀ (newMap entries) (newMap entries) fun T => T.Equal fun v => [v] :=
  Act.alike_onHeap fun T le _ =>
    ⟨T.left.heap.preserves_newMap fun e he => le.lives (lives e he),
      List.forall_mem_singleton.mpr (Heap.lives_newMap _ _)⟩

theorem alike_wrap {inside : Value → Act Value} (hi : ∀ T v, T.left.heap.Lives v →
    Act.Alike P T (inside v) (inside v) fun T => T.Equal fun v => [v]) (levels : Nat) {v : Value}
    (lives : T₀.left.heap.Lives v) :
    Act.Alike P T₀ (wrap inside levels v) (wrap inside levels v) fun T => T.Equal fun v => [v] := by
  induction levels generalizing v T₀ with
  | zero => exact .pure fun T le _ => Pair.equal_one.mpr ⟨rfl, le.lives lives⟩
  | succ levels ih =>
    unfold wrap
    refine (hi T₀ v lives).bind fun T x y _ equal => ?_
    obtain ⟨rfl, lives⟩ := Pair.equal_one.mp equal
    exact ih lives

mutual

/-- A term that names no handle that was let go of has the same value on both sides. -/
theorem alike_eval (t : Term) (spared : P.SparesAll t.names) (T₀ : Pair) :
    Act.Alike P T₀ t.eval t.eval fun T => T.Equal fun v => [v] := by
  match t with
  | .document d =>
    unfold eval
    refine Act.alike_onHeap fun T _ _ => ?_
    obtain ⟨preserves, lives⟩ := T.left.heap.preserves_load d
    exact ⟨preserves, List.forall_mem_singleton.mpr lives⟩
  | .array items =>
    unfold eval
    refine (alike_evalAll items spared T₀).bindEqual fun T vs _ lives => ?_
    exact alike_newList lives
  | .object entries =>
    unfold eval
    refine (alike_evalEntries entries spared T₀).bindEqual fun T es _ lives => ?_
    exact alike_newMap (List.forall_mem_map.mp lives)
  | .handle name segments =>
    unfold eval
    refine .get fun T s t _ twins => ?_
    have same := twins.value? (spared name (List.mem_singleton_self _))
    refine (Act.Alike.found (R := fun T => T.Equal fun v => [v]) same
      fun _ _ _ le h => h.mono le).bindOne fun T' v _ lives => ?_
    exact alike_follow lives segments
  | .argument segments =>
    unfold eval
    refine .read fun T c c' _ contexts => ?_
    rw [contexts.argument]
    rcases harg : c.argument with _ | v
    · exact Act.Alike.fail.bind (R := fun _ _ _ => False) fun _ _ _ _ h => h.elim
    · have equal : T.Equal (fun v => [v]) v v := Pair.equal_one.mpr ⟨rfl, contexts.lives v harg⟩
      refine (Act.Alike.pure fun T' le _ => equal.mono le).bind fun T' x y _ equal => ?_
      obtain ⟨rfl, lives⟩ := Pair.equal_one.mp equal
      exact alike_follow lives segments
  | .property viewModel name =>
    unfold eval
    exact (Act.alike_viewModel (spared viewModel (List.mem_singleton_self _))).bind
      fun _ _ _ _ same => Act.alike_get same.table name
  | .evaluation viewModel expression =>
    unfold eval
    refine (Act.alike_viewModel (spared viewModel (List.mem_singleton_self _))).bind
      fun T vm vm' _ same => ?_
    refine (Act.alike_parse expression).bindPlain fun T' path _ => ?_
    exact Act.alike_evaluate same.table path
  | .sum t n =>
    unfold eval
    refine (alike_eval t spared T₀).bindOne fun T v _ _ => ?_
    exact .pure fun T' _ _ => Pair.equal_one.mpr ⟨rfl, Heap.lives_of_scalar _ rfl⟩
  | .joined parts =>
    unfold eval
    refine (alike_evalAll parts spared T₀).bindEqual fun T vs _ _ => ?_
    refine .heap fun T' _ _ => ?_
    exact .pure fun T'' _ _ => Pair.equal_one.mpr ⟨rfl, Heap.lives_of_scalar _ rfl⟩
  | .nestedMaps levels t =>
    unfold eval
    refine (alike_eval t spared T₀).bindOne fun T v _ lives => ?_
    exact alike_wrap (fun T v lives => alike_newMap (List.forall_mem_singleton.mpr lives)) levels lives
  | .nestedLists levels t =>
    unfold eval
    refine (alike_eval t spared T₀).bindOne fun T v _ lives => ?_
    exact alike_wrap (fun T v lives => alike_newList (List.forall_mem_singleton.mpr lives)) levels lives

theorem alike_evalAll (ts : List Term) (spared : P.SparesAll (namesAll ts)) (T₀ : Pair) :
    Act.Alike P T₀ (evalAll ts) (evalAll ts) fun T => T.Equal fun vs => vs := by
  match ts with
  | [] =>
    unfold evalAll
    exact .pure fun _ _ _ => ⟨rfl, by simp⟩
  | t :: rest =>
    obtain ⟨first, others⟩ := Parting.sparesAll_append.mp spared
    unfold evalAll
    refine (alike_eval t first T₀).bindOne fun T v _ lives => ?_
    refine (alike_evalAll rest others T).bindEqual fun T' vs le more => ?_
    exact .pure fun T'' le' _ => ⟨rfl, List.forall_mem_cons.mpr
      ⟨le'.lives (le.lives lives), fun x hx => le'.lives (more x hx)⟩⟩

theorem alike_evalEntries (es : List (String × Term)) (spared : P.SparesAll (namesEntries es))
    (T₀ : Pair) :
    Act.Alike P T₀ (evalEntries es) (evalEntries es) fun T => T.Equal fun es => es.map (·.2) := by
  match es with
  | [] =>
    unfold evalEntries
    exact .pure fun _ _ _ => ⟨rfl, by simp⟩
  | (key, t) :: rest =>
    obtain ⟨first, others⟩ := Parting.sparesAll_append.mp spared
    unfold evalEntries
    refine (alike_eval t first T₀).bindOne fun T v _ lives => ?_
    refine (alike_evalEntries rest others T).bindEqual fun T' vs le more => ?_
    exact .pure fun T'' le' _ => ⟨rfl, List.forall_mem_cons.mpr
      ⟨le'.lives (le.lives lives), fun x hx => le'.lives (more x hx)⟩⟩

end

theorem alike_evalMap (t : Term) (spared : P.SparesAll t.names) :
    Act.Alike P T₀ t.evalMap t.evalMap fun T => T.Equal fun m => [.map m] := by
  unfold evalMap
  refine (alike_eval t spared T₀).bindOne fun T v _ lives => ?_
  split
  · exact .pure fun T' le _ => ⟨rfl, List.forall_mem_singleton.mpr (le.lives lives)⟩
  · exact .fail

theorem alike_evalList (t : Term) (spared : P.SparesAll t.names) :
    Act.Alike P T₀ t.evalList t.evalList fun T => T.Equal fun l => [.list l] := by
  unfold evalList
  refine (alike_eval t spared T₀).bindOne fun T v _ lives => ?_
  split
  · exact .pure fun T' le _ => ⟨rfl, List.forall_mem_singleton.mpr (le.lives lives)⟩
  · exact .fail

end Term

/-- A term names the same registry on both sides, and its container is live. -/
theorem RegistryTerm.alike_eval (d : RegistryTerm) (spared : P.SparesAll d.names) :
    Act.Alike P T₀ d.eval d.eval fun T => T.Equal fun r => (RegistryOp.owner r).values := by
  unfold RegistryTerm.eval
  cases d
  case' handle name =>
    refine .get fun T s t _ twins => ?_
    rw [twins.registries]
    refine (Act.alike_found _ _ _).bindPlain fun T r _ => ?_
    have lives : ∀ v ∈ (RegistryOp.owner (.free r)).values, T.left.heap.Lives v := by
      simp [RegistryOp.owner, Held.nothing]
  case' slot t key =>
    refine (t.alike_evalMap spared).bindEqual fun T m _ lives => ?_
  case' list t =>
    refine (t.alike_evalList spared).bindEqual fun T l _ lives => ?_
  -- whatever registry the term names, it is looked up
  all_goals
    refine Act.Alike.bind (R := fun T => T.Equal fun r => (RegistryOp.owner r).values)
      (.pure fun T' le _ => ⟨rfl, fun v hv => le.lives (lives v hv)⟩) fun T' r r' _ equal => ?_
    obtain ⟨rfl, lives'⟩ := equal
    refine .heap fun T'' le' _ => ?_
    split
    · exact .pure fun T₃ le'' _ => ⟨rfl, fun v hv => (le'.trans le'').lives (lives' v hv)⟩
    · exact .fail

end DataBinding
