-- Two sessions side by side. Their worlds show the same, and their handles belong together, but for
-- handles that the second session has let go of. An action that names none of those does the same in both:
-- it fails with the same fault or has values that belong together. The rules below follow the way an
-- action is put together.
import DataBinding.Proofs.World.PairedCompiling

namespace DataBinding

/-- Whether a name is not one of those that were let go of. -/
def Parting.Spares (P : Parting) (name : String) : Prop := name ∉ P.viewModels ∧ name ∉ P.views

instance (P : Parting) (name : String) : Decidable (P.Spares name) :=
  inferInstanceAs (Decidable (_ ∧ _))

variable {P : Parting} {T T' T₀ : Pair}

namespace Pair

/-- The same on both sides, with live values in it. -/
def Equal {α : Type} (T : Pair) (values : α → List Value) (x y : α) : Prop :=
  y = x ∧ ∀ v ∈ values x, T.left.heap.Lives v

theorem Equal.mono {α : Type} {values : α → List Value} {x y : α} (equal : T.Equal values x y)
    (le : T.Le T') : T'.Equal values x y := ⟨equal.1, fun v hv => le.lives (equal.2 v hv)⟩

theorem equal_one {x y : Value} : T.Equal (fun v => [v]) x y ↔ y = x ∧ T.left.heap.Lives x := by
  simp [Equal]

/-- The same on both sides, with no values in it. -/
theorem equal_plain {α : Type} {x y : α} : T.Equal (fun _ => []) x y ↔ y = x := by
  simp [Equal]

end Pair

/-! ## Sessions -/

/-- Two contexts that belong together. -/
structure Contexts (P : Parting) (T : Pair) (c c' : Context) : Prop where
  argument : c'.argument = c.argument
  lives : ∀ v, c.argument = some v → T.left.heap.Lives v
  viewModel : Option.Rel (T.ViewModels P) c.viewModel c'.viewModel

/-- Two sessions over a pair of worlds. The second one has all handles of the first one but the view
models and the views of the given names. -/
structure Twins (P : Parting) (T : Pair) (s t : Session) : Prop where
  left : s.world = T.left
  right : t.world = T.right
  fits : T.Fits P
  values : t.values = s.values
  lives : ∀ entry ∈ s.values, T.left.heap.Lives entry.2
  viewModels : Beside (T.ViewModels P) (spare P.viewModels s.viewModels) t.viewModels
  links : Beside (T.Links P) s.links t.links
  watchers : t.watchers = s.watchers
  registries : t.registries = s.registries
  wirings : t.wirings = s.wirings
  views : Beside (T.Views P) (spare P.views s.views) t.views
  nodes : t.nodes = s.nodes
  scripts : t.scripts = s.scripts
  log : t.log = s.log
  ownViewModels : ∀ entry ∈ s.viewModels, entry.1 ∈ P.viewModels → T.ownLeft entry.2.mounts
  ownViews : ∀ entry ∈ s.views, entry.1 ∈ P.views →
    T.ownLeft entry.2.viewModel.mounts ∧ P.keeps (.map entry.2.model)

theorem Contexts.mono {c c' : Context} (same : Contexts P T c c') (le : T.Le T') :
    Contexts P T' c c' :=
  ⟨same.argument, fun v hv => le.lives (same.lives v hv), rel_mono same.viewModel fun _ _ h => h.mono le⟩

theorem contexts_outside : Contexts P T .outside .outside := ⟨rfl, fun _ h => (nomatch h), .none⟩

namespace Twins

variable {s t : Session}

/-- Two sessions after a change of both worlds. -/
theorem onWorld (twins : Twins P T s t) (le : T.Le T') (fits : T'.Fits P) :
    Twins P T' { s with world := T'.left } { t with world := T'.right } where
  left := rfl
  right := rfl
  fits := fits
  values := twins.values
  lives := fun entry h => le.lives (twins.lives entry h)
  viewModels := twins.viewModels.mono fun _ _ h => h.mono le
  links := twins.links.mono fun _ _ h => h.mono le
  watchers := twins.watchers
  registries := twins.registries
  wirings := twins.wirings
  views := twins.views.mono fun _ _ h => h.mono le
  nodes := twins.nodes
  scripts := twins.scripts
  log := twins.log
  ownViewModels := fun entry h own => le.ownLeft _ (twins.ownViewModels entry h own)
  ownViews := fun entry h own =>
    ⟨le.ownLeft _ (twins.ownViews entry h own).1, (twins.ownViews entry h own).2⟩

/-! ## Look-ups -/

theorem viewOf (twins : Twins P T s t) {name : String} (spared : P.Spares name) :
    Option.Rel (T.Views P) (s.views.lookup name) (t.views.lookup name) := by
  have same := twins.views.lookup name
  rwa [lookup_spare spared.2] at same

theorem value? (twins : Twins P T s t) {name : String} (spared : P.Spares name) :
    Option.Rel (T.Equal fun v => [v]) (s.value? name) (t.value? name) := by
  unfold Session.value?
  rw [twins.values]
  rcases hv : s.values.lookup name with _ | v
  · have same := twins.viewOf spared
    rw [Option.none_or, Option.none_or]
    generalize s.views.lookup name = x, t.views.lookup name = y at same
    cases same with
    | none => exact .none
    | some h => exact .some (Pair.equal_one.mpr ⟨congrArg Value.map h.model.symm, h.lives⟩)
  · rw [Option.some_or, Option.some_or]
    exact .some (Pair.equal_one.mpr ⟨rfl, twins.lives _ (mem_of_lookup hv)⟩)

theorem viewModel? (twins : Twins P T s t) {name : String} (spared : P.Spares name) :
    Option.Rel (T.ViewModels P) (s.viewModel? name) (t.viewModel? name) := by
  unfold Session.viewModel?
  have same := twins.viewModels.lookup name
  rw [lookup_spare spared.1] at same
  generalize s.viewModels.lookup name = x, t.viewModels.lookup name = y at same
  cases same with
  | some h => exact .some h
  | none =>
    have same := twins.viewOf spared
    rw [Option.none_or, Option.none_or]
    generalize s.views.lookup name = x, t.views.lookup name = y at same
    cases same with
    | none => exact .none
    | some h => exact .some h.viewModel

theorem wiring? (twins : Twins P T s t) {name : String} (spared : P.Spares name) :
    t.wiring? name = s.wiring? name := by
  unfold Session.wiring?
  rw [twins.wirings]
  have same := twins.viewOf spared
  generalize s.views.lookup name = x, t.views.lookup name = y at same
  cases same with
  | none => rfl
  | some h => simp only [Option.map_some, h.wiring]

end Twins

/-! ## Actions -/

namespace Act

variable {α β γ δ : Type} {R : Pair → α → β → Prop} {S : Pair → γ → δ → Prop}

/-- Two actions do the same to sessions over a pair that has all of `T₀`: the same fault ends them, or
they have values that belong together. -/
def Alike (P : Parting) (T₀ : Pair) (a : Act α) (b : Act β) (R : Pair → α → β → Prop) : Prop :=
  ∀ T c c' s t, T₀.Le T → Twins P T s t → Contexts P T c c' →
    ∃ T', T.Le T' ∧ Twins P T' (a.on c s).2 (b.on c' t).2 ∧
      Agrees (R T') (a.on c s).1 (b.on c' t).1

namespace Alike

theorem pure {x : α} {y : β} (same : ∀ T, T₀.Le T → T.Fits P → R T x y) :
    Alike P T₀ (pure x) (pure y) R :=
  fun T _ _ _ _ le twins _ => ⟨T, .refl T, twins, .ok (same T le twins.fits)⟩

theorem fail {f : Fault} : Alike P T₀ (fail f : Act α) (fail f : Act β) R :=
  fun T _ _ _ _ _ twins _ => ⟨T, .refl T, twins, .error f⟩

theorem bind {a : Act α} {b : Act β} {f : α → Act γ} {g : β → Act δ} (first : Alike P T₀ a b R)
    (second : ∀ T x y, T₀.Le T → R T x y → Alike P T (f x) (g y) S) :
    Alike P T₀ (a >>= f) (b >>= g) S := by
  intro T c c' s t le twins contexts
  obtain ⟨T', le', twins', agrees⟩ := first T c c' s t le twins contexts
  rw [on_bind, on_bind]
  rcases ha : a.on c s with ⟨r, s'⟩
  rcases hb : b.on c' t with ⟨r', t'⟩
  simp only [ha, hb] at twins' agrees ⊢
  cases agrees with
  | error f => exact ⟨T', le', twins', .error f⟩
  | ok same =>
    obtain ⟨T'', le'', twins'', agrees⟩ := second T' _ _ (le.trans le') same T' c c' s' t' (.refl T')
      twins' (contexts.mono le')
    exact ⟨T'', le'.trans le'', twins'', agrees⟩

/-- Both go on with the same, in which all values are live. -/
theorem bindEqual {v : α → List Value} {a b : Act α} {f : α → Act γ} {g : α → Act δ}
    (first : Alike P T₀ a b fun T => T.Equal v)
    (second : ∀ T x, T₀.Le T → (∀ y ∈ v x, T.left.heap.Lives y) → Alike P T (f x) (g x) S) :
    Alike P T₀ (a >>= f) (b >>= g) S := by
  refine first.bind fun T x y le equal => ?_
  obtain ⟨rfl, lives⟩ := equal
  exact second T y le lives

theorem bindOne {a b : Act Value} {f : Value → Act γ} {g : Value → Act δ}
    (first : Alike P T₀ a b fun T => T.Equal fun v => [v])
    (second : ∀ T x, T₀.Le T → T.left.heap.Lives x → Alike P T (f x) (g x) S) :
    Alike P T₀ (a >>= f) (b >>= g) S :=
  first.bindEqual fun T x le lives => second T x le (List.forall_mem_singleton.mp lives)

/-- Both go on with the same, in which no value is named. -/
theorem bindPlain {a b : Act α} {f : α → Act γ} {g : α → Act δ}
    (first : Alike P T₀ a b fun T => T.Equal fun _ => [])
    (second : ∀ T x, T₀.Le T → Alike P T (f x) (g x) S) : Alike P T₀ (a >>= f) (b >>= g) S :=
  first.bindEqual fun T x le _ => second T x le

/-- What is read of the session may be looked at on both sides. -/
theorem get {f : Session → Act γ} {g : Session → Act δ} (next : ∀ T s t, T₀.Le T → Twins P T s t →
    Alike P T (f s) (g t) S) : Alike P T₀ (get >>= f) (get >>= g) S :=
  fun T c c' s t le twins contexts => next T s t le twins T c c' s t (.refl T) twins contexts

theorem read {f : Context → Act γ} {g : Context → Act δ} (next : ∀ T c c', T₀.Le T →
    Contexts P T c c' → Alike P T (f c) (g c') S) : Alike P T₀ (read >>= f) (read >>= g) S :=
  fun T c c' s t le twins contexts => next T c c' le contexts T c c' s t (.refl T) twins contexts

theorem world {f : World → Act γ} {g : World → Act δ} (next : ∀ T, T₀.Le T → T.Fits P →
    Alike P T (f T.left) (g T.right) S) : Alike P T₀ (world >>= f) (world >>= g) S := by
  intro T c c' s t le twins contexts
  have onLeft : (Act.world >>= f).on c s = (f T.left).on c s := congrArg (fun w => (f w).on c s) twins.left
  have onRight : (Act.world >>= g).on c' t = (g T.right).on c' t :=
    congrArg (fun w => (g w).on c' t) twins.right
  rw [onLeft, onRight]
  exact next T le twins.fits T c c' s t (.refl T) twins contexts

theorem heap {f : Heap → Act γ} {g : Heap → Act δ} (next : ∀ T, T₀.Le T → T.Fits P →
    Alike P T (f T.left.heap) (g T.left.heap) S) : Alike P T₀ (heap >>= f) (heap >>= g) S := by
  refine world (f := fun w => f w.heap) (g := fun w => g w.heap) fun T le fits => ?_
  rw [fits.heap]
  exact next T le fits

theorem page {f : Page Response → Act γ} {g : Page Response → Act δ} (next : ∀ T, T₀.Le T →
    T.Fits P → Alike P T (f T.left.page) (g T.right.page) S) :
    Alike P T₀ (page >>= f) (page >>= g) S :=
  world (f := fun w => f w.page) (g := fun w => g w.page) next

/-- What is found under a name on both sides. -/
theorem found {what name : String} {x : Option α} {y : Option β} (same : Option.Rel (R T₀) x y)
    (mono : ∀ T a b, T₀.Le T → R T₀ a b → R T a b) :
    Alike P T₀ (found what name x) (found what name y) R := by
  cases same with
  | none => exact .fail
  | some h => exact .pure fun T le _ => mono T _ _ le h

theorem ofPath (x : Except PathError α) :
    Alike P T₀ (ofPath x) (ofPath x) fun T => T.Equal fun _ => [] := by
  cases x with
  | ok a => exact .pure fun _ _ _ => Pair.equal_plain.mpr rfl
  | error cause => exact .fail

end Alike

theorem alike_parse (expression : String) :
    Alike P T₀ (parse expression) (parse expression) fun T => T.Equal fun _ => [] := .ofPath _

/-! ## Changes -/

theorem alike_onWorld {f : World → World × α} {g : World → World × β} (same : ∀ T, T₀.Le T →
    T.Fits P → T.Becomes P (f T.left).1 (g T.right).1 fun T' => R T' (f T.left).2 (g T.right).2) :
    Alike P T₀ (onWorld f) (onWorld g) R := by
  intro T c c' s t le twins _
  obtain ⟨T', le', hl, hr, fits, value⟩ := same T le twins.fits
  rw [on_onWorld, on_onWorld, twins.left, twins.right, ← hl, ← hr]
  exact ⟨T', le', twins.onWorld le' fits, .ok value⟩

/-- The same operation on both heaps. -/
theorem alike_onHeap {f : Heap → Heap × α} {values : α → List Value} (same : ∀ T, T₀.Le T →
    T.Fits P → Heap.Preserves T.left.heap (f T.left.heap).1 ∧
      ∀ v ∈ values (f T.left.heap).2, (f T.left.heap).1.Lives v) :
    Alike P T₀ (onHeap f) (onHeap f) fun T => T.Equal values := by
  refine alike_onWorld fun T le fits => ?_
  obtain ⟨preserves, lives⟩ := same T le fits
  refine fits.becomes_heap (f := fun h => (f h).1) preserves ?_
  exact ⟨by rw [fits.heap], lives⟩

/-- The same operation on both heaps, whose result names no value. -/
theorem alike_onHeap_plain {f : Heap → Heap × α}
    (same : ∀ T, T₀.Le T → T.Fits P → Heap.Preserves T.left.heap (f T.left.heap).1) :
    Alike P T₀ (onHeap f) (onHeap f) fun T => T.Equal fun _ => [] :=
  alike_onHeap fun T le fits => ⟨same T le fits, by simp⟩

/-- The same operation on both pages. -/
theorem alike_onPage {f : Page Response → Page Response × α}
    (same : ∀ p q : Page Response, q.nodes = p.nodes → (f q).1.nodes = (f p).1.nodes ∧ (f q).2 = (f p).2)
    (listeners : ∀ p, (f p).1.listeners = p.listeners) :
    Alike P T₀ (onPage f) (onPage f) fun T => T.Equal fun _ => [] := by
  refine alike_onWorld fun T le fits => ?_
  obtain ⟨nodes, value⟩ := same _ _ fits.nodes
  exact fits.becomes_page nodes (listeners _) (listeners _) fun _ _ => Pair.equal_plain.mpr value

/-- A change of the handles on both sides. -/
theorem alike_modify {f g : Session → Session} (same : ∀ T s t, T₀.Le T → Twins P T s t →
    Twins P T (f s) (g t)) : Alike P T₀ (modify f) (modify g) fun _ _ _ => True :=
  fun T _ _ s t le twins _ => ⟨T, .refl T, same T s t le twins, .ok trivial⟩

theorem alike_newScript (caller : Caller) (tag : String) (steps : List Step) (limit : Option Nat) :
    Alike P T₀ (newScript caller tag steps limit) (newScript caller tag steps limit)
      fun T => T.Equal fun _ => [] := by
  intro T c c' s t _ twins _
  refine ⟨T, .refl T, { twins with scripts := ?_ }, .ok (Pair.equal_plain.mpr ?_)⟩
  · exact congrArg (Array.push · _) twins.scripts
  · exact congrArg (fun xs : Array Script => ScriptId.mk xs.size) twins.scripts

theorem alike_nameNode (name : Option String) (n : NodeId) :
    Alike P T₀ (nameNode name n) (nameNode name n) fun _ _ _ => True := by
  cases name with
  | none => exact .pure fun _ _ _ => trivial
  | some name => exact alike_modify fun _ _ _ _ twins =>
      { twins with nodes := congrArg (putEntry name n) twins.nodes }

theorem alike_marks (term : MarksTerm) :
    Alike P T₀ (marks term) (marks term) fun T => T.Equal fun _ => [] := by
  unfold marks
  split
  · exact .pure fun _ _ _ => Pair.equal_plain.mpr rfl
  · split
    · exact .pure fun _ _ _ => Pair.equal_plain.mpr rfl
    · exact .fail

/-! ## Handles -/

theorem alike_viewModel {name : String} (spared : P.Spares name) :
    Alike P T₀ (viewModel name) (viewModel name) fun T => T.ViewModels P := by
  unfold viewModel
  split
  · exact .read fun T c c' _ contexts => .found contexts.viewModel fun _ _ _ le h => h.mono le
  · exact .get fun T s t _ twins => .found (twins.viewModel? spared) fun _ _ _ le h => h.mono le

/-- A handle that is the same on both sides. -/
theorem alike_found (what name : String) (x : Option α) :
    Alike P T₀ (found what name x) (found what name x) fun T => T.Equal fun _ => [] := by
  cases x with
  | none => exact .fail
  | some a => exact .pure fun _ _ _ => Pair.equal_plain.mpr rfl

theorem alike_watcher (name : String) :
    Alike P T₀ (watcher name) (watcher name) fun T => T.Equal fun _ => [] := by
  refine .get fun T s t _ twins => ?_
  rw [twins.watchers]
  exact alike_found _ _ _

theorem alike_node (name : String) :
    Alike P T₀ (node name) (node name) fun T => T.Equal fun _ => [] := by
  refine .get fun T s t _ twins => ?_
  rw [twins.nodes]
  exact alike_found _ _ _

theorem alike_link (name : String) : Alike P T₀ (link name) (link name) fun T => T.Links P :=
  .get fun _ _ _ _ twins => .found (twins.links.lookup name) fun _ _ _ le h => h.mono le

theorem alike_wiring {name : String} (spared : P.Spares name) :
    Alike P T₀ (wiring name) (wiring name) fun T => T.Equal fun _ => [] := by
  refine .get fun T s t _ twins => ?_
  rw [twins.wiring? spared]
  exact alike_found _ _ _

end Act

end DataBinding
