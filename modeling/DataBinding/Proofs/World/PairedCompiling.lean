-- Compiling on two worlds that show the same: over view models that belong together, every part of a
-- compilation has the same outcome and makes the same bindings in both worlds, which still show the same
-- after it.
import DataBinding.Proofs.World.Pairs

namespace DataBinding

namespace Compile

variable {α β : Type} {P : Parting} {T₀ : Pair}

/-- Two parts of a compilation do the same: from worlds that show the same and have all of `T₀`, with
the same bindings so far, they come to worlds that show the same, with the same bindings and the same
outcome. -/
def Alike (P : Parting) (T₀ : Pair) (a b : Compile α) : Prop :=
  ∀ T wiring, T₀.Le T → T.Fits P →
    (b.on ⟨T.right, wiring⟩).1 = (a.on ⟨T.left, wiring⟩).1 ∧
    (b.on ⟨T.right, wiring⟩).2.wiring = (a.on ⟨T.left, wiring⟩).2.wiring ∧
    T.Becomes P (a.on ⟨T.left, wiring⟩).2.world (b.on ⟨T.right, wiring⟩).2.world fun _ => True

namespace Alike

theorem pure (x : α) : Alike P T₀ (pure x) (pure x) := fun _ _ _ fits => ⟨rfl, rfl, fits.rests trivial⟩

theorem throw (e : CompileError) : Alike P T₀ (throw e : Compile α) (throw e) :=
  fun _ _ _ fits => ⟨rfl, rfl, fits.rests trivial⟩

theorem bind {a b : Compile α} {f g : α → Compile β} (first : Alike P T₀ a b)
    (second : ∀ x, Alike P T₀ (f x) (g x)) : Alike P T₀ (a >>= f) (b >>= g) := by
  intro T wiring le fits
  obtain ⟨outcome, wirings, becomes⟩ := first T wiring le fits
  rw [on_bind, on_bind]
  rcases ha : a.on ⟨T.left, wiring⟩ with ⟨ra, l, wiring'⟩
  rcases hb : b.on ⟨T.right, wiring⟩ with ⟨rb, r, wiring''⟩
  simp only [ha, hb] at outcome wirings becomes ⊢
  subst outcome wirings
  cases rb with
  | error e => exact ⟨rfl, rfl, becomes⟩
  | ok x =>
    obtain ⟨T', le', rfl, rfl, fits', _⟩ := becomes
    obtain ⟨outcome, wirings, becomes⟩ := second x T' wiring'' (le.trans le') fits'
    obtain ⟨T'', le'', hl, hr, fits'', _⟩ := becomes
    exact ⟨outcome, wirings, T'', le'.trans le'', hl, hr, fits'', trivial⟩

/-- What is read of the draft may be looked at on both sides. -/
theorem get {f g : Draft → Compile β} (next : ∀ T wiring, T₀.Le T → T.Fits P →
    Alike P T (f ⟨T.left, wiring⟩) (g ⟨T.right, wiring⟩)) : Alike P T₀ (get >>= f) (get >>= g) :=
  fun T wiring le fits => next T wiring le fits T wiring (.refl T) fits

theorem onWorld {f g : World → World × α} (same : ∀ T, T₀.Le T → T.Fits P →
    (g T.right).2 = (f T.left).2 ∧ T.Becomes P (f T.left).1 (g T.right).1 fun _ => True) :
    Alike P T₀ (Compile.onWorld f) (Compile.onWorld g) := by
  intro T wiring le fits
  obtain ⟨value, becomes⟩ := same T le fits
  exact ⟨congrArg Except.ok value, rfl, becomes⟩

theorem hold (b : Binding) : Alike P T₀ (Compile.hold b) (Compile.hold b) :=
  fun _ _ _ fits => ⟨rfl, rfl, fits.rests trivial⟩

theorem forM (xs : List α) {f g : α → Compile Unit} (each : ∀ x, Alike P T₀ (f x) (g x)) :
    Alike P T₀ (xs.forM f) (xs.forM g) := by
  induction xs with
  | nil => exact .pure ()
  | cons x rest ih => exact (each x).bind fun _ => ih

theorem mono {T : Pair} {a b : Compile α} (alike : Alike P T₀ a b) (le : T₀.Le T) : Alike P T a b :=
  fun T' wiring le' => alike T' wiring (le.trans le')

end Alike

/-! ## Bindings -/

theorem alike_path (expression origin : String) :
    Alike P T₀ (path expression origin) (path expression origin) := by
  unfold path
  split
  · exact .pure _
  · exact .throw _

variable {vm vm' : ViewModel}

theorem alike_bindValue (same : T₀.ViewModels P vm vm') (n : NodeId) (path : KeyPath)
    (directive : Directive) (kind : BindingKind) :
    Alike P T₀ (bindValue vm n path directive kind) (bindValue vm' n path directive kind) := by
  unfold bindValue
  refine (Alike.onWorld fun T le fits => ?_).bind fun v => ?_
  · rw [World.untracked_evaluate, World.untracked_evaluate, ← same.table, fits.readPath]
    exact ⟨rfl, fits.rests trivial⟩
  · refine (Alike.onWorld fun T le fits => ⟨rfl, fits.render directive n v⟩).bind fun _ => ?_
    refine (Alike.onWorld fun T le fits => ?_).bind fun watcher => .hold _
    exact fits.watch (same.links.mono le) path _

theorem alike_listen {a b : Response} (same : T₀.Responds P a b) (n : NodeId) (event : String) :
    Alike P T₀ (onWorld fun w => ({ w with page := w.page.listen n event a }, ()))
      (onWorld fun w => ({ w with page := w.page.listen n event b }, ())) :=
  .onWorld fun _ le fits => ⟨rfl, fits.listen (same.mono le) n event⟩

theorem alike_bindDirective (same : T₀.ViewModels P vm vm') (n : NodeId) (directive : Directive)
    (name value : String) :
    Alike P T₀ (bindDirective vm n directive name value) (bindDirective vm' n directive name value) := by
  unfold bindDirective
  refine (alike_path value name).bind fun path => ?_
  have bound := alike_bindValue same n path directive (.directive directive)
  dsimp only
  split
  · exact (alike_listen (.writeBack same.links path) n inputEvent).bind fun _ => bound
  · exact bound

theorem alike_bindEvent (same : T₀.ViewModels P vm vm') (n : NodeId) (event method : String) :
    Alike P T₀ (bindEvent vm n event method) (bindEvent vm' n event method) := by
  unfold bindEvent
  refine (Alike.onWorld fun T le fits => ?_).bind fun found => ?_
  · rw [← same.table, fits.method?]
    exact ⟨rfl, fits.rests trivial⟩
  · split
    · exact .throw _
    · exact (alike_listen (.method same.links _) n event).bind fun _ => .hold _

/-! ## The walk -/

theorem alike_compileAttribute (marks : Markers) (same : T₀.ViewModels P vm vm') (n : NodeId)
    (name value : String) :
    Alike P T₀ (compileAttribute marks vm n name value) (compileAttribute marks vm' n name value) := by
  unfold compileAttribute
  split
  · exact .pure _
  · exact alike_bindEvent same n _ _
  · split
    · exact .pure _
    · exact alike_bindDirective same n _ name value

theorem alike_compileText (marks : Markers) (same : T₀.ViewModels P vm vm') (n : NodeId) :
    Alike P T₀ (compileText marks vm n) (compileText marks vm' n) := by
  unfold compileText
  refine .get fun T _ le fits => ?_
  dsimp only
  rw [Page.textOf_congr fits.nodes]
  split
  · exact .pure _
  · exact (alike_path _ _).bind fun path => alike_bindValue (same.mono le) n path _ _

theorem alike_compileNode (marks : Markers) (same : T₀.ViewModels P vm vm') (n : NodeId) :
    Alike P T₀ (compileNode marks vm n) (compileNode marks vm' n) := by
  unfold compileNode
  refine .get fun T _ le fits => ?_
  rw [Page.content?_congr fits.nodes]
  generalize T.left.page.content? n = content
  split
  · refine .forM _ ?_
    rintro ⟨name, value⟩
    exact alike_compileAttribute marks (same.mono le) n name value
  · exact alike_compileText marks (same.mono le) n
  · exact .pure _

theorem alike_compileBelow (marks : Markers) (same : T₀.ViewModels P vm vm') (fuel : Nat) (n : NodeId) :
    Alike P T₀ (compileBelow marks vm fuel n) (compileBelow marks vm' fuel n) := by
  induction fuel generalizing n with
  | zero => exact .pure _
  | succ fuel ih =>
    unfold compileBelow
    refine .get fun T _ le fits => ?_
    rw [Page.children_congr fits.nodes]
    exact .forM _ fun child =>
      (alike_compileNode marks (same.mono le) child).bind fun _ => (ih child).mono le

end Compile

/-! ## Wirings and views -/

namespace Pair

variable {P : Parting} {T : Pair}

/-- A part of the page is wired to both view models alike. -/
theorem Fits.compile (fits : T.Fits P) (marks : Markers) {vm vm' : ViewModel}
    (same : T.ViewModels P vm vm') (root : NodeId) :
    (T.right.compile marks vm' root).2 = (T.left.compile marks vm root).2 ∧
      T.Becomes P (T.left.compile marks vm root).1 (T.right.compile marks vm' root).1
        fun _ => True := by
  rw [World.compile_eq, World.compile_eq, fits.nodes]
  obtain ⟨outcome, wirings, becomes⟩ :=
    Compile.alike_compileBelow marks same (T.left.page.nodes.size + 2) root T [] (.refl T) fits
  rw [outcome, wirings]
  exact ⟨rfl, becomes⟩

theorem Fits.compileMounted (fits : T.Fits P) (marks : Markers) {vm vm' : ViewModel}
    (same : T.ViewModels P vm vm') (root : Option NodeId) :
    (T.right.compileMounted marks vm' root).2 = (T.left.compileMounted marks vm root).2 ∧
      T.Becomes P (T.left.compileMounted marks vm root).1 (T.right.compileMounted marks vm' root).1
        fun _ => True := by
  cases root with
  | none => exact ⟨rfl, fits.rests trivial⟩
  | some root => exact fits.compile marks same root

theorem Fits.putMethods (fits : T.Fits P) (t : TableId) (methods : List (String × ScriptId)) :
    T.Becomes P (methods.foldl (fun w (name, script) => w.putMethod t name script) T.left)
      (methods.foldl (fun w (name, script) => w.putMethod t name script) T.right) fun _ => True := by
  induction methods generalizing T with
  | nil => exact fits.rests trivial
  | cons method rest ih =>
    refine (fits.putMethod t method.1 method.2 (Q := fun _ => True) fun _ _ => trivial).bind
      fun T' _ fits' hl hr _ => ?_
    simpa only [List.foldl_cons, hl, hr] using ih fits'

/-- Two views that belong together. -/
structure Views (P : Parting) (T : Pair) (v v' : MountedView) : Prop where
  viewModel : T.ViewModels P v.viewModel v'.viewModel
  model : v.model = v'.model
  lives : T.left.heap.Lives (.map v.model)
  root : v.root = v'.root
  wiring : v.wiring = v'.wiring

theorem Views.mono {v v' : MountedView} {T' : Pair} (same : T.Views P v v') (le : T.Le T') :
    T'.Views P v v' :=
  ⟨same.viewModel.mono le, same.model, le.lives same.lives, same.root, same.wiring⟩

/-- The same view is mounted on both sides, or none for the same reason. -/
theorem Fits.mountView (fits : T.Fits P) (plan : ViewPlan) (lives : T.left.heap.Lives plan.data) :
    T.Becomes P (T.left.mountView plan).1 (T.right.mountView plan).1 fun T' =>
      Agrees (T'.Views P) (T.left.mountView plan).2 (T.right.mountView plan).2 := by
  obtain ⟨data, methods, mount, marks⟩ := plan
  have observed := fits.becomes_heap (f := (·.observe data)) (Q := fun _ => True)
    (Heap.Takes.preserves (T.left.heap.observedFrom_observe data).takes (List.forall_mem_nil _)) trivial
  refine observed.bind fun T₁ le₁ fits₁ hl₁ hr₁ _ => ?_
  unfold World.mountView
  dsimp only
  rw [← hl₁, ← hr₁]
  cases data with
  | map model =>
    dsimp only
    have made := fits₁.viewModelOf (le₁.lives lives)
    rcases hl₂ : T₁.left.viewModelOf model with ⟨l₂, vm⟩
    rcases hr₂ : T₁.right.viewModelOf model with ⟨r₂, vm'⟩
    rw [hl₂, hr₂] at made
    refine made.bind fun T₂ le₂ fits₂ hl hr same => ?_
    dsimp only at hl hr same
    subst hl hr
    have methods := fits₂.putMethods vm.table methods
    refine methods.bind fun T₃ le₃ fits₃ hl hr _ => ?_
    dsimp only
    have query : T₃.right.page.query = T₃.left.page.query := funext (Page.query_congr fits₃.nodes)
    rw [← same.table, ← hl, ← hr, query]
    generalize mount.bind T₃.left.page.query = root
    have same₃ := same.mono le₃
    obtain ⟨outcome, wired⟩ := fits₃.compileMounted marks same₃ root
    rcases hl₄ : T₃.left.compileMounted marks vm root with ⟨l₄, result⟩
    rcases hr₄ : T₃.right.compileMounted marks vm' root with ⟨r₄, result'⟩
    rw [hl₄, hr₄] at outcome wired
    dsimp only at outcome
    subst outcome
    cases result' with
    | error cause => exact wired.imp fun _ _ _ _ _ _ => .error _
    | ok wiring =>
      refine wired.imp fun T₄ le₄ _ _ _ _ => .ok ⟨same₃.mono le₄, rfl, ?_, rfl, rfl⟩
      exact (((le₁.trans le₂).trans le₃).trans le₄).lives lives
  | _ => exact fits₁.rests (.error _)

end Pair

end DataBinding
