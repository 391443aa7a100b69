-- Compiling a template wires: whatever it comes upon, and also if it fails, it only creates watchers and
-- changes the page.
import DataBinding.Proofs.Page.Places
import DataBinding.Proofs.World.Births
import DataBinding.Binding.MountedView

namespace DataBinding

/-- A value is shown as its text. -/
theorem World.render_eq (w : World) (directive : Directive) (n : NodeId) (v : Value) :
    w.render directive n v = { w with page := w.page.showing directive n (w.heap.render v) } := by
  cases directive <;> rfl

namespace Compile

variable {α β : Type}

/-! ## Running -/

/-- The outcome of a part of a compilation and the draft after it. -/
def on (a : Compile α) (d : Draft) : Except CompileError α × Draft := a.run.run d

theorem on_pure (x : α) (d : Draft) : (pure x : Compile α).on d = (.ok x, d) := rfl

theorem on_throw (e : CompileError) (d : Draft) : (throw e : Compile α).on d = (.error e, d) := rfl

theorem on_bind (a : Compile α) (f : α → Compile β) (d : Draft) :
    (a >>= f).on d = match a.on d with
      | (.ok x, d') => (f x).on d'
      | (.error e, d') => (.error e, d') := by
  unfold on
  simp only [ExceptT.run_bind, StateT.run_bind]
  rcases a.run.run d with ⟨_ | x, d'⟩ <;> rfl

theorem on_get (d : Draft) : (get : Compile Draft).on d = (.ok d, d) := rfl

theorem on_onWorld (f : World → World × α) (d : Draft) :
    (onWorld f).on d = (.ok (f d.world).2, { d with world := (f d.world).1 }) := rfl

theorem on_hold (b : Binding) (d : Draft) :
    (hold b).on d = (.ok (), { d with wiring := d.wiring ++ [b] }) := rfl

theorem nothing_of_path {expression : String} {cause : PathError}
    (faulty : KeyPath.parse expression = .error cause) (origin : String) (d : Draft) :
    (Compile.path expression origin).on d = (.error (.invalidExpression origin cause), d) := by
  unfold Compile.path
  rw [faulty]
  exact on_throw _ d

theorem on_path {expression : String} {path : KeyPath}
    (parsed : KeyPath.parse expression = .ok path) (origin : String) (d : Draft) :
    (Compile.path expression origin).on d = (.ok path, d) := by
  unfold Compile.path
  rw [parsed]
  exact on_pure path d

/-! ## Wiring only -/

/-- A part of a compilation wires and does nothing else to the world. -/
def Wires (a : Compile α) : Prop := ∀ d : Draft, d.world.Wires (a.on d).2.world

theorem Wires.pure (x : α) : Wires (pure x : Compile α) := fun _ => .refl

theorem Wires.throw (e : CompileError) : Wires (throw e : Compile α) := fun _ => .refl

theorem Wires.bind {a : Compile α} {f : α → Compile β} (ha : Wires a) (hf : ∀ x, Wires (f x)) :
    Wires (a >>= f) := by
  intro d
  have first := ha d
  rw [on_bind]
  rcases hr : a.on d with ⟨_ | x, d'⟩
  · simpa only [hr] using first
  · simp only [hr] at first ⊢
    exact first.trans (hf x d')

theorem Wires.get : Wires (get : Compile Draft) := fun _ => .refl

theorem Wires.onWorld {f : World → World × α} (hf : ∀ w : World, w.Wires (f w).1) :
    Wires (onWorld f) := fun d => hf d.world

theorem Wires.onPage (f : World → Page Response) :
    Wires (Compile.onWorld fun w => ({ w with page := f w }, ())) :=
  .onWorld fun w => World.Wires.refl.page (f w)

theorem Wires.hold (b : Binding) : Wires (hold b) := fun _ => .refl

theorem Wires.forM (xs : List α) {f : α → Compile Unit} (hf : ∀ x, Wires (f x)) :
    Wires (xs.forM f) := by
  induction xs with
  | nil => exact .pure ()
  | cons x rest ih => exact (hf x).bind fun _ => ih

theorem wires_path (expression origin : String) : Wires (path expression origin) := by
  unfold path
  split
  · exact .pure _
  · exact .throw _

theorem wires_bindValue (vm : ViewModel) (n : NodeId) (path : KeyPath) (directive : Directive)
    (kind : BindingKind) : Wires (bindValue vm n path directive kind) := by
  unfold bindValue
  apply (Wires.onWorld fun w => ?_).bind
  · intro v
    apply (Wires.onWorld fun w => ?_).bind
    · intro _
      apply (Wires.onWorld fun w => ?_).bind
      · intro watcher
        exact .hold _
      · exact World.Wires.refl.watch vm.link path (.render directive n)
    · exact World.Wires.refl.page _
  · rw [World.untracked_evaluate]
    exact .refl

theorem wires_bindDirective (vm : ViewModel) (n : NodeId) (directive : Directive)
    (name value : String) : Wires (bindDirective vm n directive name value) := by
  unfold bindDirective
  apply (wires_path value name).bind
  intro path
  dsimp only
  split
  · exact (Wires.onPage _).bind fun _ => wires_bindValue vm n path directive _
  · exact wires_bindValue vm n path directive _

theorem wires_bindEvent (vm : ViewModel) (n : NodeId) (event method : String) :
    Wires (bindEvent vm n event method) := by
  unfold bindEvent
  apply (Wires.onWorld fun w => .refl).bind
  intro found
  split
  · exact .throw _
  · exact (Wires.onPage _).bind fun _ => .hold _

theorem wires_compileAttribute (marks : Markers) (vm : ViewModel) (n : NodeId)
    (name value : String) : Wires (compileAttribute marks vm n name value) := by
  unfold compileAttribute
  split
  · exact .pure _
  · exact wires_bindEvent vm n _ _
  · split
    · exact .pure _
    · exact wires_bindDirective vm n _ name value

theorem wires_compileText (marks : Markers) (vm : ViewModel) (n : NodeId) :
    Wires (compileText marks vm n) := by
  unfold compileText
  apply Wires.get.bind
  intro d
  dsimp only
  split
  · exact .pure _
  · exact (wires_path _ _).bind fun path => wires_bindValue vm n path _ _

theorem wires_compileNode (marks : Markers) (vm : ViewModel) (n : NodeId) :
    Wires (compileNode marks vm n) := by
  unfold compileNode
  apply Wires.get.bind
  intro d
  split
  · exact .forM _ fun named => wires_compileAttribute marks vm n named.1 named.2
  · exact wires_compileText marks vm n
  · exact .pure _

theorem wires_compileBelow (marks : Markers) (vm : ViewModel) (fuel : Nat) (n : NodeId) :
    Wires (compileBelow marks vm fuel n) := by
  induction fuel generalizing n with
  | zero => exact .pure _
  | succ fuel ih =>
    unfold compileBelow
    apply Wires.get.bind
    intro d
    exact .forM _ fun child => (wires_compileNode marks vm child).bind fun _ => ih child

end Compile

namespace World

theorem compile_eq (w : World) (marks : Markers) (vm : ViewModel) (root : NodeId) :
    w.compile marks vm root =
      (((Compile.compileBelow marks vm (w.page.nodes.size + 2) root).on ⟨w, []⟩).2.world,
        ((Compile.compileBelow marks vm (w.page.nodes.size + 2) root).on ⟨w, []⟩).1.map fun _ =>
          ((Compile.compileBelow marks vm (w.page.nodes.size + 2) root).on ⟨w, []⟩).2.wiring) := rfl

/-- Compiling wires, also if it fails. -/
theorem wires_compile (w : World) (marks : Markers) (vm : ViewModel) (root : NodeId) :
    w.Wires (w.compile marks vm root).1 := by
  rw [compile_eq]
  exact Compile.wires_compileBelow marks vm _ root ⟨w, []⟩

end World

end DataBinding
