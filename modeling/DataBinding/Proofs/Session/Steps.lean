-- What a step does to the world: licensed edits of the heap first, then new watchers and changes of the
-- page. Whom the edits owe a turn is in the work that the step leaves. Only four kinds of steps hold a
-- licence.
import DataBinding.Proofs.Session.Terms
import DataBinding.Proofs.World.Compiling

namespace DataBinding

variable {licence : Licence} {w₀ : World}

/-! ## The work that is left -/

/-- Whom a step's work owes a turn. -/
def Work.owed : Work → List WatcherId
  | .turns owed => owed
  | _ => []

/-- The watchers that work owes a turn exist, and what it calls a script with is known. -/
def Work.Sound (w : World) : Work → Prop
  | .turns owed => ∀ id ∈ owed, id.Among w.watchers.size
  | .call _ context => context.Known w
  | .nothing | .hearing _ _ => True

/-- The result of a step fits what its edits owe. -/
def Work.Pays (w : World) (owed : List WatcherId) : Except Fault Outcome → Prop
  | .ok outcome => outcome.work.Sound w ∧ owed ⊆ outcome.work.owed
  | .error _ => owed = []

namespace Act

/-- The effect of an action that ends a step. -/
def Performs (licence : Licence) (w₀ : World) (a : Act Outcome) : Prop :=
  ∀ c s, s.Sound → c.Known s.world → s.world.Extends w₀ →
    (a.on c s).2.Sound ∧ ∃ owed mid, s.world.Changes licence owed mid ∧
      mid.Wires (a.on c s).2.world ∧ Work.Pays (a.on c s).2.world owed (a.on c s).1

theorem Performs.bind {α : Type} {Q : World → α → Prop} {a : Act α} {f : α → Act Outcome}
    (ha : Keeps licence w₀ a Q)
    (hf : ∀ x w, w.Sound → w.Extends w₀ → Q w x → Performs licence w (f x)) :
    Performs licence w₀ (a >>= f) := by
  intro c s sound known ext
  obtain ⟨sound₁, changes₁, value⟩ := ha c s sound known ext
  rw [on_bind]
  rcases hr : a.on c s with ⟨_ | x, s₁⟩
  · simp only [hr] at sound₁ changes₁ ⊢
    exact ⟨sound₁, [], s₁.world, changes₁, .refl, rfl⟩
  · simp only [hr] at sound₁ changes₁ value ⊢
    have ext₁ := changes₁.extend
    obtain ⟨sound₂, owed, mid, changes₂, wires, pays⟩ := hf x s₁.world sound₁.world
      (ext₁.trans ext) (value x rfl) c s₁ sound₁ (known.mono ext₁) (.refl _)
    exact ⟨sound₂, owed, mid, changes₁.trans changes₂, wires, pays⟩

theorem Performs.pure {o : Outcome} (ho : ∀ w, w.Sound → w.Extends w₀ → o.work.Sound w) :
    Performs licence w₀ (pure o) := by
  intro c s sound _ ext
  exact ⟨sound, [], s.world, .refl _, .refl, ho s.world sound.world ext, by simp⟩

theorem Performs.reply {reply : Reply Value} : Performs licence w₀ (Pure.pure (.ofReply reply)) :=
  .pure fun _ _ _ => trivial

theorem Performs.fail {f : Fault} : Performs licence w₀ (fail f) := by
  intro c s sound _ _
  exact ⟨sound, [], s.world, .refl _, .refl, rfl⟩

/-- A write that owes turns, and the outcome that owes them. -/
theorem Performs.owing {op : Heap → Heap × List WatcherId} {reply : Reply Value} {held : Held}
    (hop : ∀ w : World, w.Sound → w.Extends w₀ →
      Heap.Edited w.watchers.size licence w.heap (op w.heap).2 (op w.heap).1) :
    Performs licence w₀ (do return .owing reply (← onHeap op) held) := by
  intro c s sound _ ext
  have edited := hop s.world sound.world ext
  have changes : s.world.Changes licence (op s.world.heap).2
      { s.world with heap := (op s.world.heap).1 } := ⟨edited, rfl, rfl⟩
  refine ⟨sound.onWorld (changes.sound sound.world) changes.extend, _, _, changes, .refl, ?_⟩
  exact ⟨edited.owed_among sound.world.enrolled, fun id hid => hid⟩

end Act

/-! ## Operations of the heap -/

namespace Heap

variable {count : Nat}

theorem edited_set (h : Heap) (m : MapId) (key : String) {v : Value} (known : h.Knows v) :
    Edited count licence h (h.set m key v).2 (h.set m key v).1 :=
  Edited.single (e := .set m key v) (by simpa [Edit.values] using known) trivial
    ⟨False.elim, False.elim, False.elim⟩

theorem edited_attach (h : Heap) (m : MapId) (key : String) {v : Value} (known : h.Knows v) :
    Edited count licence h (h.attach m key v).2 (h.attach m key v).1 := by
  rcases h.attach_eq m key v with e | ⟨plain, e⟩
  · rw [e]
    exact edited_set h m key known
  · rw [e]
    refine Edited.single (by simpa [Edit.values] using known) trivial
      ⟨False.elim, fun slot => ?_, False.elim⟩
    have slot : h.isSlot m key = true := slot
    rw [plain] at slot
    cases slot

/-- An operation on a list whose new items are old ones or inserted ones. -/
theorem edited_mutate {h : Heap} (closed : h.Closed) (l : ListId) {items inserted : List Value}
    (known : ∀ v ∈ inserted, h.Knows v) (old : ∀ v ∈ items, v ∈ h.items l ∨ v ∈ inserted) :
    Edited count licence h (h.mutate l items inserted).2 (h.mutate l items inserted).1 := by
  refine Edited.single (e := .mutate l items inserted) ?_ trivial
    ⟨False.elim, False.elim, False.elim⟩
  intro v hv
  rcases old v hv with hv | hv
  · exact closed.items hv
  · exact known v hv

theorem edited_sortBy {h : Heap} (closed : h.Closed) (l : ListId) (le : Value → Value → Bool) :
    Edited count licence h (h.sortBy l le).2 (h.sortBy l le).1 :=
  edited_mutate closed l (by simp) fun _ hv => .inl (List.mem_mergeSort.mp hv)

theorem edited_splice {h : Heap} (closed : h.Closed) (l : ListId) (start n : Nat)
    {inserted : List Value} (known : ∀ v ∈ inserted, h.Knows v) :
    Edited count licence h (h.splice l start n inserted).2 (h.splice l start n inserted).1 := by
  refine edited_mutate closed l known fun v hv => ?_
  simp only [List.mem_append, or_assoc] at hv
  rcases hv with hv | hv | hv
  · exact .inl (List.mem_of_mem_take hv)
  · exact .inr hv
  · exact .inl (List.mem_of_mem_drop hv)

end Heap

/-! ## Maps and lists -/

theorem MapOp.performs (m : MapId) (op : MapOp) (licence : Licence)
    (defines : (∃ key v, op = .define key v) → licence.redefines) :
    Act.Performs licence w₀ (op.perform m) := by
  cases op with
  | get key =>
    apply Act.Performs.bind Act.keeps_heap
    intro h w _ _ _
    apply Act.Performs.bind (Q := fun _ _ => True)
    · apply Act.keeps_onWorld
      intro w sound _
      simp only [World.depend_of_none sound.collector]
      exact ⟨.refl _, trivial⟩
    · exact fun _ _ _ _ _ => .reply
  | peek key => exact .bind Act.keeps_heap fun _ _ _ _ _ => .reply
  | set key v =>
    apply Act.Performs.bind (v.keeps_eval w₀)
    intro x w _ _ known
    exact .owing fun w _ ext => w.heap.edited_set m key (ext.heap.knows known)
  | attach key v =>
    apply Act.Performs.bind (v.keeps_eval w₀)
    intro x w _ _ known
    exact .owing fun w _ ext => w.heap.edited_attach m key (ext.heap.knows known)
  | define key v =>
    apply Act.Performs.bind (v.keeps_eval w₀)
    intro x w _ _ known
    apply Act.Performs.bind (Q := fun _ _ => True)
    · apply Act.keeps_onHeap (P := fun _ _ => True)
      intro w _ ext
      refine ⟨.single (e := .define m key x) ?_ trivial ⟨False.elim, fun _ => ?_, False.elim⟩,
        trivial⟩
      · simpa [Edit.values] using ext.heap.knows known
      · exact defines ⟨key, v, rfl⟩
    · exact fun _ _ _ _ _ => .reply
  | info => exact .bind Act.keeps_heap fun _ _ _ _ _ => .reply
  | keyInfo key => exact .bind Act.keeps_heap fun _ _ _ _ _ => .reply

theorem ListOp.performs (l : ListId) (op : ListOp) (licence : Licence)
    (places : (∃ position v, op = .set position v) → licence.places) :
    Act.Performs licence w₀ (op.perform l) := by
  cases op with
  | push v =>
    apply Act.Performs.bind (v.keeps_eval w₀)
    intro x w _ _ known
    apply Act.Performs.bind Act.keeps_heap
    intro _ w' _ ext _
    refine .owing fun w'' sound ext' => Heap.edited_mutate sound.closed l ?_ ?_
    · simpa using ext'.heap.knows (ext.heap.knows known)
    · intro y hy
      simpa using hy
  | unshift v =>
    apply Act.Performs.bind (v.keeps_eval w₀)
    intro x w _ _ known
    apply Act.Performs.bind Act.keeps_heap
    intro _ w' _ ext _
    refine .owing fun w'' sound ext' => Heap.edited_mutate sound.closed l ?_ ?_
    · simpa using ext'.heap.knows (ext.heap.knows known)
    · intro y hy
      rcases List.mem_cons.mp hy with rfl | hy
      · exact .inr (by simp)
      · exact .inl hy
  | pop =>
    refine .bind Act.keeps_heap fun _ _ _ _ _ => .owing fun w sound _ => ?_
    exact Heap.edited_mutate sound.closed l (by simp) fun _ hv => .inl (List.dropLast_subset _ hv)
  | shift =>
    refine .bind Act.keeps_heap fun _ _ _ _ _ => .owing fun w sound _ => ?_
    exact Heap.edited_mutate sound.closed l (by simp) fun _ hv => .inl (List.mem_of_mem_tail hv)
  | sort => exact .owing fun w sound _ => Heap.edited_sortBy sound.closed l _
  | sortBy comparator => exact .owing fun w sound _ => Heap.edited_sortBy sound.closed l _
  | reverse =>
    refine .owing fun w sound _ => ?_
    exact Heap.edited_mutate sound.closed l (by simp) fun _ hv => .inl (List.mem_reverse.mp hv)
  | splice start n inserted =>
    apply Act.Performs.bind (Term.keeps_evalAll inserted w₀)
    intro xs w _ _ known
    apply Act.Performs.bind Act.keeps_heap
    intro _ w' _ ext _
    exact .owing fun w'' sound ext' => Heap.edited_splice sound.closed l start n fun v hv =>
      ext'.heap.knows (ext.heap.knows (known v hv))
  | get position => exact .bind Act.keeps_heap fun _ _ _ _ _ => .reply
  | set position v =>
    apply Act.Performs.bind (v.keeps_eval w₀)
    intro x w _ _ known
    apply Act.Performs.bind (Q := fun _ _ => True)
    · apply Act.keeps_onHeap (P := fun _ _ => True)
      intro w _ ext
      refine ⟨.single (e := .place l position x) ?_ trivial ⟨False.elim, False.elim, fun _ => ?_⟩,
        trivial⟩
      · simpa [Edit.values] using ext.heap.knows known
      · exact places ⟨position, v, rfl⟩
    · exact fun _ _ _ _ _ => .reply
  | info => exact .bind Act.keeps_heap fun _ _ _ _ _ => .reply

/-! ## View models -/

/-- Whom a write owes a turn; nobody if it is refused. -/
def owedBy (outcome : Except PathError (List WatcherId)) : List WatcherId :=
  match outcome with
  | .ok owed => owed
  | .error _ => []

namespace World

theorem changes_setProperty {w : World} (t : TableId) (name : String) {v : Value}
    (known : w.heap.Knows v) :
    w.Changes licence (owedBy (w.setProperty t name v).2) (w.setProperty t name v).1 := by
  unfold setProperty
  split
  · exact .refl w
  · exact ⟨w.heap.edited_set _ name known, rfl, rfl⟩

theorem changes_assignIn {w : World} (parent : Value) (path : KeyPath) {v : Value}
    (known : w.heap.Knows v) (places : licence.places) :
    w.Changes licence (owedBy (w.assignIn parent path v).2) (w.assignIn parent path v).1 := by
  unfold assignIn
  split
  · exact ⟨w.heap.edited_set _ path.last known, rfl, rfl⟩
  · split
    · rename_i l _ position _
      refine ⟨.single (e := .place l position v) ?_ trivial ⟨False.elim, False.elim, fun _ => places⟩,
        rfl, rfl⟩
      simpa [Edit.values] using known
    · exact .refl w
  · exact .refl w

theorem changes_assign {w : World} (sound : w.Sound) (t : TableId) (path : KeyPath) {v : Value}
    (known : w.heap.Knows v) (places : licence.places) :
    w.Changes licence (owedBy (w.assign t path v).2) (w.assign t path v).1 := by
  unfold assign
  split
  · exact changes_setProperty t path.head known
  · simp only [depend_of_none sound.collector]
    split
    · exact .refl w
    · exact changes_assignIn _ path known places

theorem changes_newViewModel (w : World) : w.Changes licence [] w.newViewModel.1 :=
  .aside rfl rfl rfl

theorem changes_mount (w : World) (vm : ViewModel) (name : String) (m : MapId) :
    w.Changes licence [] (w.mount vm name m) := .aside rfl rfl rfl

theorem changes_flatten (w : World) (t : TableId) (name : String) :
    w.Changes licence [] (w.flatten t name).1 := by
  unfold flatten
  split
  · exact .refl w
  · exact .aside rfl rfl rfl

theorem changes_putMethod (w : World) (t : TableId) (name : String) (script : ScriptId) :
    w.Changes licence [] (w.putMethod t name script) := .aside rfl rfl rfl

theorem changes_follow (licence : Licence) (w : World) (l : Link) :
    w.Changes licence [] (w.follow l).1 := by
  unfold follow
  split
  · exact .refl w
  · exact .aside rfl rfl rfl

theorem changes_viewModelOf (w : World) (m : MapId) : w.Changes licence [] (w.viewModelOf m).1 := by
  unfold viewModelOf
  exact ((changes_newViewModel w).trans (changes_mount _ _ modelName m)).trans
    (changes_flatten _ _ modelName)

theorem changes_observe {w : World} (v : Value) :
    w.Changes licence [] { w with heap := w.heap.observe v } :=
  ⟨.single (e := .observe v) (by simp [Edit.values]) trivial ⟨False.elim, False.elim, False.elim⟩,
    rfl, rfl⟩

/-- The world in which a view over a map is wired, and its view model. -/
def mounting (w : World) (plan : ViewPlan) (m : MapId) : World × ViewModel :=
  let (w, vm) := { w with heap := w.heap.observe plan.data }.viewModelOf m
  (plan.methods.foldl (fun w (name, script) => w.putMethod vm.table name script) w, vm)

theorem mountView_of_map (w : World) {plan : ViewPlan} {m : MapId} (hm : plan.data = .map m) :
    w.mountView plan =
      let (w, viewModel) := w.mounting plan m
      let root := plan.mount.bind w.page.query
      match w.compileMounted plan.marks viewModel root with
      | (w, .ok wiring) => (w, .ok { viewModel, model := m, root, wiring })
      | (w, .error cause) => (w, .error (.compile cause)) := by
  obtain ⟨data, methods, mount, marks⟩ := plan
  subst hm
  rfl

theorem mountView_of_no_map (w : World) {plan : ViewPlan} (hd : ¬∃ m, plan.data = .map m) :
    w.mountView plan = ({ w with heap := w.heap.observe plan.data }, .error .dataNotAMap) := by
  unfold mountView
  dsimp only
  split
  · rename_i m hm
    exact absurd ⟨m, hm⟩ hd
  · rfl

theorem changes_mounting (w : World) (plan : ViewPlan) (m : MapId) :
    w.Changes licence [] (w.mounting plan m).1 := by
  have methods (w : World) (t : TableId) : w.Changes licence []
      (plan.methods.foldl (fun w method => w.putMethod t method.1 method.2) w) := by
    induction plan.methods generalizing w with
    | nil => exact .refl w
    | cons method rest ih => exact (changes_putMethod w t method.1 method.2).trans (ih _)
  exact ((changes_observe plan.data).trans (changes_viewModelOf _ m)).trans (methods _ _)

theorem wires_compileMounted (w : World) (marks : Markers) (vm : ViewModel)
    (root : Option NodeId) : w.Wires (w.compileMounted marks vm root).1 := by
  cases root with
  | none => exact .refl
  | some root => exact wires_compile w marks vm root

/-- A view is mounted by changes of the model and of the tables, and is wired afterwards. -/
theorem changes_mountView (licence : Licence) (w : World) (plan : ViewPlan) :
    ∃ mid, w.Changes licence [] mid ∧ mid.Wires (w.mountView plan).1 ∧
      ∀ view, (w.mountView plan).2 = .ok view → plan.data = .map view.model := by
  by_cases hd : ∃ m, plan.data = .map m
  · obtain ⟨m, hm⟩ := hd
    have wires := wires_compileMounted (w.mounting plan m).1 plan.marks (w.mounting plan m).2
      (plan.mount.bind (w.mounting plan m).1.page.query)
    refine ⟨_, changes_mounting w plan m, ?_⟩
    rw [mountView_of_map w hm]
    dsimp only
    split
    · rename_i w' wiring hc
      rw [hc] at wires
      refine ⟨wires, fun view hv => ?_⟩
      cases hv
      exact hm
    · rename_i w' cause hc
      rw [hc] at wires
      exact ⟨wires, fun view hv => by cases hv⟩
  · refine ⟨_, changes_observe plan.data, ?_⟩
    rw [mountView_of_no_map w hd]
    exact ⟨.refl, fun view hv => by cases hv⟩

end World

end DataBinding
