-- Deeds: what the steps of a session do to the world, one thing after another. A step does a few kinds of
-- deeds only: it edits the heap, reads with tracking, makes watchers, changes the tables of view
-- models, adds listeners, changes the page or compiles a part of it. What every deed keeps is kept by
-- every move of every machine. To evaluate a term is to make containers and to read.
import DataBinding.Proofs.Page.Places
import DataBinding.Proofs.Session.Calls

namespace DataBinding

/-! ## Deeds -/

/-- One thing that is done to a world. -/
inductive Deed where
  | edit (e : Edit)
  | depend (crossed : List Registry)
  | watch (link : Link) (path : KeyPath) (script : ScriptId)
  | tables (ts : Array Table) (ms : Array (Option (List (String × MapId))))
  | listen (n : NodeId) (event : String) (response : Response)
  | page (p : Page Response)
  | compile (marks : Markers) (vm : ViewModel) (root : NodeId)

namespace Deed

def apply (w : World) : Deed → World
  | .edit e => { w with heap := (e.apply w.heap).1 }
  | .depend crossed => w.depend crossed
  | .watch link path script => (w.watch link path (.script script)).1
  | .tables ts ms => { w with tables := ts, mounts := ms }
  | .listen n event response => { w with page := w.page.listen n event response }
  | .page p => { w with page := p }
  | .compile marks vm root => (w.compile marks vm root).1

/-- The edit of a deed, if it touches containers that are there. A new container touches none, and a
registration shows in its registry only. -/
def touch? : Deed → Option Edit
  | .edit (.newMap _) | .edit (.newList _) | .edit .newRegistry | .edit (.register _ _) => none
  | .edit e => some e
  | _ => none

/-- Where it is given, the page may be painted or listened to, or a part of it may be compiled. -/
def Within (paints binds : Prop) (w : World) : Deed → Prop
  | .page p => paints ∧ w.page.Repaints p
  | .listen _ _ _ => paints
  | .compile _ _ _ => binds
  | _ => True

/-- Deeds that touch no container. -/
def Plain (paints binds : Prop) (w : World) (d : Deed) : Prop :=
  d.touch? = none ∧ d.Within paints binds w

end Deed

theorem World.collector_depend (w : World) (crossed : List Registry) :
    (w.depend crossed).collector = w.collector := by
  unfold depend
  split <;> rfl

theorem World.sameFaces_depend (w : World) (crossed : List Registry) :
    Heap.SameFaces w.heap (w.depend crossed).heap := by
  unfold depend
  split
  · exact .refl _
  · exact Heap.sameFaces_foldl_register _ _ _

/-- Every deed puts back the collector that it found. -/
theorem Deed.collector_apply (w : World) (d : Deed) : (d.apply w).collector = w.collector := by
  cases d with
  | depend crossed => exact w.collector_depend crossed
  | compile marks vm root => exact (w.wires_compile marks vm root).collector
  | edit _ | watch _ _ _ | tables _ _ | listen _ _ _ | page _ => rfl

theorem Deed.apply_of_touch? {d : Deed} {e : Edit} (h : d.touch? = some e) (w : World) :
    d.apply w = { w with heap := (e.apply w.heap).1 } := by
  cases d with
  | edit e' => cases e' <;> simp_all [touch?, apply]
  | depend _ | watch _ _ _ | tables _ _ | listen _ _ _ | page _ | compile _ _ _ => cases h

/-- One world comes from another one by deeds, each of which may be done where it is done. -/
inductive World.Does (may : World → Deed → Prop) (w : World) : World → Prop where
  | nil : Does may w w
  | snoc {w' : World} {d : Deed} (before : Does may w w') (allowed : may w' d) :
      Does may w (d.apply w')

namespace World.Does

variable {may may' : World → Deed → Prop} {w w₁ w₂ : World}

theorem single (d : Deed) (allowed : may w d) : w.Does may (d.apply w) := nil.snoc allowed

theorem trans (a : w.Does may w₁) (b : w₁.Does may w₂) : w.Does may w₂ := by
  induction b with
  | nil => exact a
  | snoc _ allowed ih => exact ih.snoc allowed

theorem mono (a : w.Does may w₁) (wider : ∀ w d, may w d → may' w d) : w.Does may' w₁ := by
  induction a with
  | nil => exact nil
  | snoc _ allowed ih => exact ih.snoc (wider _ _ allowed)

/-- What every deed keeps is kept. -/
theorem keeps {P : World → Prop} (a : w.Does may w₁)
    (deed : ∀ w d, may w d → P w → P (d.apply w)) (start : P w) : P w₁ := by
  induction a with
  | nil => exact start
  | snoc _ allowed ih => exact deed _ _ allowed ih

theorem collector (a : w.Does may w₁) : w₁.collector = w.collector :=
  a.keeps (P := fun later => later.collector = w.collector)
    (fun later d _ same => (d.collector_apply later).trans same) rfl

end World.Does

namespace Act

variable {α β : Type} {paints binds : Prop} {c : Context} {s : Session}

/-! ## Actions that touch no container -/

/-- An action does plain deeds only. -/
def Prepares (paints binds : Prop) (a : Act α) : Prop :=
  ∀ (c : Context) (s : Session), s.world.Does (Deed.Plain paints binds) (a.on c s).2.world

/-- An action that goes on after another one does its own deeds after those of the first. -/
theorem does_bind {may : World → Deed → Prop} {a : Act α} {f : α → Act β}
    (first : s.world.Does may (a.on c s).2.world)
    (second : ∀ x s', a.on c s = (.ok x, s') → s'.world.Does may ((f x).on c s').2.world) :
    s.world.Does may ((a >>= f).on c s).2.world := by
  rw [on_bind]
  rcases hr : a.on c s with ⟨_ | x, s'⟩
  · simpa only [hr] using first
  · simp only [hr] at first ⊢
    exact first.trans (second x s' hr)

namespace Prepares

theorem bind {a : Act α} {f : α → Act β} (ha : Prepares paints binds a) (hf : ∀ x, Prepares paints binds (f x)) :
    Prepares paints binds (a >>= f) := fun c s => does_bind (ha c s) fun x s' _ => hf x c s'

theorem pure (x : α) : Prepares paints binds (pure x : Act α) := fun _ _ => .nil

theorem fail (f : Fault) : Prepares paints binds (fail f : Act α) := fun _ _ => .nil

/-- An action that leaves the world alone. -/
theorem still {a : Act α} (same : ∀ c s, (a.on c s).2.world = s.world) : Prepares paints binds a := by
  intro c s
  rw [same]
  exact .nil

theorem onWorld {f : World → World × α} (hf : ∀ w : World, w.Does (Deed.Plain paints binds) (f w).1) :
    Prepares paints binds (onWorld f) := fun _ s => hf s.world

theorem onHeap {f : Heap → Heap × α} (hf : ∀ h : Heap, ∃ e : Edit, Deed.touch? (.edit e) = none ∧
    (f h).1 = (e.apply h).1) : Prepares paints binds (onHeap f) := by
  intro c s
  obtain ⟨e, quiet, he⟩ := hf s.world.heap
  have done : s.world.Does (Deed.Plain paints binds) ((Deed.edit e).apply s.world) :=
    .single _ ⟨quiet, trivial⟩
  rwa [Deed.apply, ← he] at done

theorem onPage {f : Page Response → Page Response × α} (hf : ∀ p, Page.Repaints p (f p).1)
    (painted : paints) : Prepares paints binds (onPage f) :=
  fun _ s => .single (.page (f s.world.page).1) ⟨rfl, painted, hf s.world.page⟩

/-- A tracked read. -/
theorem depend (crossed : World → List Registry) (x : World → α) :
    Prepares paints binds (Act.onWorld fun w => (w.depend (crossed w), x w)) :=
  onWorld fun w => .single (.depend (crossed w)) ⟨rfl, trivial⟩

/-- A change of tables and mounts. -/
theorem tables {f : World → World × α}
    (aside : ∀ w : World, ∃ tables mounts, (f w).1 = { w with tables, mounts }) :
    Prepares paints binds (Act.onWorld f) := by
  refine onWorld fun w => ?_
  obtain ⟨tables, mounts, e⟩ := aside w
  rw [e]
  exact .single (.tables tables mounts) ⟨rfl, trivial⟩

end Prepares

theorem prepares_get : Prepares paints binds get := .still fun _ _ => rfl

theorem prepares_read : Prepares paints binds read := .still fun _ _ => rfl

theorem prepares_world : Prepares paints binds world := .still fun _ _ => rfl

theorem prepares_heap : Prepares paints binds heap := .still fun _ _ => rfl

theorem prepares_page : Prepares paints binds page := .still fun _ _ => rfl

theorem prepares_found (what name : String) (x : Option α) : Prepares paints binds (found what name x) := by
  cases x with
  | none => exact .fail _
  | some a => exact .pure a

theorem prepares_ofPath (x : Except PathError α) : Prepares paints binds (ofPath x) := by
  cases x with
  | ok a => exact .pure a
  | error cause => exact .fail _

theorem prepares_parse (expression : String) : Prepares paints binds (parse expression) :=
  prepares_ofPath _

theorem prepares_viewModel (name : String) : Prepares paints binds (viewModel name) := by
  unfold viewModel
  split
  · exact prepares_read.bind fun _ => prepares_found _ _ _
  · exact prepares_get.bind fun _ => prepares_found _ _ _

theorem prepares_watcher (name : String) : Prepares paints binds (watcher name) :=
  prepares_get.bind fun _ => prepares_found _ _ _

theorem prepares_link (name : String) : Prepares paints binds (link name) :=
  prepares_get.bind fun _ => prepares_found _ _ _

theorem prepares_node (name : String) : Prepares paints binds (node name) :=
  prepares_get.bind fun _ => prepares_found _ _ _

theorem prepares_wiring (name : String) : Prepares paints binds (wiring name) :=
  prepares_get.bind fun _ => prepares_found _ _ _

theorem prepares_marks (term : MarksTerm) : Prepares paints binds (marks term) := by
  unfold marks
  split
  · exact .pure _
  · split
    · exact .pure _
    · exact .fail _

theorem prepares_nameNode (name : Option String) (n : NodeId) :
    Prepares paints binds (nameNode name n) := by
  unfold nameNode
  split
  · exact .pure _
  · exact .still fun _ _ => rfl

theorem prepares_newScript (caller : Caller) (tag : String) (steps : List Step)
    (limit : Option Nat) : Prepares paints binds (newScript caller tag steps limit) :=
  .still fun _ _ => rfl

end Act

variable {paints binds : Prop}

/-! ## Terms -/

namespace Heap

mutual

/-- To load a document is to make containers. -/
theorem does_load (w : World) (d : Document) :
    w.Does (Deed.Plain paints binds) { w with heap := (w.heap.load d).1 } := by
  match d with
  | .null | .bool _ | .int _ | .number _ | .text _ => exact .nil
  | .array items =>
    simp only [load]
    exact (does_loadItems w items).snoc (d := .edit (.newList _)) ⟨rfl, trivial⟩
  | .object entries =>
    simp only [load]
    exact (does_loadEntries w entries).snoc (d := .edit (.newMap _)) ⟨rfl, trivial⟩

theorem does_loadItems (w : World) (items : List Document) :
    w.Does (Deed.Plain paints binds) { w with heap := (w.heap.loadItems items).1 } := by
  match items with
  | [] => exact .nil
  | d :: rest =>
    simp only [loadItems]
    exact (does_load w d).trans (does_loadItems { w with heap := (w.heap.load d).1 } rest)

theorem does_loadEntries (w : World) (entries : List (String × Document)) :
    w.Does (Deed.Plain paints binds) { w with heap := (w.heap.loadEntries entries).1 } := by
  match entries with
  | [] => exact .nil
  | (key, d) :: rest =>
    simp only [loadEntries]
    exact (does_load w d).trans (does_loadEntries { w with heap := (w.heap.load d).1 } rest)

end

end Heap

theorem prepares_follow (v : Value) (segments : List Segment) :
    Act.Prepares paints binds (follow v segments) := by
  induction segments generalizing v with
  | nil => exact .pure v
  | cons segment rest ih =>
    unfold follow
    apply Act.prepares_heap.bind
    intro h
    dsimp only
    split
    · exact ih _
    · exact .fail _

namespace Term

theorem prepares_newList (items : List Value) : Act.Prepares paints binds (newList items) :=
  .onHeap fun _ => ⟨.newList items, rfl, rfl⟩

theorem prepares_newMap (entries : List (String × Value)) : Act.Prepares paints binds (newMap entries) :=
  .onHeap fun _ => ⟨.newMap entries, rfl, rfl⟩

theorem prepares_wrap {inside : Value → Act Value} (hi : ∀ v, Act.Prepares paints binds (inside v))
    (levels : Nat) (v : Value) : Act.Prepares paints binds (wrap inside levels v) := by
  induction levels generalizing v with
  | zero => exact .pure v
  | succ levels ih => exact (hi v).bind ih

mutual

/-- A term makes containers and reads. -/
theorem prepares_eval (t : Term) : Act.Prepares paints binds t.eval := by
  match t with
  | .document d =>
    unfold eval
    exact fun _ s => Heap.does_load s.world d
  | .array items =>
    unfold eval
    exact (prepares_evalAll items).bind prepares_newList
  | .object entries =>
    unfold eval
    exact (prepares_evalEntries entries).bind prepares_newMap
  | .handle name segments =>
    unfold eval
    exact Act.prepares_get.bind fun _ => (Act.prepares_found _ _ _).bind (prepares_follow · segments)
  | .argument segments =>
    unfold eval
    exact Act.prepares_read.bind fun _ =>
      (Act.prepares_found _ _ _).bind (prepares_follow · segments)
  | .property viewModel name =>
    unfold eval
    exact (Act.prepares_viewModel viewModel).bind fun vm => .depend _ _
  | .evaluation viewModel expression =>
    unfold eval
    exact (Act.prepares_viewModel viewModel).bind fun vm =>
      (Act.prepares_parse expression).bind fun path => .depend _ _
  | .sum t n =>
    unfold eval
    exact (prepares_eval t).bind fun _ => .pure _
  | .joined parts =>
    unfold eval
    exact (prepares_evalAll parts).bind fun _ => Act.prepares_heap.bind fun _ => .pure _
  | .nestedMaps levels t =>
    unfold eval
    exact (prepares_eval t).bind (prepares_wrap (fun v => prepares_newMap _) levels)
  | .nestedLists levels t =>
    unfold eval
    exact (prepares_eval t).bind (prepares_wrap (fun v => prepares_newList _) levels)

theorem prepares_evalAll (ts : List Term) : Act.Prepares paints binds (evalAll ts) := by
  match ts with
  | [] =>
    unfold evalAll
    exact .pure _
  | t :: rest =>
    unfold evalAll
    exact (prepares_eval t).bind fun _ => (prepares_evalAll rest).bind fun _ => .pure _

theorem prepares_evalEntries (es : List (String × Term)) : Act.Prepares paints binds (evalEntries es) := by
  match es with
  | [] =>
    unfold evalEntries
    exact .pure _
  | (key, t) :: rest =>
    unfold evalEntries
    exact (prepares_eval t).bind fun _ => (prepares_evalEntries rest).bind fun _ => .pure _

end

theorem prepares_evalMap (t : Term) : Act.Prepares paints binds t.evalMap := by
  unfold evalMap
  apply (prepares_eval t).bind
  intro v
  split
  · exact .pure _
  · exact .fail _

theorem prepares_evalList (t : Term) : Act.Prepares paints binds t.evalList := by
  unfold evalList
  apply (prepares_eval t).bind
  intro v
  split
  · exact .pure _
  · exact .fail _

end Term

theorem RegistryTerm.prepares_eval (d : RegistryTerm) : Act.Prepares paints binds d.eval := by
  unfold RegistryTerm.eval
  cases d
  case' handle name =>
    apply Act.prepares_get.bind
    intro _
    apply (Act.prepares_found _ _ _).bind
    intro _
  case' slot t key =>
    apply t.prepares_evalMap.bind
    intro _
  case' list t =>
    apply t.prepares_evalList.bind
    intro _
  -- whatever registry the term names, it is looked up
  all_goals
    apply (Act.Prepares.pure _).bind
    intro registry
    apply Act.prepares_heap.bind
    intro h
    split
    · exact .pure _
    · exact .fail _

end DataBinding
