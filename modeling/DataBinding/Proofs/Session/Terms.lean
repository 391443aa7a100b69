-- Terms only make containers. The evaluation of a term leaves a sound session, owes nobody a turn,
-- makes none of the rare edits, and gives a value that was made.
import DataBinding.Proofs.Session.Acts

namespace DataBinding

variable {count : Nat} {licence : Licence} {w₀ : World}

/-! ## Documents -/

namespace Heap

theorem edited_newMap (h : Heap) {entries : List (String × Value)}
    (known : ∀ e ∈ entries, h.Knows e.2) :
    Edited count licence h [] (h.newMap entries).1 := by
  refine Edited.single (e := .newMap entries) ?_ trivial ⟨False.elim, False.elim, False.elim⟩
  intro v hv
  obtain ⟨e, he, rfl⟩ := List.mem_map.mp hv
  exact known e he

theorem edited_newList (h : Heap) {items : List Value} (known : ∀ v ∈ items, h.Knows v) :
    Edited count licence h [] (h.newList items).1 :=
  Edited.single (e := .newList items) known trivial ⟨False.elim, False.elim, False.elim⟩

theorem knows_newMap (h : Heap) (entries : List (String × Value)) :
    (h.newMap entries).1.Knows (.map (h.newMap entries).2) := by
  simp [newMap, Knows]

theorem knows_newList (h : Heap) (items : List Value) :
    (h.newList items).1.Knows (.list (h.newList items).2) := by
  simp [newList, Knows]

mutual

/-- Loading a document makes containers only, and all of them are known. -/
theorem edited_load (h : Heap) (d : Document) :
    Edited count licence h [] (h.load d).1 ∧ (h.load d).1.Knows (h.load d).2 := by
  match d with
  | .null | .bool _ | .int _ | .number _ | .text _ => exact ⟨.nil, trivial⟩
  | .array items =>
    obtain ⟨edited, known⟩ := edited_loadItems h items
    simp only [load]
    exact ⟨edited.trans (edited_newList _ known), knows_newList _ _⟩
  | .object entries =>
    obtain ⟨edited, known⟩ := edited_loadEntries h entries
    simp only [load]
    exact ⟨edited.trans (edited_newMap _ known), knows_newMap _ _⟩

theorem edited_loadItems (h : Heap) (items : List Document) :
    Edited count licence h [] (h.loadItems items).1 ∧
      ∀ v ∈ (h.loadItems items).2, (h.loadItems items).1.Knows v := by
  match items with
  | [] => exact ⟨.nil, by simp [loadItems]⟩
  | d :: rest =>
    obtain ⟨edited, known⟩ := edited_load h d
    obtain ⟨more, knowns⟩ := edited_loadItems (h.load d).1 rest
    simp only [loadItems]
    exact ⟨edited.trans more, List.forall_mem_cons.mpr ⟨more.extend.knows known, knowns⟩⟩

theorem edited_loadEntries (h : Heap) (entries : List (String × Document)) :
    Edited count licence h [] (h.loadEntries entries).1 ∧
      ∀ e ∈ (h.loadEntries entries).2, (h.loadEntries entries).1.Knows e.2 := by
  match entries with
  | [] => exact ⟨.nil, by simp [loadEntries]⟩
  | (key, d) :: rest =>
    obtain ⟨edited, known⟩ := edited_load h d
    obtain ⟨more, knowns⟩ := edited_loadEntries (h.load d).1 rest
    simp only [loadEntries]
    exact ⟨edited.trans more, List.forall_mem_cons.mpr ⟨more.extend.knows known, knowns⟩⟩

end

end Heap

namespace Act

theorem keeps_onHeap {α : Type} {f : Heap → Heap × α} {P : Heap → α → Prop}
    (hf : ∀ w : World, w.Sound → w.Extends w₀ →
      Heap.Edited w.watchers.size licence w.heap [] (f w.heap).1 ∧ P (f w.heap).1 (f w.heap).2) :
    Keeps licence w₀ (onHeap f) fun w x => P w.heap x :=
  keeps_onWorld fun w sound ext => ⟨⟨(hf w sound ext).1, rfl, rfl⟩, (hf w sound ext).2⟩

end Act

/-! ## Segments -/

/-- What segments lead to is known. -/
theorem keeps_follow {v : Value} (known : w₀.heap.Knows v) (segments : List Segment) :
    Act.Keeps licence w₀ (follow v segments) fun w x => w.heap.Knows x := by
  induction segments generalizing v w₀ with
  | nil => exact .pure fun w _ ext => ext.heap.knows known
  | cons segment rest ih =>
    unfold follow
    apply Act.keeps_heap.bind
    rintro h w sound _ rfl
    dsimp only
    split
    · rename_i x hx
      apply ih
      split at hx
      · rename_i m key
        obtain ⟨e, he, rfl⟩ := Option.map_eq_some_iff.mp hx
        exact sound.closed.lookup? he
      · rename_i l i
        rw [Heap.item?_eq] at hx
        exact sound.closed.items (List.mem_of_getElem? hx)
      · cases hx
    · exact .fail

/-! ## Terms -/

namespace Term

theorem keeps_newList {items : List Value} (known : ∀ v ∈ items, w₀.heap.Knows v) :
    Act.Keeps licence w₀ (newList items) fun w v => w.heap.Knows v :=
  Act.keeps_onHeap fun _ _ ext =>
    ⟨Heap.edited_newList _ fun v hv => ext.heap.knows (known v hv), Heap.knows_newList _ _⟩

theorem keeps_newMap {entries : List (String × Value)} (known : ∀ e ∈ entries, w₀.heap.Knows e.2) :
    Act.Keeps licence w₀ (newMap entries) fun w v => w.heap.Knows v :=
  Act.keeps_onHeap fun _ _ ext =>
    ⟨Heap.edited_newMap _ fun e he => ext.heap.knows (known e he), Heap.knows_newMap _ _⟩

theorem keeps_wrap {inside : Value → Act Value} (hi : ∀ w v, w.heap.Knows v →
    Act.Keeps licence w (inside v) fun w v => w.heap.Knows v) (levels : Nat) {v : Value}
    (known : w₀.heap.Knows v) :
    Act.Keeps licence w₀ (wrap inside levels v) fun w v => w.heap.Knows v := by
  induction levels generalizing v w₀ with
  | zero => exact .pure fun w _ ext => ext.heap.knows known
  | succ levels ih =>
    unfold wrap
    exact (hi w₀ v known).bind fun x w _ _ hx => ih hx

mutual

/-- A term makes containers and has a value that was made. -/
theorem keeps_eval (t : Term) (w₀ : World) :
    Act.Keeps licence w₀ t.eval fun w v => w.heap.Knows v := by
  match t with
  | .document d =>
    unfold eval
    exact Act.keeps_onHeap fun w _ _ => Heap.edited_load w.heap d
  | .array items =>
    unfold eval
    exact (keeps_evalAll items w₀).bind fun vs w _ _ known => keeps_newList known
  | .object entries =>
    unfold eval
    exact (keeps_evalEntries entries w₀).bind fun es w _ _ known => keeps_newMap known
  | .handle name segments =>
    unfold eval
    apply Act.keeps_get.bind
    rintro s w _ _ ⟨sound, rfl⟩
    apply (Act.keeps_found fun v hv => sound.value? hv).bind
    intro v w' _ ext known
    exact keeps_follow (ext.heap.knows known) segments
  | .argument segments =>
    unfold eval
    apply Act.keeps_read.bind
    intro c w _ _ known
    apply (Act.keeps_found fun v hv => known v hv).bind
    intro v w' _ ext known
    exact keeps_follow (ext.heap.knows known) segments
  | .property viewModel name =>
    unfold eval
    apply Act.keeps_viewModel.bind
    intro vm w _ _ _
    apply Act.keeps_onWorld
    intro w sound _
    simp only [World.get, World.depend_of_none sound.collector]
    exact ⟨.refl _, World.knows_readProperty sound.closed _ _⟩
  | .evaluation viewModel expression =>
    unfold eval
    apply Act.keeps_viewModel.bind
    intro vm w _ _ _
    apply Act.keeps_parse.bind
    intro path w _ _ _
    apply Act.keeps_onWorld
    intro w sound _
    simp only [World.evaluate, World.depend_of_none sound.collector]
    exact ⟨.refl _, World.knows_readPath sound.closed _ _⟩
  | .sum t n =>
    unfold eval
    exact (keeps_eval t w₀).bind fun _ _ _ _ _ => .pure fun _ _ _ => trivial
  | .joined parts =>
    unfold eval
    apply (keeps_evalAll parts w₀).bind
    intro _ w _ _ _
    exact Act.keeps_heap.bind fun _ _ _ _ _ => .pure fun _ _ _ => trivial
  | .nestedMaps levels t =>
    unfold eval
    apply (keeps_eval t w₀).bind
    intro v w _ _ known
    refine keeps_wrap (fun w v hv => keeps_newMap ?_) levels known
    simpa using hv
  | .nestedLists levels t =>
    unfold eval
    apply (keeps_eval t w₀).bind
    intro v w _ _ known
    refine keeps_wrap (fun w v hv => keeps_newList ?_) levels known
    simpa using hv

theorem keeps_evalAll (ts : List Term) (w₀ : World) :
    Act.Keeps licence w₀ (evalAll ts) fun w vs => ∀ v ∈ vs, w.heap.Knows v := by
  match ts with
  | [] =>
    unfold evalAll
    exact .pure fun _ _ _ => by simp
  | t :: rest =>
    unfold evalAll
    apply (keeps_eval t w₀).bind
    intro v w _ _ known
    apply (keeps_evalAll rest w).bind
    intro vs w' _ ext knowns
    refine .pure fun w'' _ ext' => ?_
    intro x hx
    apply ext'.heap.knows
    rcases List.mem_cons.mp hx with rfl | hx
    · exact ext.heap.knows known
    · exact knowns x hx

theorem keeps_evalEntries (es : List (String × Term)) (w₀ : World) :
    Act.Keeps licence w₀ (evalEntries es) fun w vs => ∀ e ∈ vs, w.heap.Knows e.2 := by
  match es with
  | [] =>
    unfold evalEntries
    exact .pure fun _ _ _ => by simp
  | (key, t) :: rest =>
    unfold evalEntries
    apply (keeps_eval t w₀).bind
    intro v w _ _ known
    apply (keeps_evalEntries rest w).bind
    intro vs w' _ ext knowns
    refine .pure fun w'' _ ext' => ?_
    intro x hx
    apply ext'.heap.knows
    rcases List.mem_cons.mp hx with rfl | hx
    · exact ext.heap.knows known
    · exact knowns x hx

end

theorem keeps_evalMap (t : Term) :
    Act.Keeps licence w₀ t.evalMap fun w m => w.heap.Knows (.map m) := by
  unfold evalMap
  apply (keeps_eval t w₀).bind
  intro v w _ _ known
  split
  · exact .pure fun w' _ ext => ext.heap.knows known
  · exact .fail

theorem keeps_evalList (t : Term) :
    Act.Keeps licence w₀ t.evalList fun w l => w.heap.Knows (.list l) := by
  unfold evalList
  apply (keeps_eval t w₀).bind
  intro v w _ _ known
  split
  · exact .pure fun w' _ ext => ext.heap.knows known
  · exact .fail

end Term

theorem RegistryTerm.keeps_eval (d : RegistryTerm) :
    Act.Keeps licence w₀ d.eval fun _ _ => True := by
  unfold RegistryTerm.eval
  cases d
  case' handle name =>
    apply Act.keeps_get.bind
    intro s w _ _ _
    apply (Act.keeps_found (P := fun _ => True) fun _ _ => trivial).bind
    intro r w _ _ _
  case' slot t key =>
    apply t.keeps_evalMap.bind
    intro m w _ _ _
  case' list t =>
    apply t.keeps_evalList.bind
    intro l w _ _ _
  -- whatever registry the term names, it is looked up
  all_goals
    apply Act.Keeps.bind (Q := fun _ _ => True) (.pure fun _ _ _ => trivial)
    intro registry w _ _ _
    apply Act.keeps_heap.bind
    intro h w _ _ _
    split
    · exact .pure fun _ _ _ => trivial
    · exact .fail

end DataBinding
