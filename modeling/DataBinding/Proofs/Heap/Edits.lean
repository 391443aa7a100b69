-- Edits: the operations that change a heap, as data. An edit says what it puts into the heap and
-- whom it owes a turn. What every edit keeps holds along every list of edits: a heap names only
-- containers that were made before, and its slots hold observed values.
import DataBinding.Proofs.Heap.Observation

namespace DataBinding

/-! ## Edits -/

/-- One change of a heap. -/
inductive Edit where
  | newMap (entries : List (String × Value))
  | newList (items : List Value)
  | newRegistry
  | observe (v : Value)
  | set (m : MapId) (key : String) (v : Value)
  | define (m : MapId) (key : String) (v : Value)
  | mutate (l : ListId) (items inserted : List Value)
  | place (l : ListId) (position : Nat) (v : Value)
  | register (id : WatcherId) (r : Registry)

namespace Edit

/-- The heap after an edit and the watchers that are owed a turn. -/
def apply (h : Heap) : Edit → Heap × List WatcherId
  | .newMap entries => ((h.newMap entries).1, [])
  | .newList items => ((h.newList items).1, [])
  | .newRegistry => (h.newRegistry.1, [])
  | .observe v => (h.observe v, [])
  | .set m key v => h.set m key v
  | .define m key v => (h.define m key v, [])
  | .mutate l items inserted => h.mutate l items inserted
  | .place l position v => (h.setItem l position v, [])
  | .register id r => (h.register id r, [])

/-- The values that an edit puts into the heap. -/
def values : Edit → List Value
  | .newMap entries => entries.map (·.2)
  | .newList items => items
  | .set _ _ v => [v]
  | .define _ _ v => [v]
  | .mutate _ items _ => items
  | .place _ _ v => [v]
  | .newRegistry | .observe _ | .register _ _ => []

/-- Whether an edit registers a watcher, outside the walk of a new one. -/
def Registers : Edit → Prop
  | .register _ _ => True
  | _ => False

/-- Whether an edit defines a key that is a slot already. -/
def Redefines (h : Heap) : Edit → Prop
  | .define m key _ => h.isSlot m key = true
  | _ => False

/-- Whether an edit writes to a position of a list. -/
def Places : Edit → Prop
  | .place _ _ _ => True
  | _ => False

end Edit

namespace Heap

/-! ## The cases of an operation -/

theorem set_cases (h : Heap) (m : MapId) (key : String) (v : Value) :
    (∃ old ws, h.lookup? m key = some ⟨key, old, some ws⟩ ∧ old.same v = true ∧
      h.set m key v = (h, [])) ∨
    (∃ old ws, h.lookup? m key = some ⟨key, old, some ws⟩ ∧ old.same v = false ∧
      h.set m key v = ((h.observe v).changeMap m (·.store key v), ws)) ∨
    (h.isSlot m key = false ∧ h.set m key v = (h.changeMap m (·.store key v), [])) := by
  rcases he : h.lookup? m key with _ | ⟨k, old, _ | ws⟩
  · exact .inr (.inr ⟨by simp [isSlot, he], by simp [set, he]⟩)
  · exact .inr (.inr ⟨by simp [isSlot, he], by simp [set, he]⟩)
  · obtain ⟨c, _, hc⟩ := lookup?_eq_some_iff.mp he
    have hk : k = key := MapCell.key_of_lookup? hc
    subst hk
    rcases hsame : old.same v with _ | _
    · exact .inr (.inl ⟨old, ws, rfl, hsame, by simp [set, he, hsame]⟩)
    · exact .inl ⟨old, ws, rfl, hsame, by simp [set, he, hsame]⟩

theorem mutate_cases (h : Heap) (l : ListId) (items inserted : List Value) :
    (h.list? l = none ∧ h.mutate l items inserted = (h, [])) ∨
    (∃ c, h.list? l = some c ∧ c.observed = true ∧ h.mutate l items inserted =
      ((h.changeList l ({ · with items })).observeAll inserted, c.watchers)) ∨
    (∃ c, h.list? l = some c ∧ c.observed = false ∧ h.mutate l items inserted =
      (h.changeList l ({ · with items }), [])) := by
  rcases hl : h.list? l with _ | c
  · exact .inl ⟨rfl, by simp [mutate, hl]⟩
  · rcases ho : c.observed with _ | _
    · exact .inr (.inr ⟨c, rfl, ho, by simp [mutate, hl, ho, changeList]⟩)
    · exact .inr (.inl ⟨c, rfl, ho, by simp [mutate, hl, ho, changeList]⟩)

theorem attach_eq (h : Heap) (m : MapId) (key : String) (v : Value) :
    h.attach m key v = (Edit.set m key v).apply h ∨
      (h.isSlot m key = false ∧ h.attach m key v = (Edit.define m key v).apply h) := by
  unfold attach
  rcases hs : h.isSlot m key with _ | _
  · exact .inr ⟨rfl, rfl⟩
  · exact .inl rfl

/-! ## Sizes -/

/-- A heap has all cells of another one. -/
structure Extends (h' h : Heap) : Prop where
  maps : h.maps.size ≤ h'.maps.size
  lists : h.lists.size ≤ h'.lists.size

theorem Extends.refl (h : Heap) : h.Extends h := ⟨Nat.le_refl _, Nat.le_refl _⟩

theorem Extends.trans {h₁ h₂ h₃ : Heap} (b : h₃.Extends h₂) (a : h₂.Extends h₁) : h₃.Extends h₁ :=
  ⟨Nat.le_trans a.maps b.maps, Nat.le_trans a.lists b.lists⟩

theorem extends_of_sizes {h h' : Heap} (hm : h'.maps.size = h.maps.size)
    (hl : h'.lists.size = h.lists.size) : h'.Extends h :=
  ⟨Nat.le_of_eq hm.symm, Nat.le_of_eq hl.symm⟩

theorem ObservedFrom.extends {h h' : Heap} (o : ObservedFrom h h') : h'.Extends h :=
  extends_of_sizes o.size_maps o.size_lists

theorem extends_changeMap (h : Heap) (m : MapId) (f : MapCell → MapCell) :
    (h.changeMap m f).Extends h := extends_of_sizes (by simp) (by simp)

theorem extends_changeList (h : Heap) (l : ListId) (f : ListCell → ListCell) :
    (h.changeList l f).Extends h := extends_of_sizes (by simp) (by simp)

theorem extends_register (h : Heap) (id : WatcherId) (r : Registry) :
    (h.register id r).Extends h := by
  cases r with
  | slot m key => exact extends_changeMap h m _
  | list l => exact extends_changeList h l _
  | free _ => exact ⟨Nat.le_refl _, Nat.le_refl _⟩

theorem extends_apply (h : Heap) (e : Edit) : (e.apply h).1.Extends h := by
  cases e with
  | newMap entries => exact ⟨by simp [Edit.apply, newMap], Nat.le_refl _⟩
  | newList items => exact ⟨Nat.le_refl _, by simp [Edit.apply, newList]⟩
  | newRegistry => exact ⟨Nat.le_refl _, Nat.le_refl _⟩
  | observe v => exact (observedFrom_observe h v).extends
  | set m key v =>
    rcases h.set_cases m key v with ⟨_, _, _, _, e⟩ | ⟨_, _, _, _, e⟩ | ⟨_, e⟩
    · simp only [Edit.apply, e]
      exact .refl h
    · simp only [Edit.apply, e]
      exact (extends_changeMap _ m _).trans (observedFrom_observe h v).extends
    · simp only [Edit.apply, e]
      exact extends_changeMap h m _
  | define m key v => exact (extends_changeMap _ m _).trans (observedFrom_observe h v).extends
  | mutate l items inserted =>
    rcases h.mutate_cases l items inserted with ⟨_, e⟩ | ⟨_, _, _, e⟩ | ⟨_, _, _, e⟩
    · simp only [Edit.apply, e]
      exact .refl h
    · simp only [Edit.apply, e]
      exact (observedFrom_observeAll _ _).extends.trans (extends_changeList h l _)
    · simp only [Edit.apply, e]
      exact extends_changeList h l _
  | place l position v => exact extends_changeList h l _
  | register id r => exact extends_register h id r

/-! ## Known values -/

/-- A value is a scalar or a container that was made at some time. -/
def Knows (h : Heap) : Value → Prop
  | .map m => m.index < h.maps.size
  | .list l => l.index < h.lists.size
  | _ => True

theorem Extends.knows {h h' : Heap} (ext : h'.Extends h) {v : Value} (hv : h.Knows v) :
    h'.Knows v := by
  cases v with
  | map m => exact Nat.lt_of_lt_of_le hv ext.maps
  | list l => exact Nat.lt_of_lt_of_le hv ext.lists
  | null | bool _ | number _ | text _ => trivial

/-- All that the containers of a heap hold is known to it. -/
structure Closed (h : Heap) : Prop where
  maps : ∀ m c, h.map? m = some c → ∀ v ∈ c.contents, h.Knows v
  lists : ∀ l c, h.list? l = some c → ∀ v ∈ c.items, h.Knows v

theorem Closed.lookup? {h : Heap} (closed : h.Closed) {m : MapId} {key : String} {e : Entry}
    (he : h.lookup? m key = some e) : h.Knows e.value := by
  obtain ⟨c, hc, he⟩ := lookup?_eq_some_iff.mp he
  exact closed.maps m c hc _ (MapCell.mem_contents_of_lookup? he)

theorem Closed.items {h : Heap} (closed : h.Closed) {l : ListId} {v : Value}
    (hv : v ∈ h.items l) : h.Knows v := by
  rcases hl : h.list? l with _ | c
  · simp [Heap.items, hl] at hv
  · exact closed.lists l c hl v (by simpa [Heap.items, hl] using hv)

theorem ObservedFrom.closed {h h' : Heap} (o : ObservedFrom h h') (closed : h.Closed) :
    h'.Closed := by
  constructor
  · intro m c' hc' v hv
    obtain ⟨c, hc, e⟩ := o.contents_map hc'
    exact o.extends.knows (closed.maps m c hc v (e ▸ hv))
  · intro l c' hc' v hv
    apply o.extends.knows
    rcases o.lists l with e | ⟨c, hc, _, e⟩
    · exact closed.lists l c' (e ▸ hc') v hv
    · rw [e] at hc'
      cases hc'
      exact closed.lists l c hc v hv

theorem closed_changeMap {h : Heap} (closed : h.Closed) {m : MapId} {f : MapCell → MapCell}
    {v : Value} (known : h.Knows v) (hf : ∀ c, ∀ x ∈ (f c).contents, x ∈ c.contents ∨ x = v) :
    (h.changeMap m f).Closed := by
  constructor
  · intro other c' hc' x hx
    apply (extends_changeMap h m f).knows
    rw [map?_changeMap] at hc'
    split at hc'
    · obtain ⟨c, hc, rfl⟩ := Option.map_eq_some_iff.mp hc'
      rcases hf c x hx with hx | rfl
      · exact closed.maps m c hc x hx
      · exact known
    · exact closed.maps other c' hc' x hx
  · intro l c hc x hx
    exact (extends_changeMap h m f).knows (closed.lists l c (by simpa using hc) x hx)

theorem closed_changeList {h : Heap} (closed : h.Closed) {l : ListId} {f : ListCell → ListCell}
    (hf : ∀ c, h.list? l = some c → ∀ x ∈ (f c).items, h.Knows x) : (h.changeList l f).Closed := by
  constructor
  · intro m c hc x hx
    exact (extends_changeList h l f).knows (closed.maps m c (by simpa using hc) x hx)
  · intro other c' hc' x hx
    apply (extends_changeList h l f).knows
    rw [list?_changeList] at hc'
    split at hc'
    · obtain ⟨c, hc, rfl⟩ := Option.map_eq_some_iff.mp hc'
      exact hf c hc x hx
    · exact closed.lists other c' hc' x hx

theorem closed_newMap {h : Heap} (closed : h.Closed) {entries : List (String × Value)}
    (known : ∀ e ∈ entries, h.Knows e.2) : (h.newMap entries).1.Closed := by
  have ext : (h.newMap entries).1.Extends h := extends_apply h (.newMap entries)
  constructor
  · intro m c hc x hx
    apply ext.knows
    rw [map?_newMap] at hc
    split at hc
    · simp only [Option.some.injEq] at hc
      subst hc
      rcases contents_of_fresh hx with hx | ⟨e, he, rfl⟩
      · simp [MapCell.ofEntries, MapCell.contents] at hx
      · exact known e he
    · exact closed.maps m c hc x hx
  · intro l c hc x hx
    exact ext.knows (closed.lists l c hc x hx)

theorem closed_newList {h : Heap} (closed : h.Closed) {items : List Value}
    (known : ∀ v ∈ items, h.Knows v) : (h.newList items).1.Closed := by
  have ext : (h.newList items).1.Extends h := extends_apply h (.newList items)
  constructor
  · intro m c hc x hx
    exact ext.knows (closed.maps m c hc x hx)
  · intro l c hc x hx
    apply ext.knows
    rw [list?_newList] at hc
    split at hc
    · simp only [Option.some.injEq] at hc
      subst hc
      exact known x hx
    · exact closed.lists l c hc x hx

theorem closed_register {h : Heap} (closed : h.Closed) (id : WatcherId) (r : Registry) :
    (h.register id r).Closed := by
  cases r with
  | slot m key =>
    exact closed_changeMap (v := .null) closed trivial fun c x hx =>
      .inl (MapCell.contents_enlist c key id ▸ hx)
  | list l => exact closed_changeList closed fun c hc x hx => closed.lists l c hc x hx
  | free _ => exact ⟨closed.maps, closed.lists⟩

/-- A heap that stores known values only stays closed. -/
theorem closed_apply {h : Heap} (closed : h.Closed) (e : Edit) (known : ∀ v ∈ e.values, h.Knows v) :
    (e.apply h).1.Closed := by
  have store {h : Heap} (closed : h.Closed) (m : MapId) (key : String) {v : Value}
      (hv : h.Knows v) : (h.changeMap m (·.store key v)).Closed :=
    closed_changeMap closed hv fun c x hx => MapCell.mem_contents_alter (fun _ => rfl) rfl hx
  cases e with
  | newMap entries =>
    exact closed_newMap closed fun e he => known e.2 (List.mem_map.mpr ⟨e, he, rfl⟩)
  | newList items => exact closed_newList closed known
  | newRegistry => exact ⟨closed.maps, closed.lists⟩
  | observe v => exact (observedFrom_observe h v).closed closed
  | set m key v =>
    have hv : h.Knows v := known v (by simp [Edit.values])
    rcases h.set_cases m key v with ⟨_, _, _, _, e⟩ | ⟨_, _, _, _, e⟩ | ⟨_, e⟩
    · simpa only [Edit.apply, e] using closed
    · simp only [Edit.apply, e]
      have o := observedFrom_observe h v
      exact store (o.closed closed) m key (o.extends.knows hv)
    · simp only [Edit.apply, e]
      exact store closed m key hv
  | define m key v =>
    have o := observedFrom_observe h v
    have hv : (h.observe v).Knows v := o.extends.knows (known v (by simp [Edit.values]))
    exact closed_changeMap (o.closed closed) hv fun c x hx =>
      MapCell.mem_contents_alter (fun _ => rfl) rfl hx
  | mutate l items inserted =>
    have stored : (h.changeList l ({ · with items })).Closed :=
      closed_changeList closed fun _ _ => known
    rcases h.mutate_cases l items inserted with ⟨_, e⟩ | ⟨_, _, _, e⟩ | ⟨_, _, _, e⟩
    · simpa only [Edit.apply, e] using closed
    · simp only [Edit.apply, e]
      exact (observedFrom_observeAll _ _).closed stored
    · simpa only [Edit.apply, e] using stored
  | place l position v =>
    apply closed_changeList closed
    intro c hc x hx
    rcases List.mem_or_eq_of_mem_set hx with hx | rfl
    · rcases List.mem_append.mp hx with hx | hx
      · exact closed.lists l c hc x hx
      · rw [List.eq_of_mem_replicate hx]
        trivial
    · exact known x (by simp [Edit.values])
  | register id r => exact closed_register closed id r

end Heap

end DataBinding
