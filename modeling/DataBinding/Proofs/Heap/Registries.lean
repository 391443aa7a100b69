-- What becomes of a registry. An edit never takes a watcher out of one: a registry stays as it is, is
-- newly there and empty, or goes away with its container. Only a registration puts a watcher in, at
-- the end and once, and shows nowhere else.
import DataBinding.Proofs.Heap.Edits

namespace DataBinding.Heap

/-! ## Registries that stay -/

/-- The container of a registry was made and released. -/
def Gone (h : Heap) : Registry → Prop
  | .slot m _ => m.index < h.maps.size ∧ h.map? m = none
  | .list l => l.index < h.lists.size ∧ h.list? l = none
  | .free _ => False

theorem watchers?_of_gone {h : Heap} {r : Registry} (gone : h.Gone r) : h.watchers? r = none := by
  cases r with
  | slot m key => simp [watchers?, lookup?, gone.2]
  | list l => simp [watchers?, gone.2]
  | free _ => exact gone.elim

/-- Every registry stays, is newly there, or is gone. -/
structure KeepsRegistries (h h' : Heap) : Prop where
  kept : ∀ r, h'.watchers? r = h.watchers? r ∨
    (h.watchers? r = none ∧ ¬h.Gone r ∧ h'.watchers? r = some []) ∨ h'.Gone r
  gone : ∀ r, h.Gone r → h'.Gone r

theorem KeepsRegistries.refl (h : Heap) : KeepsRegistries h h := ⟨fun _ => .inl rfl, fun _ => id⟩

theorem KeepsRegistries.trans {h₁ h₂ h₃ : Heap} (a : KeepsRegistries h₁ h₂)
    (b : KeepsRegistries h₂ h₃) : KeepsRegistries h₁ h₃ := by
  refine ⟨?_, fun r hr => b.gone r (a.gone r hr)⟩
  intro r
  rcases b.kept r with hb | ⟨none₂, there₂, hb⟩ | hb
  · rw [hb]
    rcases a.kept r with ha | ha | ha
    · exact .inl ha
    · exact .inr (.inl ha)
    · exact .inr (.inr (b.gone r ha))
  · rcases a.kept r with ha | ⟨_, _, ha⟩ | ha
    · exact .inr (.inl ⟨ha ▸ none₂, fun hr => there₂ (a.gone r hr), hb⟩)
    · rw [ha] at none₂
      cases none₂
    · exact absurd ha there₂
  · exact .inr (.inr hb)

/-- Who is in a registry afterwards was in it before. -/
theorem KeepsRegistries.mem {h h' : Heap} (keeps : KeepsRegistries h h') {r : Registry}
    {ws : List WatcherId} {id : WatcherId} (hws : h'.watchers? r = some ws) (hid : id ∈ ws) :
    h.watchers? r = some ws := by
  rcases keeps.kept r with e | ⟨_, _, e⟩ | gone
  · exact e ▸ hws
  · rw [e] at hws
    cases hws
    cases hid
  · rw [watchers?_of_gone gone] at hws
    cases hws

@[simp]
theorem registries_changeMap (h : Heap) (m : MapId) (f : MapCell → MapCell) :
    (h.changeMap m f).registries = h.registries := by
  unfold changeMap
  split <;> rfl

@[simp]
theorem registries_changeList (h : Heap) (l : ListId) (f : ListCell → ListCell) :
    (h.changeList l f).registries = h.registries := by
  unfold changeList
  split <;> rfl

theorem gone_changeMap {h : Heap} {r : Registry} (gone : h.Gone r) (m : MapId)
    (f : MapCell → MapCell) : (h.changeMap m f).Gone r := by
  cases r with
  | slot other key =>
    refine ⟨by simpa using gone.1, ?_⟩
    rw [map?_changeMap]
    split
    · rename_i e
      rw [← e, gone.2]
      rfl
    · exact gone.2
  | list l => exact ⟨by simpa using gone.1, by simpa using gone.2⟩
  | free _ => exact gone.elim

theorem gone_changeList {h : Heap} {r : Registry} (gone : h.Gone r) (l : ListId)
    (f : ListCell → ListCell) : (h.changeList l f).Gone r := by
  cases r with
  | slot m key => exact ⟨by simpa using gone.1, by simpa using gone.2⟩
  | list other =>
    refine ⟨by simpa using gone.1, ?_⟩
    rw [list?_changeList]
    split
    · rename_i e
      rw [← e, gone.2]
      rfl
    · exact gone.2
  | free _ => exact gone.elim

theorem keepsRegistries_changeMap (h : Heap) (m : MapId) {f : MapCell → MapCell}
    (hf : ∀ c key, ((f c).lookup? key).bind (·.watchers) = (c.lookup? key).bind (·.watchers) ∨
      (c.lookup? key).bind (·.watchers) = none ∧
        ((f c).lookup? key).bind (·.watchers) = some []) :
    KeepsRegistries h (h.changeMap m f) := by
  refine ⟨?_, fun r gone => gone_changeMap gone m f⟩
  intro r
  cases r with
  | slot other key =>
    simp only [watchers?, lookup?_changeMap]
    split
    · rename_i ho
      subst ho
      rcases hm : h.map? other with _ | c
      · simp [lookup?, hm]
      · simp only [lookup?, hm, Option.bind_some]
        rcases hf c key with e | ⟨none₀, e⟩
        · exact .inl e
        · exact .inr (.inl ⟨none₀, fun gone => absurd gone.2 (by simp [hm]), e⟩)
    · exact .inl rfl
  | list l => simp [watchers?]
  | free r => simp [watchers?]

theorem keepsRegistries_changeList (h : Heap) (l : ListId) {f : ListCell → ListCell}
    (hf : ∀ c, (f c).watchers = c.watchers) : KeepsRegistries h (h.changeList l f) := by
  refine ⟨?_, fun r gone => gone_changeList gone l f⟩
  intro r
  left
  cases r with
  | slot m key => simp [watchers?]
  | list other =>
    simp only [watchers?, list?_changeList]
    split
    · rename_i ho
      subst ho
      rcases h.list? other with _ | c
      · rfl
      · simp [hf]
    · rfl
  | free r => simp [watchers?]

theorem ObservedFrom.keepsRegistries {h h' : Heap} (o : ObservedFrom h h') :
    KeepsRegistries h h' := by
  constructor
  · intro r
    cases r with
    | slot m key =>
      simp only [watchers?]
      rcases o.maps m with e | ⟨c, hc, _, e⟩
      · simp [Heap.lookup?, e]
      · simp only [Heap.lookup?, e, hc, Option.bind_some, MapCell.lookup?_slotted]
        rcases c.lookup? key with _ | ⟨k, v, _ | ws⟩
        · simp
        · exact .inr (.inl ⟨rfl, fun gone => absurd gone.2 (by simp [hc]), rfl⟩)
        · exact .inl rfl
    | list l =>
      left
      simp only [watchers?]
      rcases o.lists l with e | ⟨c, hc, _, e⟩
      · rw [e]
      · rw [e, hc]
        rfl
    | free r => exact .inl (by simp [watchers?, o.registries])
  · intro r gone
    cases r with
    | slot m key => exact ⟨o.size_maps ▸ gone.1, (o.map?_eq_none m).mpr gone.2⟩
    | list l => exact ⟨o.size_lists ▸ gone.1, (o.list?_eq_none l).mpr gone.2⟩
    | free _ => exact gone.elim

theorem keepsRegistries_store (h : Heap) (m : MapId) (key : String) (v : Value) :
    KeepsRegistries h (h.changeMap m (·.store key v)) := by
  apply keepsRegistries_changeMap
  intro c other
  left
  rw [MapCell.lookup?_store]
  split
  · rename_i e
    rw [e]
    rfl
  · rfl

theorem keepsRegistries_install (h : Heap) (m : MapId) (key : String) (v : Value) :
    KeepsRegistries h (h.changeMap m (·.install key v)) := by
  apply keepsRegistries_changeMap
  intro c other
  rw [MapCell.lookup?_install]
  split
  · rename_i e
    rw [e]
    rcases (c.lookup? key).bind (·.watchers) with _ | ws
    · exact .inr ⟨rfl, rfl⟩
    · exact .inl rfl
  · exact .inl rfl

theorem keepsRegistries_newMap (h : Heap) (entries : List (String × Value)) :
    KeepsRegistries h (h.newMap entries).1 := by
  constructor
  · intro r
    cases r with
    | slot m key =>
      simp only [watchers?, lookup?, map?_newMap]
      split
      · rename_i hm
        left
        have fresh : h.map? m = none := by simp [map?, hm]
        simp only [fresh, Option.bind_some, Option.bind_none, Option.bind_eq_none_iff]
        intro e he
        exact watchers_of_fresh (by simp [MapCell.lookup?, MapCell.ofEntries]) he
      · exact .inl rfl
    | list l => exact .inl rfl
    | free r => exact .inl rfl
  · intro r gone
    cases r with
    | slot m key =>
      have hlt := gone.1
      refine ⟨by simp only [newMap, Array.size_push]; omega, ?_⟩
      rw [map?_newMap, if_neg (by omega)]
      exact gone.2
    | list l => exact gone
    | free _ => exact gone.elim

theorem keepsRegistries_newList (h : Heap) (items : List Value) :
    KeepsRegistries h (h.newList items).1 := by
  constructor
  · intro r
    cases r with
    | slot m key => exact .inl rfl
    | list l =>
      simp only [watchers?, list?_newList]
      split
      · rename_i hl
        have fresh : h.list? l = none := by simp [list?, hl]
        refine .inr (.inl ⟨by simp [fresh], fun gone => ?_, rfl⟩)
        have := gone.1
        omega
      · exact .inl rfl
    | free r => exact .inl rfl
  · intro r gone
    cases r with
    | slot m key => exact gone
    | list l =>
      have hlt := gone.1
      refine ⟨by simp only [newList, Array.size_push]; omega, ?_⟩
      rw [list?_newList, if_neg (by omega)]
      exact gone.2
    | free _ => exact gone.elim

theorem keepsRegistries_newRegistry (h : Heap) : KeepsRegistries h h.newRegistry.1 := by
  refine ⟨?_, fun r gone => by cases r <;> exact gone⟩
  intro r
  cases r with
  | slot m key => exact .inl rfl
  | list l => exact .inl rfl
  | free r =>
    simp only [watchers?, newRegistry, Array.getElem?_push]
    split
    · rename_i hr
      exact .inr (.inl ⟨by simp [hr], id, rfl⟩)
    · exact .inl rfl

/-- No edit but a registration puts a watcher into a registry. -/
theorem keepsRegistries_apply (h : Heap) {e : Edit} (quiet : ¬e.Registers) :
    KeepsRegistries h (e.apply h).1 := by
  cases e with
  | newMap entries => exact keepsRegistries_newMap h entries
  | newList items => exact keepsRegistries_newList h items
  | newRegistry => exact keepsRegistries_newRegistry h
  | observe v => exact (observedFrom_observe h v).keepsRegistries
  | set m key v =>
    rcases h.set_cases m key v with ⟨_, _, _, _, e⟩ | ⟨_, _, _, _, e⟩ | ⟨_, e⟩
    · simp only [Edit.apply, e]
      exact .refl h
    · simp only [Edit.apply, e]
      exact (observedFrom_observe h v).keepsRegistries.trans (keepsRegistries_store _ m key v)
    · simp only [Edit.apply, e]
      exact keepsRegistries_store h m key v
  | define m key v =>
    exact (observedFrom_observe h v).keepsRegistries.trans (keepsRegistries_install _ m key v)
  | mutate l items inserted =>
    have stored : KeepsRegistries h (h.changeList l ({ · with items })) :=
      keepsRegistries_changeList h l fun _ => rfl
    rcases h.mutate_cases l items inserted with ⟨_, e⟩ | ⟨_, _, _, e⟩ | ⟨_, _, _, e⟩
    · simp only [Edit.apply, e]
      exact .refl h
    · simp only [Edit.apply, e]
      exact stored.trans (observedFrom_observeAll _ _).keepsRegistries
    · simpa only [Edit.apply, e] using stored
  | place l position v => exact keepsRegistries_changeList h l fun _ => rfl
  | register id r => exact absurd trivial quiet

/-! ## Release -/

/-- Each cell is as it was, or it is freed. -/
structure ReleasedFrom (h h' : Heap) : Prop where
  maps : ∀ m, h'.map? m = h.map? m ∨ h'.map? m = none
  lists : ∀ l, h'.list? l = h.list? l ∨ h'.list? l = none
  size_maps : h'.maps.size = h.maps.size
  size_lists : h'.lists.size = h.lists.size
  registries : h'.registries = h.registries

theorem size_maps_free (h : Heap) (c : Container) : (h.free c).maps.size = h.maps.size := by
  cases c <;> simp [free]

theorem size_lists_free (h : Heap) (c : Container) : (h.free c).lists.size = h.lists.size := by
  cases c <;> simp [free]

theorem releasedFrom_releaseAll (h : Heap) (counts : HoldCounts) (pending : List Container) :
    ReleasedFrom h (h.releaseAll counts pending) := by
  refine ⟨h.map?_releaseAll counts pending, h.list?_releaseAll counts pending, ?_, ?_, ?_⟩
  · fun_induction releaseAll h counts pending with
    | case1 => rfl
    | case2 h _ c _ _ _ ih => rw [ih, size_maps_free]
    | case3 _ _ _ _ _ ih => exact ih
  · fun_induction releaseAll h counts pending with
    | case1 => rfl
    | case2 h _ c _ _ _ ih => rw [ih, size_lists_free]
    | case3 _ _ _ _ _ ih => exact ih
  · fun_induction releaseAll h counts pending with
    | case1 => rfl
    | case2 h _ c _ _ _ ih =>
      rw [ih]
      cases c <;> rfl
    | case3 _ _ _ _ _ ih => exact ih

theorem releasedFrom_release (h : Heap) (held : List Value) : ReleasedFrom h (h.release held) :=
  releasedFrom_releaseAll h _ _

theorem ReleasedFrom.extends {h h' : Heap} (f : ReleasedFrom h h') : h'.Extends h :=
  extends_of_sizes f.size_maps f.size_lists

namespace ReleasedFrom

variable {h h' : Heap}

theorem refl (h : Heap) : ReleasedFrom h h :=
  ⟨fun _ => .inl rfl, fun _ => .inl rfl, rfl, rfl, rfl⟩

theorem map? (f : ReleasedFrom h h') {m : MapId} {c : MapCell} (hc : h'.map? m = some c) :
    h.map? m = some c := by
  rcases f.maps m with e | e
  · exact e ▸ hc
  · rw [e] at hc
    cases hc

theorem list? (f : ReleasedFrom h h') {l : ListId} {c : ListCell} (hc : h'.list? l = some c) :
    h.list? l = some c := by
  rcases f.lists l with e | e
  · exact e ▸ hc
  · rw [e] at hc
    cases hc

theorem closed (f : ReleasedFrom h h') (closed : h.Closed) : h'.Closed :=
  ⟨fun m c hc v hv => f.extends.knows (closed.maps m c (f.map? hc) v hv),
    fun l c hc v hv => f.extends.knows (closed.lists l c (f.list? hc) v hv)⟩

theorem keepsRegistries (f : ReleasedFrom h h') : KeepsRegistries h h' := by
  constructor
  · intro r
    cases r with
    | slot m key =>
      rcases f.maps m with e | e
      · exact .inl (by simp [watchers?, lookup?, e])
      · rcases hm : h.map? m with _ | c
        · exact .inl (by simp [watchers?, lookup?, e, hm])
        · exact .inr (.inr ⟨f.size_maps ▸ index_lt_of_map? hm, e⟩)
    | list l =>
      rcases f.lists l with e | e
      · exact .inl (by simp [watchers?, e])
      · rcases hl : h.list? l with _ | c
        · exact .inl (by simp [watchers?, e, hl])
        · exact .inr (.inr ⟨f.size_lists ▸ index_lt_of_list? hl, e⟩)
    | free r => exact .inl (by simp [watchers?, f.registries])
  · intro r gone
    cases r with
    | slot m key =>
      refine ⟨f.size_maps ▸ gone.1, ?_⟩
      rcases f.maps m with e | e
      · rw [e]
        exact gone.2
      · exact e
    | list l =>
      refine ⟨f.size_lists ▸ gone.1, ?_⟩
      rcases f.lists l with e | e
      · rw [e]
        exact gone.2
      · exact e
    | free _ => exact gone.elim

end ReleasedFrom

end DataBinding.Heap
