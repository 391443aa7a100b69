-- What an observation leaves. A container that it reaches is marked and its entries become slots; keys,
-- values, items, watchers and every other cell stay. If every slot held observed values before, every
-- slot does so afterwards, and so do the values that were to be observed.
import DataBinding.Proofs.Heap.Entries

namespace DataBinding.Heap

/-! ## The cells after an observation -/

/-- Each cell is as it was, or it is newly marked. -/
structure ObservedFrom (h h' : Heap) : Prop where
  maps : ∀ m, h'.map? m = h.map? m ∨
    ∃ c, h.map? m = some c ∧ c.observed = false ∧ h'.map? m = some c.slotted
  lists : ∀ l, h'.list? l = h.list? l ∨
    ∃ c, h.list? l = some c ∧ c.observed = false ∧ h'.list? l = some { c with observed := true }
  size_maps : h'.maps.size = h.maps.size
  size_lists : h'.lists.size = h.lists.size
  registries : h'.registries = h.registries

theorem ObservedFrom.refl (h : Heap) : ObservedFrom h h :=
  ⟨fun _ => .inl rfl, fun _ => .inl rfl, rfl, rfl, rfl⟩

theorem ObservedFrom.trans {h₁ h₂ h₃ : Heap} (a : ObservedFrom h₁ h₂) (b : ObservedFrom h₂ h₃) :
    ObservedFrom h₁ h₃ := by
  refine ⟨?_, ?_, b.size_maps.trans a.size_maps, b.size_lists.trans a.size_lists,
    b.registries.trans a.registries⟩
  · intro m
    rcases b.maps m with hb | ⟨c, hc, open₂, hb⟩
    · rw [hb]
      exact a.maps m
    · rcases a.maps m with ha | ⟨c', _, _, ha⟩
      · exact .inr ⟨c, ha ▸ hc, open₂, hb⟩
      · -- a cell that was marked just now is not marked again
        rw [ha] at hc
        cases hc
        cases open₂
  · intro l
    rcases b.lists l with hb | ⟨c, hc, open₂, hb⟩
    · rw [hb]
      exact a.lists l
    · rcases a.lists l with ha | ⟨c', _, _, ha⟩
      · exact .inr ⟨c, ha ▸ hc, open₂, hb⟩
      · rw [ha] at hc
        cases hc
        cases open₂

theorem observedFrom_putMap {h : Heap} {m : MapId} {c : MapCell} (hc : h.map? m = some c)
    (unmarked : c.observed = false) : ObservedFrom h (h.putMap m c.slotted) := by
  refine ⟨?_, fun _ => .inl rfl, by simp [putMap], rfl, rfl⟩
  intro other
  by_cases ho : other = m
  · subst ho
    exact .inr ⟨c, hc, unmarked, map?_putMap_self hc⟩
  · exact .inl (map?_putMap_of_ne ho)

theorem observedFrom_putList {h : Heap} {l : ListId} {c : ListCell} (hc : h.list? l = some c)
    (unmarked : c.observed = false) :
    ObservedFrom h (h.putList l { c with observed := true }) := by
  refine ⟨fun _ => .inl rfl, ?_, rfl, by simp [putList], rfl⟩
  intro other
  by_cases ho : other = l
  · subst ho
    exact .inr ⟨c, hc, unmarked, list?_putList_self hc⟩
  · exact .inl (list?_putList_of_ne ho)

theorem observedFrom_observeAll (h : Heap) (pending : List Value) :
    ObservedFrom h (h.observeAll pending) := by
  fun_induction observeAll h pending with
  | case1 h => exact .refl h
  | case2 _ _ _ _ ih => exact ih
  | case3 _ _ _ _ _ _ ih => exact ih
  | case4 _ _ _ _ hc unmarked ih => exact (observedFrom_putMap hc (by simpa using unmarked)).trans ih
  | case5 _ _ _ _ ih => exact ih
  | case6 _ _ _ _ _ _ ih => exact ih
  | case7 _ _ _ _ hc unmarked ih => exact (observedFrom_putList hc (by simpa using unmarked)).trans ih
  | case8 _ _ _ _ _ ih => exact ih

theorem observedFrom_observe (h : Heap) (v : Value) : ObservedFrom h (h.observe v) :=
  observedFrom_observeAll h [v]

namespace ObservedFrom

variable {h h' : Heap}

/-- An entry keeps its key and its value, and its registry if it has one. -/
theorem lookup? (o : ObservedFrom h h') (m : MapId) (key : String) :
    h'.lookup? m key = h.lookup? m key ∨ h'.lookup? m key = (h.lookup? m key).map Entry.slotted := by
  unfold Heap.lookup?
  rcases o.maps m with e | ⟨c, hc, _, e⟩
  · exact .inl (by rw [e])
  · refine .inr ?_
    rw [e, hc]
    exact c.lookup?_slotted key

theorem peek (o : ObservedFrom h h') (m : MapId) (key : String) : h'.peek m key = h.peek m key := by
  unfold Heap.peek
  rcases o.lookup? m key with e | e
  · rw [e]
  · rw [e, Option.map_map]
    rfl

theorem items (o : ObservedFrom h h') (l : ListId) : h'.items l = h.items l := by
  unfold Heap.items
  rcases o.lists l with e | ⟨c, hc, _, e⟩
  · rw [e]
  · rw [e, hc]
    rfl

theorem contents_map (o : ObservedFrom h h') {m : MapId} {c' : MapCell} (hc' : h'.map? m = some c') :
    ∃ c, h.map? m = some c ∧ c'.contents = c.contents := by
  rcases o.maps m with e | ⟨c, hc, _, e⟩
  · exact ⟨c', e ▸ hc', rfl⟩
  · rw [e] at hc'
    cases hc'
    exact ⟨c, hc, c.contents_slotted⟩

/-- The same containers are live. -/
theorem map?_eq_none (o : ObservedFrom h h') (m : MapId) : h'.map? m = none ↔ h.map? m = none := by
  rcases o.maps m with e | ⟨c, hc, _, e⟩
  · rw [e]
  · simp [e, hc]

theorem list?_eq_none (o : ObservedFrom h h') (l : ListId) :
    h'.list? l = none ↔ h.list? l = none := by
  rcases o.lists l with e | ⟨c, hc, _, e⟩
  · rw [e]
  · simp [e, hc]

end ObservedFrom

/-! ## Observed values -/

/-- A value is no live container, or it is a container that is marked. -/
def IsObserved (h : Heap) : Value → Prop
  | .map m => ∀ c, h.map? m = some c → c.observed = true
  | .list l => ∀ c, h.list? l = some c → c.observed = true
  | _ => True

/-- Every slot holds an observed value. -/
def SlotsObserved (h : Heap) : Prop :=
  ∀ m key e, h.lookup? m key = some e → e.watchers.isSome → h.IsObserved e.value

theorem ObservedFrom.isObserved {h h' : Heap} (o : ObservedFrom h h') {v : Value}
    (hv : h.IsObserved v) : h'.IsObserved v := by
  match v with
  | .map m =>
    intro c hc
    rcases o.maps m with e | ⟨c₀, _, _, e⟩
    · exact hv c (e ▸ hc)
    · rw [e] at hc
      cases hc
      rfl
  | .list l =>
    intro c hc
    rcases o.lists l with e | ⟨c₀, _, _, e⟩
    · exact hv c (e ▸ hc)
    · rw [e] at hc
      cases hc
      rfl
  | .null | .bool _ | .number _ | .text _ => trivial

theorem isObserved_of_marked_map {h : Heap} {m : MapId} {c : MapCell} (hc : h.map? m = some c)
    (marked : c.observed = true) : h.IsObserved (.map m) := by
  intro c' hc'
  rw [hc] at hc'
  cases hc'
  exact marked

theorem isObserved_of_marked_list {h : Heap} {l : ListId} {c : ListCell} (hc : h.list? l = some c)
    (marked : c.observed = true) : h.IsObserved (.list l) := by
  intro c' hc'
  rw [hc] at hc'
  cases hc'
  exact marked

theorem isObserved_of_dead_map {h : Heap} {m : MapId} (dead : h.map? m = none) :
    h.IsObserved (.map m) := by
  intro c hc
  rw [dead] at hc
  cases hc

theorem isObserved_of_dead_list {h : Heap} {l : ListId} (dead : h.list? l = none) :
    h.IsObserved (.list l) := by
  intro c hc
  rw [dead] at hc
  cases hc

theorem isObserved_of_scalar (h : Heap) {v : Value} (noMap : ∀ m, v ≠ .map m)
    (noList : ∀ l, v ≠ .list l) : h.IsObserved v := by
  cases v with
  | map m => exact absurd rfl (noMap m)
  | list l => exact absurd rfl (noList l)
  | null | bool _ | number _ | text _ => trivial

/-- All that was to be observed is observed at the end of the walk. -/
theorem isObserved_observeAll (h : Heap) (pending : List Value) :
    ∀ v ∈ pending, (h.observeAll pending).IsObserved v := by
  fun_induction observeAll h pending with
  | case1 => simp
  | case2 h m rest dead ih =>
    have first := isObserved_of_dead_map dead
    exact List.forall_mem_cons.mpr ⟨(observedFrom_observeAll _ _).isObserved first, ih⟩
  | case3 h m rest c hc marked ih =>
    have first := isObserved_of_marked_map hc marked
    exact List.forall_mem_cons.mpr ⟨(observedFrom_observeAll _ _).isObserved first, ih⟩
  | case4 h m rest c hc unmarked ih =>
    have there : (h.putMap m c.slotted).map? m = some c.slotted := map?_putMap_self hc
    have first := isObserved_of_marked_map there rfl
    refine List.forall_mem_cons.mpr ⟨(observedFrom_observeAll _ _).isObserved first, ?_⟩
    exact fun v hv => ih v (List.mem_append_right _ hv)
  | case5 h l rest dead ih =>
    have first := isObserved_of_dead_list dead
    exact List.forall_mem_cons.mpr ⟨(observedFrom_observeAll _ _).isObserved first, ih⟩
  | case6 h l rest c hc marked ih =>
    have first := isObserved_of_marked_list hc marked
    exact List.forall_mem_cons.mpr ⟨(observedFrom_observeAll _ _).isObserved first, ih⟩
  | case7 h l rest c hc unmarked ih =>
    have there : (h.putList l { c with observed := true }).list? l =
        some { c with observed := true } := list?_putList_self hc
    have first := isObserved_of_marked_list there rfl
    refine List.forall_mem_cons.mpr ⟨(observedFrom_observeAll _ _).isObserved first, ?_⟩
    exact fun v hv => ih v (List.mem_append_right _ hv)
  | case8 h v rest noMap noList ih =>
    have first := h.isObserved_of_scalar noMap noList
    exact List.forall_mem_cons.mpr ⟨(observedFrom_observeAll _ _).isObserved first, ih⟩

/-! ## Slots -/

/-- The invariant of the walk: a slot holds an observed value, or one that is still to be observed. -/
def ObservedUpTo (h : Heap) (pending : List Value) : Prop :=
  ∀ m key e, h.lookup? m key = some e → e.watchers.isSome → h.IsObserved e.value ∨ e.value ∈ pending

theorem ObservedUpTo.skip {h : Heap} {v : Value} {rest : List Value} (hv : h.IsObserved v)
    (up : h.ObservedUpTo (v :: rest)) : h.ObservedUpTo rest := by
  intro m key e he hs
  rcases up m key e he hs with ho | hm
  · exact .inl ho
  · rcases List.mem_cons.mp hm with rfl | hm
    · exact .inl hv
    · exact .inr hm

theorem ObservedUpTo.mark_map {h : Heap} {m : MapId} {c : MapCell} {rest : List Value}
    (hc : h.map? m = some c) (unmarked : c.observed = false) (up : h.ObservedUpTo (.map m :: rest)) :
    (h.putMap m c.slotted).ObservedUpTo (c.contents ++ rest) := by
  have o := observedFrom_putMap hc unmarked
  intro other key e he hs
  by_cases ho : other = m
  · subst ho
    rw [Heap.lookup?, map?_putMap_self hc, Option.bind_some] at he
    have := MapCell.mem_contents_of_lookup? he
    exact .inr (List.mem_append_left _ (c.contents_slotted ▸ this))
  · rw [Heap.lookup?, map?_putMap_of_ne ho] at he
    rcases up other key e he hs with hv | hm
    · exact .inl (o.isObserved hv)
    · rcases List.mem_cons.mp hm with hm | hm
      · rw [hm]
        exact .inl (isObserved_of_marked_map (map?_putMap_self hc) rfl)
      · exact .inr (List.mem_append_right _ hm)

theorem ObservedUpTo.mark_list {h : Heap} {l : ListId} {c : ListCell} {rest : List Value}
    (hc : h.list? l = some c) (unmarked : c.observed = false)
    (up : h.ObservedUpTo (.list l :: rest)) :
    (h.putList l { c with observed := true }).ObservedUpTo (c.items ++ rest) := by
  have o := observedFrom_putList hc unmarked
  intro m key e he hs
  rcases up m key e he hs with hv | hm
  · exact .inl (o.isObserved hv)
  · rcases List.mem_cons.mp hm with hm | hm
    · rw [hm]
      exact .inl (isObserved_of_marked_list (list?_putList_self hc) rfl)
    · exact .inr (List.mem_append_right _ hm)

/-- At the end of the walk every slot holds an observed value. -/
theorem slotsObserved_of_upTo (h : Heap) (pending : List Value) (up : h.ObservedUpTo pending) :
    (h.observeAll pending).SlotsObserved := by
  fun_induction observeAll h pending with
  | case1 h =>
    intro m key e he hs
    rcases up m key e he hs with ho | hm
    · exact ho
    · cases hm
  | case2 h m rest dead ih => exact ih (up.skip (isObserved_of_dead_map dead))
  | case3 h m rest c hc marked ih => exact ih (up.skip (isObserved_of_marked_map hc marked))
  | case4 h m rest c hc unmarked ih => exact ih (up.mark_map hc (by simpa using unmarked))
  | case5 h l rest dead ih => exact ih (up.skip (isObserved_of_dead_list dead))
  | case6 h l rest c hc marked ih => exact ih (up.skip (isObserved_of_marked_list hc marked))
  | case7 h l rest c hc unmarked ih => exact ih (up.mark_list hc (by simpa using unmarked))
  | case8 h v rest noMap noList ih => exact ih (up.skip (h.isObserved_of_scalar noMap noList))

theorem slotsObserved_observeAll {h : Heap} (hs : h.SlotsObserved) (pending : List Value) :
    (h.observeAll pending).SlotsObserved :=
  slotsObserved_of_upTo h pending fun m key e he hw => .inl (hs m key e he hw)

theorem isObserved_observe (h : Heap) (v : Value) : (h.observe v).IsObserved v :=
  isObserved_observeAll h [v] v (List.mem_singleton_self v)

end DataBinding.Heap
