-- How far an observation spreads. It marks the containers that a value reaches through containers that
-- were not observed, whatever circles they form, and it marks no other one. The cells of a heap
-- after it are known exactly, so to observe twice is to observe once, and the order of two
-- observations does not matter.
import DataBinding.Proofs.Heap.Registries

namespace DataBinding.Heap

/-! ## Marks -/

/-- Whether a live container is marked as observed. -/
def mark? (h : Heap) : Container → Option Bool
  | .map m => (h.map? m).map (·.observed)
  | .list l => (h.list? l).map (·.observed)

/-- A value leads to a container if it is the container or one of its contents leads there, and all
containers on the way are live and not observed, the first and the last included. -/
inductive OpenTo (h : Heap) : Value → Container → Prop where
  | here {v : Value} {c : Container} (is : v.container? = some c) (unmarked : h.mark? c = some false) :
      OpenTo h v c
  | through {v x : Value} {c d : Container} (is : v.container? = some c)
      (unmarked : h.mark? c = some false) (held : x ∈ h.contents c) (rest : OpenTo h x d) : OpenTo h v d

theorem OpenTo.unmarked {h : Heap} {v : Value} {c : Container} (leads : h.OpenTo v c) :
    h.mark? c = some false := by
  induction leads with
  | here _ unmarked => exact unmarked
  | through _ _ _ _ ih => exact ih

theorem isObserved_iff {h : Heap} {v : Value} :
    h.IsObserved v ↔ ∀ c, v.container? = some c → h.mark? c ≠ some false := by
  cases v with
  | map m =>
    simp only [IsObserved, Value.container?, Option.some.injEq, forall_eq', mark?]
    rcases h.map? m with _ | c <;> simp
  | list l =>
    simp only [IsObserved, Value.container?, Option.some.injEq, forall_eq', mark?]
    rcases h.list? l with _ | c <;> simp
  | null | bool _ | number _ | text _ => simp [IsObserved, Value.container?]

namespace ObservedFrom

variable {h h' : Heap}

/-- A mark stays, or it is newly set. -/
theorem mark? (o : ObservedFrom h h') (c : Container) : h'.mark? c = h.mark? c ∨
    h.mark? c = some false ∧ h'.mark? c = some true := by
  cases c with
  | map m =>
    rcases o.maps m with e | ⟨cell, hc, unmarked, e⟩
    · exact .inl (by simp only [Heap.mark?, e])
    · exact .inr ⟨by simp [Heap.mark?, hc, unmarked], by simp [Heap.mark?, e, MapCell.slotted]⟩
  | list l =>
    rcases o.lists l with e | ⟨cell, hc, unmarked, e⟩
    · exact .inl (by simp only [Heap.mark?, e])
    · exact .inr ⟨by simp [Heap.mark?, hc, unmarked], by simp [Heap.mark?, e]⟩

theorem contents (o : ObservedFrom h h') (c : Container) : h'.contents c = h.contents c := by
  cases c with
  | map m =>
    unfold Heap.contents
    rcases o.maps m with e | ⟨cell, hc, _, e⟩
    · simp only [e]
    · simp [e, hc]
  | list l => exact o.items l

theorem keys (o : ObservedFrom h h') (m : MapId) : h'.keys m = h.keys m := by
  unfold Heap.keys
  rcases o.maps m with e | ⟨cell, hc, _, e⟩
  · rw [e]
  · simp [e, hc, MapCell.keys, MapCell.slotted, Entry.slotted]

/-- A way that is open afterwards was open before. -/
theorem openTo (o : ObservedFrom h h') {v : Value} {c : Container} (leads : h'.OpenTo v c) :
    h.OpenTo v c := by
  have before {c : Container} (unmarked : h'.mark? c = some false) : h.mark? c = some false := by
    rcases o.mark? c with e | ⟨e, _⟩
    · exact e ▸ unmarked
    · exact e
  induction leads with
  | here is unmarked => exact .here is (before unmarked)
  | @through v x c d is unmarked held _ ih =>
    exact .through is (before unmarked) (o.contents c ▸ held) ih

end ObservedFrom

/-! ## What is marked -/

theorem mark?_putMap_of_ne {h : Heap} {m : MapId} {cell : MapCell} {c : Container}
    (ne : c ≠ .map m) : (h.putMap m cell).mark? c = h.mark? c := by
  cases c with
  | map other => rw [mark?, mark?, map?_putMap_of_ne fun e => ne (congrArg _ e)]
  | list l => rfl

theorem mark?_putList_of_ne {h : Heap} {l : ListId} {cell : ListCell} {c : Container}
    (ne : c ≠ .list l) : (h.putList l cell).mark? c = h.mark? c := by
  cases c with
  | map m => rfl
  | list other => rw [mark?, mark?, list?_putList_of_ne fun e => ne (congrArg _ e)]

/-- What an observation marks is where one of the values leads. -/
theorem openTo_of_marked (h : Heap) (pending : List Value) {c : Container}
    (unmarked : h.mark? c = some false) (marked : (h.observeAll pending).mark? c = some true) :
    ∃ v ∈ pending, h.OpenTo v c := by
  fun_induction observeAll h pending with
  | case1 h =>
    rw [unmarked] at marked
    cases marked
  | case2 h m rest dead ih =>
    obtain ⟨v, hv, leads⟩ := ih unmarked marked
    exact ⟨v, List.mem_cons_of_mem _ hv, leads⟩
  | case3 h m rest cell hc observed ih =>
    obtain ⟨v, hv, leads⟩ := ih unmarked marked
    exact ⟨v, List.mem_cons_of_mem _ hv, leads⟩
  | case4 h m rest cell hc observed ih =>
    have here : h.mark? (.map m) = some false := by simpa [mark?, hc] using observed
    have o := observedFrom_putMap hc (by simpa using observed)
    by_cases ne : c = .map m
    · subst ne
      exact ⟨.map m, List.mem_cons_self .., .here rfl here⟩
    · obtain ⟨v, hv, leads⟩ := ih ((mark?_putMap_of_ne ne).trans unmarked) marked
      have leads := o.openTo leads
      rcases List.mem_append.mp hv with hv | hv
      · have held : v ∈ h.contents (.map m) := by simpa [contents, hc] using hv
        exact ⟨.map m, List.mem_cons_self .., .through rfl here held leads⟩
      · exact ⟨v, List.mem_cons_of_mem _ hv, leads⟩
  | case5 h l rest dead ih =>
    obtain ⟨v, hv, leads⟩ := ih unmarked marked
    exact ⟨v, List.mem_cons_of_mem _ hv, leads⟩
  | case6 h l rest cell hc observed ih =>
    obtain ⟨v, hv, leads⟩ := ih unmarked marked
    exact ⟨v, List.mem_cons_of_mem _ hv, leads⟩
  | case7 h l rest cell hc observed ih =>
    have here : h.mark? (.list l) = some false := by simpa [mark?, hc] using observed
    have o := observedFrom_putList hc (by simpa using observed)
    by_cases ne : c = .list l
    · subst ne
      exact ⟨.list l, List.mem_cons_self .., .here rfl here⟩
    · obtain ⟨v, hv, leads⟩ := ih ((mark?_putList_of_ne ne).trans unmarked) marked
      have leads := o.openTo leads
      rcases List.mem_append.mp hv with hv | hv
      · have held : v ∈ h.contents (.list l) := by simpa [contents, items, hc] using hv
        exact ⟨.list l, List.mem_cons_self .., .through rfl here held leads⟩
      · exact ⟨v, List.mem_cons_of_mem _ hv, leads⟩
  | case8 h v rest noMap noList ih =>
    obtain ⟨v, hv, leads⟩ := ih unmarked marked
    exact ⟨v, List.mem_cons_of_mem _ hv, leads⟩

/-- The contents of a container that an observation marks are observed by it. -/
theorem isObserved_of_marked (h : Heap) (pending : List Value) {c : Container}
    (unmarked : h.mark? c = some false) (marked : (h.observeAll pending).mark? c = some true) :
    ∀ x ∈ h.contents c, (h.observeAll pending).IsObserved x := by
  fun_induction observeAll h pending with
  | case1 h =>
    rw [unmarked] at marked
    cases marked
  | case4 h m rest cell hc observed ih =>
    have o := observedFrom_putMap hc (by simpa using observed)
    by_cases ne : c = .map m
    · subst ne
      intro x hx
      refine isObserved_observeAll _ _ x (List.mem_append_left _ ?_)
      simpa [contents, hc] using hx
    · rw [← o.contents c]
      exact ih ((mark?_putMap_of_ne ne).trans unmarked) marked
  | case7 h l rest cell hc observed ih =>
    have o := observedFrom_putList hc (by simpa using observed)
    by_cases ne : c = .list l
    · subst ne
      intro x hx
      refine isObserved_observeAll _ _ x (List.mem_append_left _ ?_)
      simpa [contents, items, hc] using hx
    · rw [← o.contents c]
      exact ih ((mark?_putList_of_ne ne).trans unmarked) marked
  | case2 _ _ _ _ ih | case3 _ _ _ _ _ _ ih | case5 _ _ _ _ ih | case6 _ _ _ _ _ _ ih
  | case8 _ _ _ _ _ ih => exact ih unmarked marked

/-- A way that is open before an observation of its start is marked to its end. -/
theorem marked_of_openTo {h : Heap} {pending : List Value} {v : Value} {c : Container}
    (leads : h.OpenTo v c) (observed : (h.observeAll pending).IsObserved v) :
    (h.observeAll pending).mark? c = some true := by
  have o := observedFrom_observeAll h pending
  have first {v : Value} {c : Container} (is : v.container? = some c)
      (unmarked : h.mark? c = some false) (observed : (h.observeAll pending).IsObserved v) :
      (h.observeAll pending).mark? c = some true := by
    rcases o.mark? c with e | ⟨_, marked⟩
    · exact absurd (e.trans unmarked) (isObserved_iff.mp observed c is)
    · exact marked
  induction leads with
  | here is unmarked => exact first is unmarked observed
  | @through v x c d is unmarked held _ ih =>
    exact ih (isObserved_of_marked h pending unmarked (first is unmarked observed) x held)

/-- An observation marks exactly the containers that its values lead to. -/
theorem marks_iff (h : Heap) (pending : List Value) (c : Container) :
    h.mark? c = some false ∧ (h.observeAll pending).mark? c = some true ↔
      ∃ v ∈ pending, h.OpenTo v c := by
  constructor
  · rintro ⟨unmarked, marked⟩
    exact openTo_of_marked h pending unmarked marked
  · rintro ⟨v, hv, leads⟩
    exact ⟨leads.unmarked, marked_of_openTo leads (isObserved_observeAll h pending v hv)⟩

/-! ## The cells after an observation -/

theorem map?_observeAll_of_openTo {h : Heap} {pending : List Value} {m : MapId}
    (leads : ∃ v ∈ pending, h.OpenTo v (.map m)) :
    (h.observeAll pending).map? m = (h.map? m).map MapCell.slotted := by
  obtain ⟨unmarked, marked⟩ := (marks_iff h pending (.map m)).mpr leads
  rcases (observedFrom_observeAll h pending).maps m with e | ⟨c, hc, _, e⟩
  · rw [mark?, e] at marked
    rw [mark?, marked] at unmarked
    cases unmarked
  · rw [e, hc]
    rfl

theorem map?_observeAll_of_not_openTo {h : Heap} {pending : List Value} {m : MapId}
    (apart : ¬∃ v ∈ pending, h.OpenTo v (.map m)) :
    (h.observeAll pending).map? m = h.map? m := by
  rcases (observedFrom_observeAll h pending).maps m with e | ⟨c, hc, unmarked, e⟩
  · exact e
  · refine absurd ((marks_iff h pending (.map m)).mp ⟨?_, ?_⟩) apart
    · simp [mark?, hc, unmarked]
    · simp [mark?, e, MapCell.slotted]

theorem list?_observeAll_of_openTo {h : Heap} {pending : List Value} {l : ListId}
    (leads : ∃ v ∈ pending, h.OpenTo v (.list l)) :
    (h.observeAll pending).list? l = (h.list? l).map ({ · with observed := true }) := by
  obtain ⟨unmarked, marked⟩ := (marks_iff h pending (.list l)).mpr leads
  rcases (observedFrom_observeAll h pending).lists l with e | ⟨c, hc, _, e⟩
  · rw [mark?, e] at marked
    rw [mark?, marked] at unmarked
    cases unmarked
  · rw [e, hc]
    rfl

theorem list?_observeAll_of_not_openTo {h : Heap} {pending : List Value} {l : ListId}
    (apart : ¬∃ v ∈ pending, h.OpenTo v (.list l)) :
    (h.observeAll pending).list? l = h.list? l := by
  rcases (observedFrom_observeAll h pending).lists l with e | ⟨c, hc, unmarked, e⟩
  · exact e
  · refine absurd ((marks_iff h pending (.list l)).mp ⟨?_, ?_⟩) apart
    · simp [mark?, hc, unmarked]
    · simp [mark?, e]

/-- Two heaps of the same sizes with the same cells and free registries are the same. -/
theorem eq_of_cells {h h' : Heap} (maps : ∀ m, h'.map? m = h.map? m)
    (lists : ∀ l, h'.list? l = h.list? l) (size_maps : h'.maps.size = h.maps.size)
    (size_lists : h'.lists.size = h.lists.size) (registries : h'.registries = h.registries) :
    h' = h := by
  have sameMaps : h'.maps = h.maps := by
    refine Array.ext size_maps fun i hi hi' => ?_
    simpa [map?, hi, hi'] using maps ⟨i⟩
  have sameLists : h'.lists = h.lists := by
    refine Array.ext size_lists fun i hi hi' => ?_
    simpa [list?, hi, hi'] using lists ⟨i⟩
  cases h
  cases h'
  simp_all

/-- One heap comes from another one by the observation of a value: it marks what the value leads to
through containers that are not observed, every key of a newly marked map is a slot with the registry
that it had or a fresh one, and all the rest stays as it is. -/
structure Observes (h : Heap) (v : Value) (h' : Heap) : Prop where
  marked : ∀ c, h.mark? c = some false ∧ h'.mark? c = some true ↔ h.OpenTo v c
  slots : ∀ m, h.OpenTo v (.map m) → ∀ key ∈ h.keys m,
    h'.watchers? (.slot m key) = some (h.watchers (.slot m key))
  registries : ∀ r ws, h.watchers? r = some ws → h'.watchers? r = some ws
  keys : ∀ m, h'.keys m = h.keys m
  values : ∀ m key, h'.peek m key = h.peek m key
  items : ∀ l, h'.items l = h.items l
  maps : ∀ m, ¬h.OpenTo v (.map m) → h'.map? m = h.map? m
  lists : ∀ l, ¬h.OpenTo v (.list l) → h'.list? l = h.list? l
  size_maps : h'.maps.size = h.maps.size
  size_lists : h'.lists.size = h.lists.size
  free : h'.registries = h.registries

theorem ObservedFrom.watchers? {h h' : Heap} (o : ObservedFrom h h') {r : Registry}
    {ws : List WatcherId} (there : h.watchers? r = some ws) : h'.watchers? r = some ws := by
  cases r with
  | slot m key =>
    obtain ⟨e, he, hw⟩ := Option.bind_eq_some_iff.mp there
    rcases o.lookup? m key with same | same
    · rwa [Heap.watchers?, same]
    · simp [Heap.watchers?, same, he, Entry.slotted, hw]
  | list l =>
    obtain ⟨c, hc, hw⟩ := Option.map_eq_some_iff.mp there
    rcases o.lists l with same | ⟨c', hc', _, new⟩
    · rwa [Heap.watchers?, same]
    · rw [hc] at hc'
      cases hc'
      simp [Heap.watchers?, new, hw]
  | free id => rwa [Heap.watchers?, o.registries]

/-- A key of a map that is newly marked is a slot. -/
theorem watchers?_observeAll_of_openTo {h : Heap} {pending : List Value} {m : MapId}
    (leads : ∃ v ∈ pending, h.OpenTo v (.map m)) {key : String} (there : key ∈ h.keys m) :
    (h.observeAll pending).watchers? (.slot m key) = some (h.watchers (.slot m key)) := by
  rcases hc : h.map? m with _ | c
  · simp [Heap.keys, hc] at there
  · obtain ⟨e, he, hk⟩ := List.mem_map.mp (by simpa [Heap.keys, hc, MapCell.keys] using there)
    have found : (c.lookup? key).isSome := List.find?_isSome.mpr ⟨e, he, by simpa using hk⟩
    obtain ⟨x, hx⟩ := Option.isSome_iff_exists.mp found
    simp only [Heap.watchers, Heap.watchers?, lookup?, map?_observeAll_of_openTo leads, hc,
      Option.map_some, Option.bind_some, c.lookup?_slotted, hx]
    rfl

theorem observes_observe (h : Heap) (v : Value) : h.Observes v (h.observe v) := by
  have o := observedFrom_observe h v
  have leads (c : Container) : (∃ x ∈ [v], h.OpenTo x c) ↔ h.OpenTo v c := by simp
  exact {
    marked := fun c => (marks_iff h [v] c).trans (leads c)
    slots := fun m open' _ there => watchers?_observeAll_of_openTo ((leads _).mpr open') there
    registries := fun _ _ => o.watchers?
    keys := o.keys
    values := o.peek
    items := o.items
    maps := fun m apart => map?_observeAll_of_not_openTo (mt (leads _).mp apart)
    lists := fun l apart => list?_observeAll_of_not_openTo (mt (leads _).mp apart)
    size_maps := o.size_maps
    size_lists := o.size_lists
    free := o.registries }

/-! ## Several observations -/

theorem observeAll_cons_of_isObserved {h : Heap} {v : Value} (observed : h.IsObserved v)
    (rest : List Value) : h.observeAll (v :: rest) = h.observeAll rest := by
  cases v with
  | map m =>
    rw [observeAll]
    split
    · rfl
    · rename_i c hc
      exact dif_pos (observed c hc)
  | list l =>
    rw [observeAll]
    split
    · rfl
    · rename_i c hc
      exact dif_pos (observed c hc)
  | null | bool _ | number _ | text _ => rw [observeAll] <;> simp

theorem observeAll_cons_of_open_map {h : Heap} {m : MapId} {c : MapCell} (hc : h.map? m = some c)
    (unmarked : c.observed = false) (rest : List Value) :
    h.observeAll (.map m :: rest) = (h.putMap m c.slotted).observeAll (c.contents ++ rest) := by
  rw [observeAll]
  split
  · rename_i dead
    rw [hc] at dead
    cases dead
  · rename_i c' hc'
    rw [hc] at hc'
    cases hc'
    exact dif_neg (by simp [unmarked])

theorem observeAll_cons_of_open_list {h : Heap} {l : ListId} {c : ListCell}
    (hc : h.list? l = some c) (unmarked : c.observed = false) (rest : List Value) :
    h.observeAll (.list l :: rest) =
      (h.putList l { c with observed := true }).observeAll (c.items ++ rest) := by
  rw [observeAll]
  split
  · rename_i dead
    rw [hc] at dead
    cases dead
  · rename_i c' hc'
    rw [hc] at hc'
    cases hc'
    exact dif_neg (by simp [unmarked])

/-- What is observed already is left as it is. -/
theorem observe_of_isObserved {h : Heap} {v : Value} (observed : h.IsObserved v) :
    h.observe v = h := by
  rw [observe, observeAll_cons_of_isObserved observed, observeAll]

/-- To observe one value after another is to observe both. -/
theorem observeAll_append (h : Heap) (first second : List Value) :
    h.observeAll (first ++ second) = (h.observeAll first).observeAll second := by
  fun_induction observeAll h first with
  | case1 h => rfl
  | case2 h m rest dead ih =>
    rw [List.cons_append, observeAll_cons_of_isObserved (isObserved_of_dead_map dead), ih]
  | case3 h m rest c hc marked ih =>
    rw [List.cons_append, observeAll_cons_of_isObserved (isObserved_of_marked_map hc marked), ih]
  | case4 h m rest c hc unmarked ih =>
    rw [List.cons_append, observeAll_cons_of_open_map hc (by simpa using unmarked),
      ← List.append_assoc, ih]
  | case5 h l rest dead ih =>
    rw [List.cons_append, observeAll_cons_of_isObserved (isObserved_of_dead_list dead), ih]
  | case6 h l rest c hc marked ih =>
    rw [List.cons_append, observeAll_cons_of_isObserved (isObserved_of_marked_list hc marked), ih]
  | case7 h l rest c hc unmarked ih =>
    rw [List.cons_append, observeAll_cons_of_open_list hc (by simpa using unmarked),
      ← List.append_assoc, ih]
  | case8 h v rest noMap noList ih =>
    have scalar := h.isObserved_of_scalar noMap noList
    rw [List.cons_append, observeAll_cons_of_isObserved scalar, ih]

/-- One heap comes from another one by the observation of values, one after another. -/
inductive ObservesAll : Heap → List Value → Heap → Prop where
  | nil {h : Heap} : ObservesAll h [] h
  | cons {h h₁ h₂ : Heap} {v : Value} {vs : List Value} (first : h.Observes v h₁)
      (rest : ObservesAll h₁ vs h₂) : ObservesAll h (v :: vs) h₂

theorem observesAll_observeAll (h : Heap) (vs : List Value) : h.ObservesAll vs (h.observeAll vs) := by
  induction vs generalizing h with
  | nil =>
    rw [observeAll]
    exact .nil
  | cons v vs ih =>
    rw [← List.singleton_append, observeAll_append]
    exact .cons (h.observes_observe v) (ih _)

/-- The order in which values are observed does not matter. -/
theorem observeAll_congr {h : Heap} {xs ys : List Value} (same : ∀ v, v ∈ xs ↔ v ∈ ys) :
    h.observeAll xs = h.observeAll ys := by
  have leads (c : Container) : (∃ v ∈ xs, h.OpenTo v c) ↔ ∃ v ∈ ys, h.OpenTo v c := by
    simp only [same]
  have o := observedFrom_observeAll h xs
  have o' := observedFrom_observeAll h ys
  apply eq_of_cells
  · intro m
    by_cases reached : ∃ v ∈ xs, h.OpenTo v (.map m)
    · rw [map?_observeAll_of_openTo reached, map?_observeAll_of_openTo ((leads _).mp reached)]
    · rw [map?_observeAll_of_not_openTo reached, map?_observeAll_of_not_openTo (mt (leads _).mpr reached)]
  · intro l
    by_cases reached : ∃ v ∈ xs, h.OpenTo v (.list l)
    · rw [list?_observeAll_of_openTo reached, list?_observeAll_of_openTo ((leads _).mp reached)]
    · rw [list?_observeAll_of_not_openTo reached, list?_observeAll_of_not_openTo (mt (leads _).mpr reached)]
  · rw [o.size_maps, o'.size_maps]
  · rw [o.size_lists, o'.size_lists]
  · rw [o.registries, o'.registries]

theorem observe_comm (h : Heap) (a b : Value) :
    (h.observe a).observe b = (h.observe b).observe a := by
  unfold observe
  rw [← observeAll_append, ← observeAll_append]
  exact observeAll_congr fun v => by simp [or_comm]

end DataBinding.Heap
