-- A heap only grows. A map keeps its keys in their order and gets new ones behind them, a slot stays a slot
-- with its registry, a registry keeps its watchers in their order, and an observed container stays
-- observed. This holds of a container for as long as it is live; a freed one never comes back.
import DataBinding.Proofs.Heap.Registration

namespace DataBinding

/-! ## Cells -/

/-- A map has grown: keys and watchers are added behind those that are there. -/
structure MapCell.Grows (c c' : MapCell) : Prop where
  keys : c.keys <+: c'.keys
  distinct : c.keys.Nodup → c'.keys.Nodup
  marked : c.observed = true → c'.observed = true
  slots : ∀ key ws, (c.lookup? key).bind (·.watchers) = some ws →
    ∃ ws', (c'.lookup? key).bind (·.watchers) = some ws' ∧ ws <+: ws'

structure ListCell.Grows (c c' : ListCell) : Prop where
  marked : c.observed = true → c'.observed = true
  watchers : c.watchers <+: c'.watchers

namespace MapCell

theorem Grows.refl (c : MapCell) : c.Grows c :=
  ⟨List.prefix_refl _, id, id, fun _ ws h => ⟨ws, h, List.prefix_refl _⟩⟩

theorem Grows.trans {a b c : MapCell} (first : a.Grows b) (second : b.Grows c) : a.Grows c := by
  refine ⟨first.keys.trans second.keys, fun h => second.distinct (first.distinct h),
    fun h => second.marked (first.marked h), fun key ws h => ?_⟩
  obtain ⟨ws', h', more⟩ := first.slots key ws h
  obtain ⟨ws'', h'', more'⟩ := second.slots key ws' h'
  exact ⟨ws'', h'', more.trans more'⟩

/-- A change of one key keeps the keys, or puts a new one behind them. -/
theorem keys_grow_alter (c : MapCell) (key : String) (change : Entry → Entry) (fresh : Entry)
    (same : ∀ e, (change e).key = e.key) (hf : fresh.key = key) :
    c.keys <+: (c.alter key change fresh).keys ∧
      (c.keys.Nodup → (c.alter key change fresh).keys.Nodup) := by
  rw [keys_alter c key same hf]
  split
  · exact ⟨List.prefix_refl _, id⟩
  · rename_i absent
    exact ⟨List.prefix_append _ _, fun nodup => List.nodup_append.mpr ⟨nodup, by simp,
      fun a ha b hb e => absent (List.mem_singleton.mp hb ▸ e ▸ ha)⟩⟩

theorem observed_alter (c : MapCell) (key : String) (change : Entry → Entry) (fresh : Entry) :
    (c.alter key change fresh).observed = c.observed := by
  unfold alter
  split <;> rfl

theorem grows_store (c : MapCell) (key : String) (v : Value) : c.Grows (c.store key v) := by
  obtain ⟨keys, distinct⟩ := c.keys_grow_alter key (fun e => { e with value := v })
    ⟨key, v, none⟩ (fun _ => rfl) rfl
  refine ⟨keys, distinct, fun h => (c.observed_alter key _ _).trans h, fun other ws h => ?_⟩
  rw [lookup?_store]
  split
  · rename_i e
    exact ⟨ws, by rw [← h, e]; rfl, List.prefix_refl _⟩
  · exact ⟨ws, h, List.prefix_refl _⟩

theorem grows_install (c : MapCell) (key : String) (v : Value) : c.Grows (c.install key v) := by
  obtain ⟨keys, distinct⟩ := c.keys_grow_alter key (fun e => { e with value := v }.slotted)
    ⟨key, v, some []⟩ (fun _ => rfl) rfl
  refine ⟨keys, distinct, fun h => (c.observed_alter key _ _).trans h, fun other ws h => ?_⟩
  rw [lookup?_install]
  split
  · rename_i e
    exact ⟨ws, by simp [← e, h], List.prefix_refl _⟩
  · exact ⟨ws, h, List.prefix_refl _⟩

theorem grows_slotted (c : MapCell) : c.Grows c.slotted := by
  have keys : c.slotted.keys = c.keys := by
    simp only [slotted, MapCell.keys, List.map_map]
    rfl
  refine ⟨keys ▸ List.prefix_refl _, keys ▸ id, fun _ => rfl, fun key ws h => ?_⟩
  obtain ⟨e, he, hw⟩ := Option.bind_eq_some_iff.mp h
  exact ⟨ws, by simp [lookup?_slotted, he, Entry.slotted, hw], List.prefix_refl _⟩

theorem grows_enlist (c : MapCell) (key : String) (id : WatcherId) : c.Grows (c.enlist key id) := by
  have keys : (c.enlist key id).keys = c.keys := by
    simp only [enlist, MapCell.keys, List.map_map]
    refine List.map_congr_left fun e _ => ?_
    simp only [Function.comp_apply]
    split <;> rfl
  refine ⟨keys ▸ List.prefix_refl _, keys ▸ fun h => h, fun h => h, fun other ws h => ?_⟩
  rw [lookup?_enlist]
  split
  · rename_i e
    subst e
    obtain ⟨entry, he, hw⟩ := Option.bind_eq_some_iff.mp h
    exact ⟨DataBinding.enlist ws id, by simp [he, Entry.enlist, hw], enlist_extends ws id⟩
  · exact ⟨ws, h, List.prefix_refl _⟩

/-- The keys of a fresh map are distinct, also if one is given twice. -/
theorem nodup_keys_ofEntries (entries : List (String × Value)) :
    (entries.foldl (fun c (key, v) => c.store key v) (ofEntries [])).keys.Nodup := by
  have step (c : MapCell) (distinct : c.keys.Nodup) :
      (entries.foldl (fun c (key, v) => c.store key v) c).keys.Nodup := by
    induction entries generalizing c with
    | nil => exact distinct
    | cons entry rest ih => exact ih _ ((c.grows_store entry.1 entry.2).distinct distinct)
  exact step _ List.nodup_nil

end MapCell

namespace ListCell

theorem Grows.refl (c : ListCell) : c.Grows c := ⟨id, List.prefix_refl _⟩

theorem Grows.trans {a b c : ListCell} (first : a.Grows b) (second : b.Grows c) : a.Grows c :=
  ⟨fun h => second.marked (first.marked h), first.watchers.trans second.watchers⟩

end ListCell

namespace Heap

/-! ## Heaps -/

/-- Every live container is new or has grown, and every free registry is still there. -/
structure Grows (h h' : Heap) : Prop where
  extend : h'.Extends h
  maps : ∀ m c', h'.map? m = some c' →
    (h.maps.size ≤ m.index ∧ c'.keys.Nodup) ∨ ∃ c, h.map? m = some c ∧ c.Grows c'
  lists : ∀ l c', h'.list? l = some c' →
    h.lists.size ≤ l.index ∨ ∃ c, h.list? l = some c ∧ c.Grows c'
  free : ∀ r ws, h.watchers? (.free r) = some ws →
    ∃ ws', h'.watchers? (.free r) = some ws' ∧ ws <+: ws'

namespace Grows

variable {h h' h'' : Heap}

theorem refl (h : Heap) : h.Grows h :=
  ⟨.refl h, fun _ c hc => .inr ⟨c, hc, .refl c⟩, fun _ c hc => .inr ⟨c, hc, .refl c⟩,
    fun _ ws hws => ⟨ws, hws, List.prefix_refl _⟩⟩

theorem trans (first : h.Grows h') (second : h'.Grows h'') : h.Grows h'' := by
  refine ⟨second.extend.trans first.extend, fun m c'' hc => ?_, fun l c'' hc => ?_, fun r ws hws => ?_⟩
  · rcases second.maps m c'' hc with ⟨fresh, distinct⟩ | ⟨c', hc', more⟩
    · exact .inl ⟨Nat.le_trans first.extend.maps fresh, distinct⟩
    · rcases first.maps m c' hc' with ⟨fresh, distinct⟩ | ⟨c, hc, grown⟩
      · exact .inl ⟨fresh, more.distinct distinct⟩
      · exact .inr ⟨c, hc, grown.trans more⟩
  · rcases second.lists l c'' hc with fresh | ⟨c', hc', more⟩
    · exact .inl (Nat.le_trans first.extend.lists fresh)
    · rcases first.lists l c' hc' with fresh | ⟨c, hc, grown⟩
      · exact .inl fresh
      · exact .inr ⟨c, hc, grown.trans more⟩
  · obtain ⟨ws', hws', more⟩ := first.free r ws hws
    obtain ⟨ws'', hws'', more'⟩ := second.free r ws' hws'
    exact ⟨ws'', hws'', more.trans more'⟩

/-- A map that is live before and afterwards has grown. -/
theorem map (grows : h.Grows h') {m : MapId} {c c' : MapCell} (hc : h.map? m = some c)
    (hc' : h'.map? m = some c') : c.Grows c' := by
  rcases grows.maps m c' hc' with ⟨fresh, _⟩ | ⟨c₀, hc₀, grown⟩
  · exact absurd (index_lt_of_map? hc) (Nat.not_lt.mpr fresh)
  · rw [hc] at hc₀
    cases hc₀
    exact grown

theorem list (grows : h.Grows h') {l : ListId} {c c' : ListCell} (hc : h.list? l = some c)
    (hc' : h'.list? l = some c') : c.Grows c' := by
  rcases grows.lists l c' hc' with fresh | ⟨c₀, hc₀, grown⟩
  · exact absurd (index_lt_of_list? hc) (Nat.not_lt.mpr fresh)
  · rw [hc] at hc₀
    cases hc₀
    exact grown

/-- A registry that is there before and afterwards has kept its watchers in their order. -/
theorem watchers (grows : h.Grows h') {r : Registry} {ws ws' : List WatcherId}
    (hws : h.watchers? r = some ws) (hws' : h'.watchers? r = some ws') : ws <+: ws' := by
  cases r with
  | slot m key =>
    obtain ⟨e, he, hw⟩ := Option.bind_eq_some_iff.mp hws
    obtain ⟨e', he', hw'⟩ := Option.bind_eq_some_iff.mp hws'
    obtain ⟨c, hc, hl⟩ := lookup?_eq_some_iff.mp he
    obtain ⟨c', hc', hl'⟩ := lookup?_eq_some_iff.mp he'
    obtain ⟨kept, hk, more⟩ := (grows.map hc hc').slots key ws (by simp [hl, hw])
    simp only [hl', Option.bind_some, hw', Option.some.injEq] at hk
    exact hk ▸ more
  | list l =>
    obtain ⟨c, hc, rfl⟩ := Option.map_eq_some_iff.mp hws
    obtain ⟨c', hc', rfl⟩ := Option.map_eq_some_iff.mp hws'
    exact (grows.list hc hc').watchers
  | free r =>
    obtain ⟨kept, hk, more⟩ := grows.free r ws hws
    rw [hk] at hws'
    cases hws'
    exact more

/-- A slot stays a slot while its map is live. -/
theorem isSlot (grows : h.Grows h') {m : MapId} {key : String} (slot : h.isSlot m key = true)
    (live : h'.isLive (.map m) = true) : h'.isSlot m key = true := by
  obtain ⟨ws, hws⟩ := Option.isSome_iff_exists.mp slot
  obtain ⟨e, he, hw⟩ := Option.bind_eq_some_iff.mp hws
  obtain ⟨c, hc, hl⟩ := lookup?_eq_some_iff.mp he
  obtain ⟨c', hc'⟩ := Option.isSome_iff_exists.mp live
  obtain ⟨ws', hws', _⟩ := (grows.map hc hc').slots key ws (by simp [hl, hw])
  simp [Heap.isSlot, Heap.lookup?, hc', hws']

/-- Distinct keys stay distinct. -/
theorem distinct (grows : h.Grows h') (distinct : ∀ m c, h.map? m = some c → c.keys.Nodup) :
    ∀ m c, h'.map? m = some c → c.keys.Nodup := by
  intro m c' hc'
  rcases grows.maps m c' hc' with ⟨_, nodup⟩ | ⟨c, hc, grown⟩
  · exact nodup
  · exact grown.distinct (distinct m c hc)

end Grows

/-! ## Edits -/

variable (h : Heap)

theorem grows_changeMap (m : MapId) {f : MapCell → MapCell} (hf : ∀ c : MapCell, c.Grows (f c)) :
    h.Grows (h.changeMap m f) := by
  refine ⟨extends_changeMap h m f, fun other c' hc' => .inr ?_, fun l c' hc' => .inr ?_,
    fun r ws hws => ⟨ws, by simpa [watchers?] using hws, List.prefix_refl _⟩⟩
  · rw [map?_changeMap] at hc'
    split at hc'
    · rename_i e
      obtain ⟨c, hc, rfl⟩ := Option.map_eq_some_iff.mp hc'
      exact ⟨c, e ▸ hc, hf c⟩
    · exact ⟨c', hc', .refl c'⟩
  · exact ⟨c', by simpa using hc', .refl c'⟩

theorem grows_changeList (l : ListId) {f : ListCell → ListCell}
    (hf : ∀ c : ListCell, c.Grows (f c)) : h.Grows (h.changeList l f) := by
  refine ⟨extends_changeList h l f, fun m c' hc' => .inr ?_, fun other c' hc' => .inr ?_,
    fun r ws hws => ⟨ws, by simpa [watchers?] using hws, List.prefix_refl _⟩⟩
  · exact ⟨c', by simpa using hc', .refl c'⟩
  · rw [list?_changeList] at hc'
    split at hc'
    · rename_i e
      obtain ⟨c, hc, rfl⟩ := Option.map_eq_some_iff.mp hc'
      exact ⟨c, e ▸ hc, hf c⟩
    · exact ⟨c', hc', .refl c'⟩

theorem ObservedFrom.grows {h h' : Heap} (o : ObservedFrom h h') : h.Grows h' := by
  refine ⟨o.extends, fun m c' hc' => .inr ?_, fun l c' hc' => .inr ?_,
    fun r ws hws => ⟨ws, by simpa [Heap.watchers?, o.registries] using hws, List.prefix_refl _⟩⟩
  · rcases o.maps m with e | ⟨c, hc, _, e⟩
    · exact ⟨c', e ▸ hc', .refl c'⟩
    · rw [e] at hc'
      cases hc'
      exact ⟨c, hc, c.grows_slotted⟩
  · rcases o.lists l with e | ⟨c, hc, _, e⟩
    · exact ⟨c', e ▸ hc', .refl c'⟩
    · rw [e] at hc'
      cases hc'
      exact ⟨c, hc, fun _ => rfl, List.prefix_refl _⟩

theorem ReleasedFrom.grows {h h' : Heap} (f : ReleasedFrom h h') : h.Grows h' :=
  ⟨f.extends, fun _ c hc => .inr ⟨c, f.map? hc, .refl c⟩, fun _ c hc => .inr ⟨c, f.list? hc, .refl c⟩,
    fun r ws hws => ⟨ws, by simpa [watchers?, f.registries] using hws, List.prefix_refl _⟩⟩

theorem grows_newMap (entries : List (String × Value)) : h.Grows (h.newMap entries).1 := by
  refine ⟨extends_apply h (.newMap entries), fun m c' hc' => ?_, fun l c' hc' => .inr ⟨c', hc', .refl c'⟩,
    fun r ws hws => ⟨ws, hws, List.prefix_refl _⟩⟩
  rw [map?_newMap] at hc'
  split at hc'
  · rename_i e
    cases hc'
    exact .inl ⟨Nat.le_of_eq e.symm, MapCell.nodup_keys_ofEntries entries⟩
  · exact .inr ⟨c', hc', .refl c'⟩

theorem grows_newList (items : List Value) : h.Grows (h.newList items).1 := by
  refine ⟨extends_apply h (.newList items), fun m c' hc' => .inr ⟨c', hc', .refl c'⟩, fun l c' hc' => ?_,
    fun r ws hws => ⟨ws, hws, List.prefix_refl _⟩⟩
  rw [list?_newList] at hc'
  split at hc'
  · rename_i e
    exact .inl (Nat.le_of_eq e.symm)
  · exact .inr ⟨c', hc', .refl c'⟩

theorem grows_newRegistry : h.Grows h.newRegistry.1 := by
  refine ⟨extends_apply h .newRegistry, fun m c' hc' => .inr ⟨c', hc', .refl c'⟩,
    fun l c' hc' => .inr ⟨c', hc', .refl c'⟩, fun r ws hws => ⟨ws, ?_, List.prefix_refl _⟩⟩
  obtain ⟨lt, e⟩ := Array.getElem?_eq_some_iff.mp (show h.registries[r.index]? = some ws from hws)
  change (h.registries.push [])[r.index]? = some ws
  rw [Array.getElem?_push_lt lt, e]

theorem grows_register (id : WatcherId) (r : Registry) : h.Grows (h.register id r) := by
  cases r with
  | slot m key => exact grows_changeMap h m fun c => c.grows_enlist key id
  | list l => exact grows_changeList h l fun c => ⟨fun h => h, enlist_extends c.watchers id⟩
  | free r =>
    refine ⟨extends_register h id (.free r), fun m c' hc' => .inr ⟨c', hc', .refl c'⟩,
      fun l c' hc' => .inr ⟨c', hc', .refl c'⟩, fun other ws hws => ?_⟩
    rw [watchers?_register]
    split
    · rename_i e
      exact ⟨enlist ws id, by rw [← e, hws]; rfl, enlist_extends ws id⟩
    · exact ⟨ws, hws, List.prefix_refl _⟩

theorem grows_foldl_register (id : WatcherId) (rs : List Registry) :
    h.Grows (rs.foldl (·.register id) h) := by
  induction rs generalizing h with
  | nil => exact .refl h
  | cons r rest ih => exact (h.grows_register id r).trans (ih _)

/-- Every edit lets a heap grow. -/
theorem grows_apply (e : Edit) : h.Grows (e.apply h).1 := by
  have store (h : Heap) (m : MapId) (key : String) (v : Value) :
      h.Grows (h.changeMap m (·.store key v)) := h.grows_changeMap m fun c => c.grows_store key v
  cases e with
  | newMap entries => exact h.grows_newMap entries
  | newList items => exact h.grows_newList items
  | newRegistry => exact h.grows_newRegistry
  | observe v => exact (observedFrom_observe h v).grows
  | set m key v =>
    rcases h.set_cases m key v with ⟨_, _, _, _, e⟩ | ⟨_, _, _, _, e⟩ | ⟨_, e⟩
    · simp only [Edit.apply, e]
      exact .refl h
    · simp only [Edit.apply, e]
      exact (observedFrom_observe h v).grows.trans (store _ m key v)
    · simp only [Edit.apply, e]
      exact store h m key v
  | define m key v =>
    exact (observedFrom_observe h v).grows.trans (grows_changeMap _ m fun c => c.grows_install key v)
  | mutate l items inserted =>
    have stored : h.Grows (h.changeList l ({ · with items })) :=
      h.grows_changeList l fun c => ⟨fun h => h, List.prefix_refl _⟩
    rcases h.mutate_cases l items inserted with ⟨_, e⟩ | ⟨_, _, _, e⟩ | ⟨_, _, _, e⟩
    · simp only [Edit.apply, e]
      exact .refl h
    · simp only [Edit.apply, e]
      exact stored.trans (observedFrom_observeAll _ _).grows
    · simpa only [Edit.apply, e] using stored
  | place l position v => exact h.grows_changeList l fun c => ⟨fun h => h, List.prefix_refl _⟩
  | register id r => exact h.grows_register id r

end Heap

end DataBinding
