-- What a heap shows after each of its operations: the entry of a key, the items of a list and the
-- watchers of a registry. A write shows at its own key only, a registration in its own registry only.
import DataBinding.Model.Observe
import DataBinding.Model.Write
import DataBinding.Model.Sequence
import DataBinding.Model.Release
import Mathlib.Tactic.Common

namespace DataBinding

/-! ## Entries of one map -/

namespace MapCell

theorem key_of_lookup? {c : MapCell} {key : String} {e : Entry} (h : c.lookup? key = some e) :
    e.key = key := by
  simpa using List.find?_some h

theorem mem_of_lookup? {c : MapCell} {key : String} {e : Entry} (h : c.lookup? key = some e) :
    e ∈ c.entries := List.mem_of_find?_eq_some h

theorem mem_contents_of_lookup? {c : MapCell} {key : String} {e : Entry}
    (h : c.lookup? key = some e) : e.value ∈ c.contents :=
  List.mem_map.mpr ⟨e, mem_of_lookup? h, rfl⟩

/-- A look-up after a change of each entry that keeps its key. -/
theorem find?_map_key (entries : List Entry) (key : String) (change : Entry → Entry)
    (same : ∀ e, (change e).key = e.key) :
    (entries.map change).find? (·.key = key) = (entries.find? (·.key = key)).map change := by
  induction entries with
  | nil => rfl
  | cons e rest ih =>
    by_cases h : e.key = key
    · simp [same, h]
    · simp only [List.map_cons, List.find?_cons, same, h, decide_false]
      exact ih

/-- A change that leaves the entries of a key as they are leaves the look-up of that key. -/
theorem map_of_found {entries : List Entry} {key : String} {change : Entry → Entry}
    (same : ∀ e, e.key = key → change e = e) :
    (entries.find? (·.key = key)).map change = entries.find? (·.key = key) := by
  have hid : ∀ e ∈ entries.find? (·.key = key), change e = id e := by
    intro e he
    exact same e (by simpa using List.find?_some he)
  rw [Option.map_congr hid, Option.map_id]
  rfl

theorem lookup?_alter (c : MapCell) (key other : String) {change : Entry → Entry} {fresh : Entry}
    (same : ∀ e, (change e).key = e.key) (hf : fresh.key = key) :
    (c.alter key change fresh).lookup? other =
      if other = key then some (((c.lookup? key).map change).getD fresh) else c.lookup? other := by
  have same' : ∀ e : Entry, (if e.key = key then change e else e).key = e.key := by
    intro e
    split
    · exact same e
    · rfl
  unfold alter
  by_cases h : (c.lookup? key).isSome
  · rw [if_pos h]
    obtain ⟨e, he⟩ := Option.isSome_iff_exists.mp h
    simp only [lookup?] at he ⊢
    rw [find?_map_key _ _ _ same']
    by_cases ho : other = key
    · subst ho
      rw [he, if_pos rfl]
      simp [show e.key = other by simpa using List.find?_some he]
    · rw [if_neg ho]
      exact map_of_found fun e he => if_neg (he ▸ ho)
  · rw [if_neg h]
    have hnone : c.lookup? key = none := by simpa using h
    simp only [lookup?, List.find?_append] at hnone ⊢
    by_cases ho : other = key
    · subst ho
      simp [hnone, hf]
    · have : fresh.key ≠ other := by rw [hf]; exact Ne.symm ho
      rw [if_neg ho]
      simp [this]

theorem lookup?_store (c : MapCell) (key other : String) (v : Value) :
    (c.store key v).lookup? other =
      if other = key then
        some ⟨key, v, (c.lookup? key).bind (·.watchers)⟩
      else c.lookup? other := by
  unfold store
  rw [lookup?_alter]
  · rcases h : c.lookup? key with _ | e
    · rfl
    · simp [key_of_lookup? h]
  · intro e
    rfl
  · rfl

theorem lookup?_install (c : MapCell) (key other : String) (v : Value) :
    (c.install key v).lookup? other =
      if other = key then
        some ⟨key, v, some (((c.lookup? key).bind (·.watchers)).getD [])⟩
      else c.lookup? other := by
  unfold install
  rw [lookup?_alter]
  · rcases h : c.lookup? key with _ | e
    · rfl
    · simp [Entry.slotted, key_of_lookup? h]
  · intro e
    rfl
  · rfl

theorem lookup?_slotted (c : MapCell) (key : String) :
    c.slotted.lookup? key = (c.lookup? key).map Entry.slotted :=
  find?_map_key _ _ _ fun _ => rfl

theorem lookup?_enlist (c : MapCell) (key other : String) (w : WatcherId) :
    (c.enlist key w).lookup? other =
      if other = key then (c.lookup? key).map (·.enlist w) else c.lookup? other := by
  unfold enlist lookup?
  rw [find?_map_key]
  · split
    · rename_i h
      subst h
      apply Option.map_congr
      intro e he
      exact if_pos (by simpa using List.find?_some he)
    · rename_i h
      exact map_of_found fun e he => if_neg (he ▸ h)
  · intro e
    split <;> rfl

/-- A changed entry holds a value from before or the new one. -/
theorem mem_contents_alter {c : MapCell} {key : String} {change : Entry → Entry} {fresh : Entry}
    {v x : Value} (hc : ∀ e, (change e).value = v) (hf : fresh.value = v)
    (hx : x ∈ (c.alter key change fresh).contents) : x ∈ c.contents ∨ x = v := by
  unfold alter at hx
  split at hx
  · simp only [contents, List.map_map, List.mem_map, Function.comp_apply] at hx ⊢
    obtain ⟨e, he, rfl⟩ := hx
    split
    · exact .inr (hc e)
    · exact .inl ⟨e, he, rfl⟩
  · simp only [contents, List.map_append, List.map_cons, List.map_nil, List.mem_append,
      List.mem_singleton] at hx ⊢
    rcases hx with h | h
    · exact .inl h
    · exact .inr (h.trans hf)

@[simp]
theorem contents_slotted (c : MapCell) : c.slotted.contents = c.contents := by
  simp [slotted, contents, Entry.slotted]

@[simp]
theorem contents_enlist (c : MapCell) (key : String) (w : WatcherId) :
    (c.enlist key w).contents = c.contents := by
  simp only [enlist, contents, List.map_map]
  congr 1
  funext e
  by_cases h : e.key = key <;> simp [h, Entry.enlist]

end MapCell

namespace Heap

/-! ## Cells -/

theorem map?_changeMap (h : Heap) (m other : MapId) (f : MapCell → MapCell) :
    (h.changeMap m f).map? other = if other = m then (h.map? m).map f else h.map? other := by
  rcases hm : h.map? m with _ | c
  · by_cases ho : other = m <;> simp [changeMap, hm, ho]
  · by_cases ho : other = m
    · simp [changeMap, hm, ho, map?_putMap_self hm]
    · simp [changeMap, hm, ho, map?_putMap_of_ne ho]

theorem list?_changeList (h : Heap) (l other : ListId) (f : ListCell → ListCell) :
    (h.changeList l f).list? other = if other = l then (h.list? l).map f else h.list? other := by
  rcases hl : h.list? l with _ | c
  · by_cases ho : other = l <;> simp [changeList, hl, ho]
  · by_cases ho : other = l
    · simp [changeList, hl, ho, list?_putList_self hl]
    · simp [changeList, hl, ho, list?_putList_of_ne ho]

@[simp]
theorem list?_changeMap (h : Heap) (m : MapId) (f : MapCell → MapCell) (l : ListId) :
    (h.changeMap m f).list? l = h.list? l := by
  unfold changeMap
  split <;> rfl

@[simp]
theorem map?_changeList (h : Heap) (l : ListId) (f : ListCell → ListCell) (m : MapId) :
    (h.changeList l f).map? m = h.map? m := by
  unfold changeList
  split <;> rfl

@[simp]
theorem size_maps_changeMap (h : Heap) (m : MapId) (f : MapCell → MapCell) :
    (h.changeMap m f).maps.size = h.maps.size := by
  unfold changeMap
  split <;> simp [putMap]

@[simp]
theorem lists_changeMap (h : Heap) (m : MapId) (f : MapCell → MapCell) :
    (h.changeMap m f).lists = h.lists := by
  unfold changeMap
  split <;> rfl

@[simp]
theorem size_lists_changeList (h : Heap) (l : ListId) (f : ListCell → ListCell) :
    (h.changeList l f).lists.size = h.lists.size := by
  unfold changeList
  split <;> simp [putList]

@[simp]
theorem maps_changeList (h : Heap) (l : ListId) (f : ListCell → ListCell) :
    (h.changeList l f).maps = h.maps := by
  unfold changeList
  split <;> rfl

theorem index_lt_of_map? {h : Heap} {m : MapId} {c : MapCell} (hc : h.map? m = some c) :
    m.index < h.maps.size := by
  by_contra hlt
  simp [map?, hlt] at hc

theorem index_lt_of_list? {h : Heap} {l : ListId} {c : ListCell} (hc : h.list? l = some c) :
    l.index < h.lists.size := by
  by_contra hlt
  simp [list?, hlt] at hc

/-! ## Fresh containers -/

theorem map?_newMap (h : Heap) (entries : List (String × Value)) (m : MapId) :
    (h.newMap entries).1.map? m =
      if m.index = h.maps.size then
        some (entries.foldl (fun c e => c.store e.1 e.2) (.ofEntries []))
      else h.map? m := by
  simp only [newMap, map?, Array.getElem?_push]
  split <;> rfl

@[simp]
theorem list?_newMap (h : Heap) (entries : List (String × Value)) (l : ListId) :
    (h.newMap entries).1.list? l = h.list? l := rfl

theorem list?_newList (h : Heap) (items : List Value) (l : ListId) :
    (h.newList items).1.list? l =
      if l.index = h.lists.size then some (.ofItems items) else h.list? l := by
  simp only [newList, list?, Array.getElem?_push]
  split <;> rfl

@[simp]
theorem map?_newList (h : Heap) (items : List Value) (m : MapId) :
    (h.newList items).1.map? m = h.map? m := rfl

/-- A fresh map has plain fields only. -/
theorem watchers_of_fresh {entries : List (String × Value)} {c : MapCell} {key : String} {e : Entry}
    (plain : ∀ k e, c.lookup? k = some e → e.watchers = none)
    (he : (entries.foldl (fun c e => c.store e.1 e.2) c).lookup? key = some e) :
    e.watchers = none := by
  induction entries generalizing c with
  | nil => exact plain key e he
  | cons entry rest ih =>
    apply ih _ he
    intro k e' he'
    rw [MapCell.lookup?_store] at he'
    split at he'
    · simp only [Option.some.injEq] at he'
      subst he'
      rcases hx : c.lookup? entry.1 with _ | x
      · rfl
      · simpa using plain _ x hx
    · exact plain k e' he'

/-- A fresh map holds the values that it was made of. -/
theorem contents_of_fresh {entries : List (String × Value)} {c : MapCell} {v : Value}
    (hv : v ∈ (entries.foldl (fun c e => c.store e.1 e.2) c).contents) :
    v ∈ c.contents ∨ ∃ e ∈ entries, e.2 = v := by
  induction entries generalizing c with
  | nil => exact .inl hv
  | cons entry rest ih =>
    rcases ih hv with h | ⟨e, he, rfl⟩
    · rcases MapCell.mem_contents_alter (v := entry.2) (fun _ => rfl) rfl h with h | rfl
      · exact .inl h
      · exact .inr ⟨entry, by simp, rfl⟩
    · exact .inr ⟨e, by simp [he], rfl⟩

/-! ## Entries -/

theorem lookup?_changeMap (h : Heap) (m other : MapId) (f : MapCell → MapCell) (key : String) :
    (h.changeMap m f).lookup? other key =
      if other = m then (h.map? m).bind fun c => (f c).lookup? key else h.lookup? other key := by
  unfold lookup?
  rw [map?_changeMap]
  split
  · rcases h.map? m <;> rfl
  · rfl

@[simp]
theorem lookup?_changeList (h : Heap) (l : ListId) (f : ListCell → ListCell) (m : MapId)
    (key : String) : (h.changeList l f).lookup? m key = h.lookup? m key := by
  simp [lookup?]

theorem lookup?_eq_some_iff {h : Heap} {m : MapId} {key : String} {e : Entry} :
    h.lookup? m key = some e ↔ ∃ c, h.map? m = some c ∧ c.lookup? key = some e := by
  simp [lookup?, Option.bind_eq_some_iff]

theorem item?_eq (h : Heap) (l : ListId) (position : Nat) :
    h.item? l position = (h.items l)[position]? := by
  unfold item? items
  rcases h.list? l <;> simp

end Heap

end DataBinding
