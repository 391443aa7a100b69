-- A slot that is attached later. To observe a map and then to attach a key is the same as to have had the
-- key from the start, whatever circles the new value closes: an observation never looks into a container
-- that is observed, so a change in there can be made before it or after it.
import DataBinding.Proofs.Heap.Following
import DataBinding.Proofs.Heap.Spreading

namespace DataBinding

namespace MapCell

variable {c : MapCell} {key : String}

theorem lookup?_eq_none_iff : c.lookup? key = none ↔ key ∉ c.keys := by
  simp [lookup?, keys]

/-- A new key of an observed map is a slot from the start. -/
theorem install_slotted (absent : key ∉ c.keys) (v : Value) :
    c.slotted.install key v = slotted { c with entries := c.entries ++ [⟨key, v, none⟩] } := by
  have new : (c.slotted.lookup? key).isSome = false := by
    rw [c.lookup?_slotted, lookup?_eq_none_iff.mpr absent]
    rfl
  rw [install, alter, new]
  simp [slotted, Entry.slotted]

theorem store_of_absent (absent : key ∉ c.keys) (v : Value) :
    c.store key v = { c with entries := c.entries ++ [⟨key, v, none⟩] } := by
  rw [store, alter, lookup?_eq_none_iff.mpr absent]
  rfl

end MapCell

namespace Heap

variable {h : Heap} {m : MapId} {key : String}

/-! ## Changes of an observed map -/

theorem putMap_putMap (h : Heap) (m : MapId) (c c' : MapCell) :
    (h.putMap m c).putMap m c' = h.putMap m c' := by
  simp [putMap]

theorem putMap_comm (h : Heap) {m other : MapId} (ne : m ≠ other) (c c' : MapCell) :
    (h.putMap m c).putMap other c' = (h.putMap other c').putMap m c := by
  have apart : m.index ≠ other.index := fun e => ne (congrArg MapId.mk e)
  simp only [putMap, Array.setIfInBounds_comm _ _ apart]

theorem changeMap_eq {c : MapCell} (hc : h.map? m = some c) (f : MapCell → MapCell) :
    h.changeMap m f = h.putMap m (f c) := by
  rw [changeMap, hc]

/-- A change of one map and a new cell for another one can be made in either order. -/
theorem changeMap_putMap {other : MapId} (ne : m ≠ other) (f : MapCell → MapCell) (c : MapCell) :
    (h.putMap other c).changeMap m f = (h.changeMap m f).putMap other c := by
  rcases hm : h.map? m with _ | old
  · rw [changeMap, changeMap, map?_putMap_of_ne ne, hm]
  · rw [changeMap_eq hm, changeMap_eq ((map?_putMap_of_ne ne).trans hm), putMap_comm h ne.symm]

theorem changeMap_putList (f : MapCell → MapCell) (l : ListId) (c : ListCell) :
    (h.putList l c).changeMap m f = (h.changeMap m f).putList l c := by
  rw [changeMap, changeMap, map?_putList]
  cases h.map? m <;> rfl

/-- An observation does not see what changes in a map that is observed. -/
theorem observeAll_changeMap {f : MapCell → MapCell} (keeps : ∀ c, (f c).observed = c.observed)
    (pending : List Value) (observed : h.IsObserved (.map m)) :
    (h.changeMap m f).observeAll pending = (h.observeAll pending).changeMap m f := by
  have skip {h : Heap} {v : Value} (hv : h.IsObserved v) (rest : List Value) :
      (h.changeMap m f).observeAll (v :: rest) = (h.changeMap m f).observeAll rest :=
    observeAll_cons_of_isObserved (isObserved_changeMap hv m keeps) rest
  fun_induction observeAll h pending with
  | case1 => rw [observeAll]
  | case2 h other rest dead ih => rw [skip (isObserved_of_dead_map dead), ih observed]
  | case3 h other rest c hc marked ih => rw [skip (isObserved_of_marked_map hc marked), ih observed]
  | case4 h other rest c hc unmarked ih =>
    have ne : m ≠ other := by
      rintro rfl
      exact unmarked (observed c hc)
    have there : (h.changeMap m f).map? other = some c := by
      rw [map?_changeMap, if_neg ne.symm, hc]
    have still := (observedFrom_putMap hc (by simpa using unmarked)).isObserved observed
    rw [observeAll_cons_of_open_map there (by simpa using unmarked), ← changeMap_putMap ne, ih still]
  | case5 h l rest dead ih => rw [skip (isObserved_of_dead_list dead), ih observed]
  | case6 h l rest c hc marked ih => rw [skip (isObserved_of_marked_list hc marked), ih observed]
  | case7 h l rest c hc unmarked ih =>
    have there : (h.changeMap m f).list? l = some c := by rw [list?_changeMap, hc]
    have still := (observedFrom_putList hc (by simpa using unmarked)).isObserved observed
    rw [observeAll_cons_of_open_list there (by simpa using unmarked), ← changeMap_putList, ih still]
  | case8 h v rest noMap noList ih =>
    rw [skip (h.isObserved_of_scalar noMap noList), ih observed]

/-! ## Slots attached -/

theorem attach_of_no_slot (no : h.isSlot m key = false) (v : Value) :
    h.attach m key v = (h.define m key v, []) := by
  rw [attach, no]
  rfl

/-- A new key of an observed map is the key of a slot, and what it holds is observed with the rest. -/
theorem define_observe {c : MapCell} (hc : h.map? m = some c) (unmarked : c.observed = false)
    (absent : key ∉ c.keys) (v : Value) : (h.observe (.map m)).define m key v =
      (h.putMap m { c with entries := c.entries ++ [⟨key, v, none⟩] }).observe (.map m) := by
  have open₁ : (h.putMap m c.slotted).map? m = some c.slotted := map?_putMap_self hc
  have open₂ : (h.putMap m { c with entries := c.entries ++ [⟨key, v, none⟩] }).map? m =
      some { c with entries := c.entries ++ [⟨key, v, none⟩] } := map?_putMap_self hc
  have contents : MapCell.contents { c with entries := c.entries ++ [⟨key, v, none⟩] } =
      c.contents ++ [v] := by
    simp [MapCell.contents]
  calc (h.observe (.map m)).define m key v
      = ((h.putMap m c.slotted).observeAll (c.contents ++ [v])).changeMap m (·.install key v) := by
        rw [define, observe, observe, observeAll_cons_of_open_map hc unmarked, List.append_nil,
          observeAll_append]
    _ = ((h.putMap m c.slotted).changeMap m (·.install key v)).observeAll (c.contents ++ [v]) :=
        (observeAll_changeMap (observed_install · key v) _ (isObserved_of_marked_map open₁ rfl)).symm
    _ = (h.putMap m (c.slotted.install key v)).observeAll (c.contents ++ [v]) := by
        rw [changeMap_eq open₁, putMap_putMap]
    _ = (h.putMap m { c with entries := c.entries ++ [⟨key, v, none⟩] }).observe (.map m) := by
        rw [observe, observeAll_cons_of_open_map open₂ unmarked, putMap_putMap, contents,
          List.append_nil, MapCell.install_slotted absent]

theorem lookup?_of_absent {c : MapCell} (hc : h.map? m = some c) (absent : key ∉ c.keys) :
    h.lookup? m key = none := by
  rw [lookup?, hc, Option.bind_some, MapCell.lookup?_eq_none_iff.mpr absent]

theorem set_of_absent {c : MapCell} (hc : h.map? m = some c) (absent : key ∉ c.keys) (v : Value) :
    h.set m key v = (h.putMap m { c with entries := c.entries ++ [⟨key, v, none⟩] }, []) := by
  rw [set, lookup?_of_absent hc absent]
  simp only [changeMap_eq hc, MapCell.store_of_absent absent]

/-- A plain field has become a slot for a new value: its place among the keys is the old one, nobody
watches it, the value is observed, and nothing else has changed beside that. -/
structure Installed (h h' : Heap) (m : MapId) (key : String) (v : Value) : Prop where
  entry : h'.lookup? m key = some ⟨key, v, some []⟩
  keys : h'.keys m = h.keys m
  value : h'.IsObserved v
  others : ∀ other k, other ≠ m ∨ k ≠ key → h'.lookup? other k = (h.observe v).lookup? other k
  maps : ∀ other, other ≠ m → h'.map? other = (h.observe v).map? other
  lists : ∀ l, h'.list? l = (h.observe v).list? l
  registries : h'.registries = h.registries

/-- An observation may make a slot of a plain field, but it registers nobody there. -/
theorem watchers_observe_of_plain {e : Entry} (he : h.lookup? m key = some e)
    (plain : e.watchers = none) (v : Value) :
    ∃ c, (h.observe v).map? m = some c ∧ key ∈ c.keys ∧
      ((c.lookup? key).bind (·.watchers)).getD [] = [] := by
  have empty : ∃ e', (h.observe v).lookup? m key = some e' ∧ e'.watchers.getD [] = [] := by
    rcases (observedFrom_observe h v).lookup? m key with same | same <;> rw [he] at same
    · exact ⟨e, same, by rw [plain]; rfl⟩
    · exact ⟨e.slotted, same, by simp [Entry.slotted, plain]⟩
  obtain ⟨e', he', none⟩ := empty
  obtain ⟨c, hc, found⟩ := lookup?_eq_some_iff.mp he'
  refine ⟨c, hc, ?_, by rw [found]; exact none⟩
  exact List.mem_map.mpr ⟨e', MapCell.mem_of_lookup? found, MapCell.key_of_lookup? found⟩

theorem installed_define {e : Entry} (he : h.lookup? m key = some e) (plain : e.watchers = none)
    (v : Value) : Installed h (h.define m key v) m key v := by
  have o := observedFrom_observe h v
  obtain ⟨c, hc, there, empty⟩ := watchers_observe_of_plain he plain v
  have defined : h.define m key v = (h.observe v).changeMap m (·.install key v) := rfl
  constructor
  · rw [defined, lookup?_changeMap, if_pos rfl, hc, Option.bind_some, MapCell.lookup?_install,
      if_pos rfl, empty]
  · have kept : (c.install key v).keys = c.keys := by
      rw [MapCell.install]
      refine (c.keys_alter key ?_ rfl).trans (if_pos there)
      exact fun _ => rfl
    rw [← o.keys m, keys, keys, defined, map?_changeMap, if_pos rfl, hc]
    exact kept
  · exact isObserved_changeMap (isObserved_observe h v) m (observed_install · key v)
  · intro other k ne
    rw [defined, lookup?_changeMap]
    split
    · next e =>
      subst e
      rw [hc, Option.bind_some, MapCell.lookup?_install, if_neg (ne.resolve_left fun h => h rfl),
        lookup?, hc]
      rfl
    · rfl
  · intro other ne
    rw [defined, map?_changeMap, if_neg ne]
  · intro l
    rw [defined, list?_changeMap]
  · have registries : (h.define m key v).registries = (h.observe v).registries := by
      rw [defined, changeMap_eq hc]
      rfl
    exact registries.trans o.registries

/-- To attach a new key to a map that has been observed is to have written it before, as a plain field at
the end, and to observe the map then. To attach a slot is to write to it. To attach a
plain field makes it a slot in its place. None of these but the write owes anybody a turn. -/
theorem attaching_is_having_had (h : Heap) (m : MapId) (key : String) (v : Value) :
    (∀ c, h.map? m = some c → c.observed = false → key ∉ c.keys →
      h.set m key v = (h.putMap m { c with entries := c.entries ++ [⟨key, v, none⟩] }, []) ∧
        (h.observe (.map m)).attach m key v = ((h.set m key v).1.observe (.map m), [])) ∧
      (h.isSlot m key = true → h.attach m key v = h.set m key v) ∧
      ∀ e, h.lookup? m key = some e → e.watchers = none →
        Installed h (h.attach m key v).1 m key v ∧ (h.attach m key v).2 = [] := by
  refine ⟨fun c hc unmarked absent => ?_, fun slot => if_pos slot, fun e he plain => ?_⟩
  · have added := set_of_absent hc absent v
    have no : (h.observe (.map m)).isSlot m key = false := by
      have before := lookup?_of_absent hc absent
      rcases (observedFrom_observe h (.map m)).lookup? m key with same | same <;>
        rw [isSlot, same, before] <;> rfl
    rw [attach_of_no_slot no, define_observe hc unmarked absent, added]
    exact ⟨rfl, rfl⟩
  · have no : h.isSlot m key = false := by
      rw [isSlot, he, Option.bind_some, plain]
      rfl
    rw [attach_of_no_slot no]
    exact ⟨installed_define he plain v, rfl⟩

/-- A map that is not observed and holds a list that holds the map, beside a map with a watched slot. -/
def circle : Heap where
  maps := #[some ⟨[⟨"a", .list ⟨0⟩, none⟩], false⟩, some ⟨[⟨"c", .null, some [⟨0⟩]⟩], true⟩]
  lists := #[some ⟨[.map ⟨0⟩], false, []⟩]
  registries := #[]

theorem attaching_in_circle :
    (circle.map? ⟨0⟩ = some ⟨[⟨"a", .list ⟨0⟩, none⟩], false⟩ ∧ circle.isSlot ⟨1⟩ "c" = true ∧
      circle.lookup? ⟨0⟩ "a" = some ⟨"a", .list ⟨0⟩, none⟩) ∧
    (circle.observe (.map ⟨0⟩)).attach ⟨0⟩ "b" (.list ⟨0⟩) =
      ((circle.set ⟨0⟩ "b" (.list ⟨0⟩)).1.observe (.map ⟨0⟩), []) ∧
    circle.attach ⟨1⟩ "c" (.map ⟨0⟩) = circle.set ⟨1⟩ "c" (.map ⟨0⟩) ∧
    Installed circle (circle.attach ⟨0⟩ "a" (.map ⟨0⟩)).1 ⟨0⟩ "a" (.map ⟨0⟩) := by
  refine ⟨⟨by decide, by decide, by decide⟩, ?_, ?_, ?_⟩
  · exact ((attaching_is_having_had circle ⟨0⟩ "b" (.list ⟨0⟩)).1 _ rfl rfl (by decide)).2
  · exact (attaching_is_having_had circle ⟨1⟩ "c" (.map ⟨0⟩)).2.1 (by decide)
  · exact ((attaching_is_having_had circle ⟨0⟩ "a" (.map ⟨0⟩)).2.2 _ rfl rfl).1

end Heap

end DataBinding
