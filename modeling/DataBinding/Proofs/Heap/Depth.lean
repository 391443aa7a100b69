-- Deep observation. A heap is deep if its observed maps have slots only and its observed containers hold
-- observed values. Then all that an observed container leads to is observed. An edit keeps a heap deep
-- unless it puts in a bare value: under a key of an observed map that is no slot, or at a position of
-- an observed list.
import DataBinding.Proofs.Heap.Histories
import DataBinding.Proofs.Heap.Spreading

namespace DataBinding.Heap

/-! ## Deep heaps -/

/-- One container leads to another one through what containers hold. -/
inductive Leads (h : Heap) (c : Container) : Container → Prop where
  | refl : Leads h c c
  | step {d e : Container} {v : Value} (before : Leads h c d) (held : v ∈ h.contents d)
      (is : v.container? = some e) : Leads h c e

structure Deep (h : Heap) : Prop where
  slots : ∀ m key e, h.mark? (.map m) = some true → h.lookup? m key = some e → e.watchers.isSome
  known : ∀ c, h.mark? c = some true → ∀ v ∈ h.contents c, h.Knows v
  contents : ∀ c, h.mark? c = some true → ∀ v ∈ h.contents c, h.IsObserved v

theorem contents_of_dead {h : Heap} {c : Container} (dead : h.mark? c = none) :
    h.contents c = [] := by
  cases c with
  | map m =>
    have : h.map? m = none := by simpa [mark?] using dead
    simp [contents, this]
  | list l =>
    have : h.list? l = none := by simpa [mark?] using dead
    simp [contents, items, this]

theorem Closed.contents {h : Heap} (closed : h.Closed) {c : Container} {v : Value}
    (hv : v ∈ h.contents c) : h.Knows v := by
  cases c with
  | map m =>
    rcases hm : h.map? m with _ | cell
    · simp [Heap.contents, hm] at hv
    · exact closed.maps m cell hm v (by simpa [Heap.contents, hm] using hv)
  | list l => exact closed.items hv

theorem ObservedFrom.isSlot {h h' : Heap} (o : ObservedFrom h h') {m : MapId} {key : String}
    (slot : h.isSlot m key = true) : h'.isSlot m key = true := by
  rcases he : h.lookup? m key with _ | e
  · simp [Heap.isSlot, he] at slot
  · have hw : e.watchers.isSome = true := by simpa [Heap.isSlot, he] using slot
    rcases o.lookup? m key with same | same
    · rwa [Heap.isSlot, same]
    · simp [Heap.isSlot, same, he, Entry.slotted]

namespace Deep

variable {h : Heap}

/-- In a deep heap an observed container leads to observed ones only. -/
theorem unmarked_of_leads (deep : h.Deep) {c d : Container} (marked : h.mark? c = some true)
    (leads : h.Leads c d) : h.mark? d ≠ some false := by
  induction leads with
  | refl => simp [marked]
  | @step d e v _ held is ih =>
    rcases hd : h.mark? d with _ | _ | _
    · rw [contents_of_dead hd] at held
      cases held
    · exact absurd hd ih
    · exact isObserved_iff.mp (deep.contents d hd v held) e is

theorem isSlot (deep : h.Deep) {m : MapId} (marked : h.mark? (.map m) = some true) {key : String}
    (there : key ∈ h.keys m) : h.isSlot m key = true := by
  obtain ⟨c, hc, _⟩ := Option.map_eq_some_iff.mp marked
  have there : key ∈ c.keys := by simpa [keys, hc] using there
  obtain ⟨e, he, hk⟩ := List.mem_map.mp there
  have found : (c.lookup? key).isSome := List.find?_isSome.mpr ⟨e, he, by simpa using hk⟩
  obtain ⟨x, hx⟩ := Option.isSome_iff_exists.mp found
  have hx : h.lookup? m key = some x := lookup?_eq_some_iff.mpr ⟨c, hc, hx⟩
  simpa [Heap.isSlot, hx] using deep.slots m key x marked hx

end Deep

theorem deep_empty : Heap.empty.Deep := by
  have nothing (c : Container) : Heap.empty.mark? c = none := by cases c <;> rfl
  constructor <;> simp [nothing]

/-! ## What stays as it is -/

/-- Whatever is marked afterwards was marked before and shows the same, and what was observed stays
observed. -/
structure Rests (h h' : Heap) : Prop where
  maps : ∀ m c', h'.map? m = some c' → c'.observed = true →
    ∃ c, h.map? m = some c ∧ c.face = c'.face
  lists : ∀ l c', h'.list? l = some c' → c'.observed = true →
    ∃ c, h.list? l = some c ∧ c.face = c'.face
  extend : h'.Extends h
  observed : ∀ v, h.Knows v → h.IsObserved v → h'.IsObserved v

namespace Rests

variable {h h' : Heap}

theorem contents_map {c c' : MapCell} (face : c.face = c'.face) : c.contents = c'.contents := by
  have entries (c : MapCell) : c.contents = c.face.1.map (·.2.1) := by
    simp [MapCell.face, MapCell.contents, Entry.face]
  rw [entries, entries, face]

theorem marked (rests : Rests h h') {c : Container} (marked : h'.mark? c = some true) :
    h.mark? c = some true ∧ h'.contents c = h.contents c := by
  cases c with
  | map m =>
    obtain ⟨c', hc', observed⟩ := Option.map_eq_some_iff.mp marked
    obtain ⟨c, hc, face⟩ := rests.maps m c' hc' observed
    have same : c.observed = c'.observed := congrArg Prod.snd face
    simp [mark?, Heap.contents, hc, hc', same, observed, contents_map face]
  | list l =>
    obtain ⟨c', hc', observed⟩ := Option.map_eq_some_iff.mp marked
    obtain ⟨c, hc, face⟩ := rests.lists l c' hc' observed
    have same : c.observed = c'.observed := congrArg Prod.snd face
    have items : c.items = c'.items := congrArg Prod.fst face
    simp [mark?, Heap.contents, Heap.items, hc, hc', same, observed, items]

theorem lookup? (rests : Rests h h') {m : MapId} (marked : h'.mark? (.map m) = some true)
    (key : String) : (h'.lookup? m key).map Entry.face = (h.lookup? m key).map Entry.face := by
  obtain ⟨c', hc', observed⟩ := Option.map_eq_some_iff.mp marked
  obtain ⟨c, hc, face⟩ := rests.maps m c' hc' observed
  rw [Heap.lookup?, Heap.lookup?, hc, hc', Option.bind_some, Option.bind_some, c'.face_lookup?,
    c.face_lookup?, face]

theorem deep (rests : Rests h h') (deep : h.Deep) : h'.Deep := by
  refine ⟨?_, ?_, ?_⟩
  · intro m key e' marked he'
    have same := rests.lookup? marked key
    rw [he'] at same
    obtain ⟨e, he, face⟩ := Option.map_eq_some_iff.mp same.symm
    have slot : e.watchers.isSome = e'.watchers.isSome := congrArg (·.2.2) face
    exact slot ▸ deep.slots m key e (rests.marked marked).1 he
  · intro c marked v hv
    obtain ⟨before, same⟩ := rests.marked marked
    exact rests.extend.knows (deep.known c before v (same ▸ hv))
  · intro c marked v hv
    obtain ⟨before, same⟩ := rests.marked marked
    have hv := same ▸ hv
    exact rests.observed v (deep.known c before v hv) (deep.contents c before v hv)

end Rests

theorem SameFaces.rests {h h' : Heap} (s : SameFaces h h') : Rests h h' := by
  refine ⟨fun m c' hc' _ => ?_, fun l c' hc' _ => ?_, s.extends, fun _ _ => s.isObserved⟩
  · have face := s.maps m
    rw [hc'] at face
    exact Option.map_eq_some_iff.mp face.symm
  · have face := s.lists l
    rw [hc'] at face
    exact Option.map_eq_some_iff.mp face.symm

theorem ReleasedFrom.rests {h h' : Heap} (f : ReleasedFrom h h') : Rests h h' :=
  ⟨fun _ c' hc' _ => ⟨c', f.map? hc', rfl⟩, fun _ c' hc' _ => ⟨c', f.list? hc', rfl⟩, f.extends,
    fun _ _ => f.isObserved⟩

theorem observed_of_fresh {c : MapCell} (entries : List (String × Value)) :
    (entries.foldl (fun c e => c.store e.1 e.2) c).observed = c.observed := by
  induction entries generalizing c with
  | nil => rfl
  | cons e rest ih => exact ih.trans (observed_store c e.1 e.2)

theorem rests_newMap (h : Heap) (entries : List (String × Value)) :
    Rests h (h.newMap entries).1 := by
  refine ⟨fun m c' hc' observed => ?_, fun l c' hc' _ => ⟨c', hc', rfl⟩,
    extends_apply h (.newMap entries), fun v known hv => isObserved_newMap known hv entries⟩
  rw [map?_newMap] at hc'
  split at hc'
  · simp only [Option.some.injEq] at hc'
    rw [← hc', observed_of_fresh] at observed
    cases observed
  · exact ⟨c', hc', rfl⟩

theorem rests_newList (h : Heap) (items : List Value) : Rests h (h.newList items).1 := by
  refine ⟨fun m c' hc' _ => ⟨c', hc', rfl⟩, fun l c' hc' observed => ?_,
    extends_apply h (.newList items), fun v known hv => isObserved_newList known hv items⟩
  rw [list?_newList] at hc'
  split at hc'
  · simp only [Option.some.injEq] at hc'
    subst hc'
    cases observed
  · exact ⟨c', hc', rfl⟩

/-- A change of a map that is not observed. -/
theorem rests_changeMap {h : Heap} {m : MapId} (unmarked : h.mark? (.map m) ≠ some true)
    {f : MapCell → MapCell} (hf : ∀ c, (f c).observed = c.observed) :
    Rests h (h.changeMap m f) := by
  refine ⟨fun other c' hc' observed => ?_, fun l c' hc' _ => ⟨c', by simpa using hc', rfl⟩,
    extends_changeMap h m f, fun v _ hv => isObserved_changeMap hv m hf⟩
  rw [map?_changeMap] at hc'
  split at hc'
  · obtain ⟨c, hc, rfl⟩ := Option.map_eq_some_iff.mp hc'
    rw [hf] at observed
    exact absurd (by rw [mark?, hc, Option.map_some, observed]) unmarked
  · exact ⟨c', hc', rfl⟩

/-- A change of a list that is not observed. -/
theorem rests_changeList {h : Heap} {l : ListId} (unmarked : h.mark? (.list l) ≠ some true)
    {f : ListCell → ListCell} (hf : ∀ c, (f c).observed = c.observed) :
    Rests h (h.changeList l f) := by
  refine ⟨fun m c' hc' _ => ⟨c', by simpa using hc', rfl⟩, fun other c' hc' observed => ?_,
    extends_changeList h l f, fun v _ hv => isObserved_changeList hv l hf⟩
  rw [list?_changeList] at hc'
  split at hc'
  · obtain ⟨c, hc, rfl⟩ := Option.map_eq_some_iff.mp hc'
    rw [hf] at observed
    exact absurd (by rw [mark?, hc, Option.map_some, observed]) unmarked
  · exact ⟨c', hc', rfl⟩

/-! ## Observation -/

/-- An observation of all that is missing in the observed containers makes a heap deep. -/
theorem deep_observeAll {h : Heap} (closed : h.Closed) {pending : List Value}
    (slots : ∀ m key e, h.mark? (.map m) = some true → h.lookup? m key = some e →
      e.watchers.isSome)
    (held : ∀ c, h.mark? c = some true → ∀ v ∈ h.contents c, h.IsObserved v ∨ v ∈ pending) :
    (h.observeAll pending).Deep := by
  have o := observedFrom_observeAll h pending
  refine ⟨?_, ?_, ?_⟩
  · intro m key e marked he
    obtain ⟨c', hc', he⟩ := lookup?_eq_some_iff.mp he
    rcases o.maps m with same | ⟨c, _, _, new⟩
    · rw [mark?, same] at marked
      exact slots m key e marked (lookup?_eq_some_iff.mpr ⟨c', same ▸ hc', he⟩)
    · rw [new] at hc'
      cases hc'
      rw [MapCell.lookup?_slotted] at he
      obtain ⟨_, _, rfl⟩ := Option.map_eq_some_iff.mp he
      rfl
  · exact fun c _ v hv => (o.closed closed).contents hv
  · intro c marked v hv
    rw [o.contents c] at hv
    rcases o.mark? c with same | ⟨unmarked, _⟩
    · rcases held c (same ▸ marked) v hv with observed | waits
      · exact o.isObserved observed
      · exact isObserved_observeAll h pending v waits
    · exact isObserved_of_marked h pending unmarked marked v hv

theorem Deep.observeAll {h : Heap} (deep : h.Deep) (closed : h.Closed) (pending : List Value) :
    (h.observeAll pending).Deep :=
  deep_observeAll closed deep.slots fun c marked v hv => .inl (deep.contents c marked v hv)

/-! ## Writes -/

theorem mark?_changeMap (h : Heap) (m : MapId) {f : MapCell → MapCell}
    (hf : ∀ c, (f c).observed = c.observed) (c : Container) :
    (h.changeMap m f).mark? c = h.mark? c := by
  cases c with
  | map other =>
    rw [mark?, mark?, map?_changeMap]
    split
    · rename_i e
      rw [e, Option.map_map]
      exact Option.map_congr fun c _ => hf c
    · rfl
  | list l => rw [mark?, mark?, list?_changeMap]

theorem mark?_changeList (h : Heap) (l : ListId) {f : ListCell → ListCell}
    (hf : ∀ c, (f c).observed = c.observed) (c : Container) :
    (h.changeList l f).mark? c = h.mark? c := by
  cases c with
  | map m => rw [mark?, mark?, map?_changeList]
  | list other =>
    rw [mark?, mark?, list?_changeList]
    split
    · rename_i e
      rw [e, Option.map_map]
      exact Option.map_congr fun c _ => hf c
    · rfl

/-- An observed value is put under a key that is a slot afterwards. -/
theorem Deep.changeMap {h : Heap} (deep : h.Deep) (m : MapId) (key : String) {v : Value}
    (known : h.Knows v) (observed : h.IsObserved v) {f : MapCell → MapCell}
    (hf : ∀ c, (f c).observed = c.observed)
    (other : ∀ c k, k ≠ key → (f c).lookup? k = c.lookup? k)
    (self : ∀ c e, h.map? m = some c → (f c).lookup? key = some e → e.watchers.isSome)
    (held : ∀ c, ∀ x ∈ (f c).contents, x ∈ c.contents ∨ x = v) : (h.changeMap m f).Deep := by
  have ext := extends_changeMap h m f
  have old {c : Container} {x : Value} (marked : h.mark? c = some true)
      (hx : x ∈ (h.changeMap m f).contents c) : h.Knows x ∧ h.IsObserved x := by
    have before (hx : x ∈ h.contents c) : h.Knows x ∧ h.IsObserved x :=
      ⟨deep.known c marked x hx, deep.contents c marked x hx⟩
    cases c with
    | map m' =>
      by_cases hm : m' = m
      · subst hm
        rw [Heap.contents, map?_changeMap, if_pos rfl] at hx
        rcases hc : h.map? m' with _ | c
        · simp [hc] at hx
        · rcases held c x (by simpa [hc] using hx) with hx | rfl
          · exact before (by simpa [Heap.contents, hc] using hx)
          · exact ⟨known, observed⟩
      · rw [Heap.contents, map?_changeMap, if_neg hm] at hx
        exact before hx
    | list l =>
      simp only [Heap.contents, items, list?_changeMap] at hx
      exact before hx
  refine ⟨?_, ?_, ?_⟩
  · intro m' k e marked he
    rw [mark?_changeMap h m hf] at marked
    rw [lookup?_changeMap] at he
    split at he
    · rename_i hm
      subst hm
      obtain ⟨c, hc, he⟩ := Option.bind_eq_some_iff.mp he
      by_cases hk : k = key
      · exact self c e hc (hk ▸ he)
      · rw [other c k hk] at he
        exact deep.slots m' k e marked (lookup?_eq_some_iff.mpr ⟨c, hc, he⟩)
    · exact deep.slots m' k e marked he
  · intro c marked x hx
    rw [mark?_changeMap h m hf] at marked
    exact ext.knows (old marked hx).1
  · intro c marked x hx
    rw [mark?_changeMap h m hf] at marked
    exact isObserved_changeMap (old marked hx).2 m hf

theorem Deep.store {h : Heap} (deep : h.Deep) {m : MapId} {key : String} {v : Value}
    (slot : h.isSlot m key = true) (known : h.Knows v) (observed : h.IsObserved v) :
    (h.changeMap m (·.store key v)).Deep := by
  refine deep.changeMap m key known observed (observed_store · key v) ?_ ?_
    fun c x hx => MapCell.mem_contents_alter (fun _ => rfl) rfl hx
  · intro c k hk
    rw [MapCell.lookup?_store, if_neg hk]
  · intro c e hc he
    rw [MapCell.lookup?_store, if_pos rfl, Option.some.injEq] at he
    subst he
    simpa [Heap.isSlot, lookup?, hc] using slot

theorem Deep.install {h : Heap} (deep : h.Deep) (m : MapId) (key : String) {v : Value}
    (known : h.Knows v) (observed : h.IsObserved v) : (h.changeMap m (·.install key v)).Deep := by
  refine deep.changeMap m key known observed (observed_install · key v) ?_ ?_
    fun c x hx => MapCell.mem_contents_alter (fun _ => rfl) rfl hx
  · intro c k hk
    rw [MapCell.lookup?_install, if_neg hk]
  · intro c e _ he
    rw [MapCell.lookup?_install, if_pos rfl, Option.some.injEq] at he
    subst he
    rfl

/-- The items of an observed list are replaced by some of them and by values that are observed at once. -/
theorem Deep.mutate {h : Heap} (deep : h.Deep) (closed : h.Closed) {l : ListId}
    {items inserted : List Value} (known : ∀ v ∈ items, h.Knows v)
    (drawn : ∀ v ∈ items, v ∈ h.items l ∨ v ∈ inserted) (marked : h.mark? (.list l) = some true) :
    ((h.changeList l ({ · with items })).observeAll inserted).Deep := by
  have same := mark?_changeList h l (f := ({ · with items })) fun _ => rfl
  have stays {v : Value} (hv : h.IsObserved v) :
      (h.changeList l ({ · with items })).IsObserved v := isObserved_changeList hv l fun _ => rfl
  refine deep_observeAll (closed_changeList closed fun _ _ => known) ?_ ?_
  · intro m key e marked he
    rw [same] at marked
    exact deep.slots m key e marked (by simpa using he)
  · intro c hc v hv
    rw [same] at hc
    by_cases hl : c = .list l
    · subst hl
      obtain ⟨cell, there, _⟩ := Option.map_eq_some_iff.mp marked
      have hv : v ∈ items := by
        simpa [Heap.contents, Heap.items, list?_changeList, there] using hv
      exact (drawn v hv).imp_left fun old => stays (deep.contents _ hc v old)
    · have e : (h.changeList l ({ · with items })).contents c = h.contents c := by
        cases c with
        | map m => simp [Heap.contents]
        | list other =>
          have : other ≠ l := fun e => hl (congrArg _ e)
          simp [Heap.contents, Heap.items, list?_changeList, this]
      exact .inl (stays (deep.contents c hc v (e ▸ hv)))

end DataBinding.Heap

namespace DataBinding

/-! ## Edits -/

namespace Edit

/-- A bare write: to a key of an observed map that is no slot, or to a position of an observed list. -/
def Bares (h : Heap) : Edit → Prop
  | .set m key _ => h.mark? (.map m) = some true ∧ h.isSlot m key = false
  | .place l _ _ => h.mark? (.list l) = some true
  | _ => False

/-- What a list is given was in it or is inserted. -/
def Draws (h : Heap) : Edit → Prop
  | .mutate l items inserted => ∀ v ∈ items, v ∈ h.items l ∨ v ∈ inserted
  | _ => True

/-- An edit puts in known values only, and into a list only what it inserts. -/
structure Fits (h : Heap) (e : Edit) : Prop where
  known : ∀ v ∈ e.values, h.Knows v
  drawn : e.Draws h

end Edit

namespace Heap

theorem rests_register (h : Heap) (id : WatcherId) (r : Registry) : Rests h (h.register id r) :=
  (sameFaces_register h id r).rests

theorem rests_newRegistry (h : Heap) : Rests h h.newRegistry.1 :=
  ⟨fun _ c' hc' _ => ⟨c', hc', rfl⟩, fun _ c' hc' _ => ⟨c', hc', rfl⟩,
    extends_apply h .newRegistry, fun _ _ hv => hv⟩

/-- An edit that is no bare write keeps a heap deep. -/
theorem deep_apply {h : Heap} (closed : h.Closed) (deep : h.Deep) {e : Edit} (fits : e.Fits h)
    (covered : ¬e.Bares h) : (e.apply h).1.Deep := by
  obtain ⟨known, drawn⟩ := fits
  cases e with
  | newMap entries => exact (rests_newMap h entries).deep deep
  | newList items => exact (rests_newList h items).deep deep
  | newRegistry => exact (rests_newRegistry h).deep deep
  | register id r => exact (rests_register h id r).deep deep
  | observe v => exact deep.observeAll closed [v]
  | set m key v =>
    have hv : h.Knows v := known v (by simp [Edit.values])
    have o := observedFrom_observe h v
    rcases h.set_cases m key v with ⟨_, _, _, _, e⟩ | ⟨old, ws, he, _, e⟩ | ⟨plain, e⟩
    · simpa only [Edit.apply, e] using deep
    · simp only [Edit.apply, e]
      have slot : (h.observe v).isSlot m key = true := o.isSlot (by simp [Heap.isSlot, he])
      exact (deep.observeAll closed [v]).store slot (o.extends.knows hv) (h.isObserved_observe v)
    · simp only [Edit.apply, e]
      have unmarked : h.mark? (.map m) ≠ some true := fun marked => covered ⟨marked, plain⟩
      exact (rests_changeMap unmarked (observed_store · key v)).deep deep
  | define m key v =>
    have hv : h.Knows v := known v (by simp [Edit.values])
    exact (deep.observeAll closed [v]).install m key ((observedFrom_observe h v).extends.knows hv)
      (h.isObserved_observe v)
  | mutate l items inserted =>
    rcases h.mutate_cases l items inserted with ⟨_, e⟩ | ⟨c, hc, marked, e⟩ | ⟨c, hc, unmarked, e⟩
    · simpa only [Edit.apply, e] using deep
    · simp only [Edit.apply, e]
      exact deep.mutate closed known drawn (by simp [mark?, hc, marked])
    · simp only [Edit.apply, e]
      have unmarked : h.mark? (.list l) ≠ some true := by simp [mark?, hc, unmarked]
      exact (rests_changeList unmarked (f := ({ · with items })) fun _ => rfl).deep deep
  | place l position v =>
    have rests : Rests h (h.setItem l position v) := rests_changeList covered fun _ => rfl
    exact rests.deep deep

end Heap

end DataBinding
