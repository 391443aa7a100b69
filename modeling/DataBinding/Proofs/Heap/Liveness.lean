-- Live values. No edit frees a container, and what a container holds afterwards it held before, unless the
-- edit put it there. So a heap in which nothing names a freed container stays so for as long as only
-- live values are put in, and whatever is read from it is live.
import DataBinding.Proofs.Heap.Releasing
import DataBinding.Proofs.Heap.Registration

namespace DataBinding.Heap

/-! ## What an edit takes in -/

/-- Every container that is live stays live, and what containers hold anew is one of the given values
or null. -/
structure Takes (vs : List Value) (h h' : Heap) : Prop where
  live : ∀ c, h.isLive c = true → h'.isLive c = true
  contents : ∀ c, ∀ v ∈ h'.contents c, v ∈ h.contents c ∨ v ∈ vs ∨ v = .null

namespace Takes

variable {vs : List Value} {h h' h'' : Heap}

theorem refl (h : Heap) : Takes vs h h := ⟨fun _ live => live, fun _ _ hv => .inl hv⟩

theorem trans (first : Takes vs h h') (second : Takes vs h' h'') : Takes vs h h'' := by
  refine ⟨fun c live => second.live c (first.live c live), fun c v hv => ?_⟩
  rcases second.contents c v hv with hv | hv
  · exact first.contents c v hv
  · exact .inr hv

theorem of_same (live : ∀ c, h'.isLive c = h.isLive c) (contents : ∀ c, h'.contents c = h.contents c) :
    Takes vs h h' :=
  ⟨fun c hc => (live c).trans hc, fun c _ hv => .inl (contents c ▸ hv)⟩

theorem lives (takes : Takes vs h h') {v : Value} (lives : h.Lives v) : h'.Lives v :=
  fun c is => takes.live c (lives c is)

/-- Where nothing names a freed container, it stays so if only live values are taken in. -/
theorem whole (takes : Takes vs h h') (whole : h.Whole) (known : ∀ v ∈ vs, h.Lives v) :
    h'.Whole := by
  intro c v hv
  rcases takes.contents c v hv with hv | hv | rfl
  · exact takes.lives (whole c v hv)
  · exact takes.lives (known v hv)
  · intro d is
    cases is

end Takes

/-- Every container that is live stays live, and where nothing names a freed container it stays so. -/
structure Preserves (h h' : Heap) : Prop where
  live : ∀ c, h.isLive c = true → h'.isLive c = true
  whole : h.Whole → h'.Whole

namespace Preserves

variable {h h' h'' : Heap}

theorem refl (h : Heap) : Preserves h h := ⟨fun _ live => live, fun whole => whole⟩

theorem trans (first : Preserves h h') (second : Preserves h' h'') : Preserves h h'' :=
  ⟨fun c live => second.live c (first.live c live), fun whole => second.whole (first.whole whole)⟩

theorem lives (preserves : Preserves h h') {v : Value} (lives : h.Lives v) : h'.Lives v :=
  fun c is => preserves.live c (lives c is)

end Preserves

theorem Takes.preserves {vs : List Value} {h h' : Heap} (takes : Takes vs h h')
    (known : ∀ v ∈ vs, h.Lives v) : Preserves h h' :=
  ⟨takes.live, fun whole => takes.whole whole known⟩

theorem isLive_changeMap (h : Heap) (m : MapId) (f : MapCell → MapCell) (c : Container) :
    (h.changeMap m f).isLive c = h.isLive c := by
  cases c with
  | map other =>
    simp only [isLive, map?_changeMap]
    split
    · rename_i e
      simp [e]
    · rfl
  | list l => simp [isLive]

theorem isLive_changeList (h : Heap) (l : ListId) (f : ListCell → ListCell) (c : Container) :
    (h.changeList l f).isLive c = h.isLive c := by
  cases c with
  | map m => simp [isLive]
  | list other =>
    simp only [isLive, list?_changeList]
    split
    · rename_i e
      simp [e]
    · rfl

theorem takes_changeMap {vs : List Value} (h : Heap) (m : MapId) {f : MapCell → MapCell}
    (hf : ∀ c : MapCell, ∀ v ∈ (f c).contents, v ∈ c.contents ∨ v ∈ vs) :
    Takes vs h (h.changeMap m f) := by
  refine ⟨fun c live => (isLive_changeMap h m f c).trans live, fun c v hv => ?_⟩
  cases c with
  | map other =>
    simp only [contents, map?_changeMap] at hv ⊢
    split at hv
    · rename_i e
      subst e
      rcases hc : h.map? other with _ | c
      · simp [hc] at hv
      · exact (hf c v (by simpa [hc] using hv)).imp_right .inl
    · exact .inl hv
  | list l => exact .inl (by simpa [contents, items] using hv)

theorem takes_changeList {vs : List Value} (h : Heap) (l : ListId) {f : ListCell → ListCell}
    (hf : ∀ c, h.list? l = some c → ∀ v ∈ (f c).items, v ∈ c.items ∨ v ∈ vs ∨ v = .null) :
    Takes vs h (h.changeList l f) := by
  refine ⟨fun c live => (isLive_changeList h l f c).trans live, fun c v hv => ?_⟩
  cases c with
  | map m => exact .inl (by simpa [contents] using hv)
  | list other =>
    simp only [contents, items, list?_changeList] at hv ⊢
    split at hv
    · rename_i e
      subst e
      rcases hc : h.list? other with _ | c
      · simp [hc] at hv
      · exact hf c hc v (by simpa [hc] using hv)
    · exact .inl hv

theorem ObservedFrom.takes {vs : List Value} {h h' : Heap} (o : ObservedFrom h h') :
    Takes vs h h' := by
  refine .of_same (fun c => ?_) o.contents
  cases c with
  | map m =>
    rcases o.maps m with e | ⟨cell, hc, _, e⟩
    · simp [isLive, e]
    · simp [isLive, e, hc]
  | list l =>
    rcases o.lists l with e | ⟨cell, hc, _, e⟩
    · simp [isLive, e]
    · simp [isLive, e, hc]

theorem SameFaces.contents {h h' : Heap} (s : SameFaces h h') (c : Container) :
    h'.contents c = h.contents c := by
  cases c with
  | map m =>
    have face := s.maps m
    rcases hc : h.map? m with _ | c <;> rcases hc' : h'.map? m with _ | c'
    · simp [Heap.contents, hc, hc']
    · simp [hc, hc'] at face
    · simp [hc, hc'] at face
    · simp only [hc, hc', Option.map_some, Option.some.injEq] at face
      simpa [Heap.contents, hc, hc'] using Rests.contents_map face
  | list l => exact s.items l

theorem SameFaces.takes {vs : List Value} {h h' : Heap} (s : SameFaces h h') : Takes vs h h' :=
  .of_same s.isLive s.contents

theorem takes_newMap (h : Heap) (entries : List (String × Value)) :
    Takes (entries.map (·.2)) h (h.newMap entries).1 := by
  constructor
  · intro c live
    cases c with
    | map m =>
      have lt : m.index < h.maps.size := reserves_of_isLive live
      simp only [isLive, map?_newMap] at live ⊢
      rwa [if_neg (Nat.ne_of_lt lt)]
    | list l => exact live
  · intro c v hv
    cases c with
    | map m =>
      simp only [contents, map?_newMap] at hv ⊢
      split at hv
      · rcases contents_of_fresh hv with hv | ⟨e, he, rfl⟩
        · simp [MapCell.ofEntries, MapCell.contents] at hv
        · exact .inr (.inl (List.mem_map.mpr ⟨e, he, rfl⟩))
      · exact .inl hv
    | list l => exact .inl hv

theorem takes_newList (h : Heap) (vs : List Value) : Takes vs h (h.newList vs).1 := by
  constructor
  · intro c live
    cases c with
    | map m => exact live
    | list l =>
      have lt : l.index < h.lists.size := reserves_of_isLive live
      simp only [isLive, list?_newList] at live ⊢
      rwa [if_neg (Nat.ne_of_lt lt)]
  · intro c v hv
    cases c with
    | map m => exact .inl hv
    | list l =>
      simp only [contents, items, list?_newList] at hv ⊢
      split at hv
      · exact .inr (.inl hv)
      · exact .inl hv

/-- An edit takes in the values that it puts into the heap. -/
theorem takes_apply (h : Heap) (e : Edit) : Takes e.values h (e.apply h).1 := by
  have store (h : Heap) (m : MapId) (key : String) (v : Value) :
      Takes [v] h (h.changeMap m (·.store key v)) := takes_changeMap h m fun c x hx =>
    (MapCell.mem_contents_alter (v := v) (fun _ => rfl) rfl hx).imp_right List.mem_singleton.mpr
  cases e with
  | newMap entries => exact takes_newMap h entries
  | newList items => exact takes_newList h items
  | newRegistry => exact .of_same (fun c => by cases c <;> rfl) fun c => by cases c <;> rfl
  | observe v => exact (observedFrom_observe h v).takes
  | set m key v =>
    rcases h.set_cases m key v with ⟨_, _, _, _, e⟩ | ⟨_, _, _, _, e⟩ | ⟨_, e⟩
    · simp only [Edit.apply, e]
      exact .refl h
    · simp only [Edit.apply, e]
      exact (observedFrom_observe h v).takes.trans (store _ m key v)
    · simp only [Edit.apply, e]
      exact store h m key v
  | define m key v =>
    refine (observedFrom_observe h v).takes.trans (takes_changeMap _ m fun c x hx => ?_)
    rcases MapCell.mem_contents_alter (v := v) (fun _ => rfl) rfl hx with hx | rfl
    · exact .inl hx
    · exact .inr (List.mem_singleton_self x)
  | mutate l items inserted =>
    have stored : Takes items h (h.changeList l ({ · with items })) :=
      takes_changeList h l fun _ _ _ hv => .inr (.inl hv)
    rcases h.mutate_cases l items inserted with ⟨_, e⟩ | ⟨_, _, _, e⟩ | ⟨_, _, _, e⟩
    · simp only [Edit.apply, e]
      exact .refl h
    · simp only [Edit.apply, e]
      exact stored.trans (observedFrom_observeAll _ _).takes
    · simp only [Edit.apply, e]
      exact stored
  | place l position v =>
    refine takes_changeList h l fun c _ x hx => ?_
    rcases List.mem_or_eq_of_mem_set hx with hx | rfl
    · rcases List.mem_append.mp hx with hx | hx
      · exact .inl hx
      · exact .inr (.inr (List.eq_of_mem_replicate hx))
    · exact .inr (.inl (List.mem_singleton_self x))
  | register id r => exact (sameFaces_register h id r).takes

/-! ## New containers -/

theorem lives_of_scalar (h : Heap) {v : Value} (scalar : v.container? = none) : h.Lives v := by
  intro c is
  rw [scalar] at is
  cases is

theorem lives_newMap (h : Heap) (entries : List (String × Value)) :
    (h.newMap entries).1.Lives (.map (h.newMap entries).2) := by
  intro c is
  cases is
  simp [isLive, newMap, map?]

theorem lives_newList (h : Heap) (items : List Value) :
    (h.newList items).1.Lives (.list (h.newList items).2) := by
  intro c is
  cases is
  simp [isLive, newList, list?]

theorem preserves_newMap (h : Heap) {entries : List (String × Value)}
    (known : ∀ e ∈ entries, h.Lives e.2) : Preserves h (h.newMap entries).1 :=
  (takes_newMap h entries).preserves (List.forall_mem_map.mpr known)

theorem preserves_newList (h : Heap) {items : List Value} (known : ∀ v ∈ items, h.Lives v) :
    Preserves h (h.newList items).1 := (takes_newList h items).preserves known

/-- An edit that puts live values into the heap. -/
theorem preserves_apply (h : Heap) (e : Edit) (known : ∀ v ∈ e.values, h.Lives v) :
    Preserves h (e.apply h).1 := (takes_apply h e).preserves known

theorem preserves_set (h : Heap) (m : MapId) (key : String) {v : Value} (lives : h.Lives v) :
    Preserves h (h.set m key v).1 :=
  h.preserves_apply (.set m key v) (List.forall_mem_singleton.mpr lives)

theorem preserves_define (h : Heap) (m : MapId) (key : String) {v : Value} (lives : h.Lives v) :
    Preserves h (h.define m key v) :=
  h.preserves_apply (.define m key v) (List.forall_mem_singleton.mpr lives)

theorem preserves_attach (h : Heap) (m : MapId) (key : String) {v : Value} (lives : h.Lives v) :
    Preserves h (h.attach m key v).1 := by
  unfold attach
  split
  · exact h.preserves_set m key lives
  · exact h.preserves_define m key lives

mutual

/-- To load a document is to make live containers. -/
theorem preserves_load (h : Heap) (d : Document) :
    Preserves h (h.load d).1 ∧ (h.load d).1.Lives (h.load d).2 := by
  match d with
  | .null | .bool _ | .int _ | .number _ | .text _ => exact ⟨.refl h, lives_of_scalar _ rfl⟩
  | .array items =>
    obtain ⟨preserves, lives⟩ := preserves_loadItems h items
    simp only [load]
    exact ⟨preserves.trans (preserves_newList _ lives), lives_newList _ _⟩
  | .object entries =>
    obtain ⟨preserves, lives⟩ := preserves_loadEntries h entries
    simp only [load]
    exact ⟨preserves.trans (preserves_newMap _ lives), lives_newMap _ _⟩

theorem preserves_loadItems (h : Heap) (items : List Document) :
    Preserves h (h.loadItems items).1 ∧
      ∀ v ∈ (h.loadItems items).2, (h.loadItems items).1.Lives v := by
  match items with
  | [] => exact ⟨.refl h, by simp [loadItems]⟩
  | d :: rest =>
    obtain ⟨preserves, lives⟩ := preserves_load h d
    obtain ⟨more, others⟩ := preserves_loadItems (h.load d).1 rest
    simp only [loadItems]
    exact ⟨preserves.trans more, List.forall_mem_cons.mpr ⟨more.lives lives, others⟩⟩

theorem preserves_loadEntries (h : Heap) (entries : List (String × Document)) :
    Preserves h (h.loadEntries entries).1 ∧
      ∀ e ∈ (h.loadEntries entries).2, (h.loadEntries entries).1.Lives e.2 := by
  match entries with
  | [] => exact ⟨.refl h, by simp [loadEntries]⟩
  | (key, d) :: rest =>
    obtain ⟨preserves, lives⟩ := preserves_load h d
    obtain ⟨more, others⟩ := preserves_loadEntries (h.load d).1 rest
    simp only [loadEntries]
    exact ⟨preserves.trans more, List.forall_mem_cons.mpr ⟨more.lives lives, others⟩⟩

end

/-! ## What is read -/
namespace Whole

variable {h : Heap}

theorem lookup? (whole : h.Whole) {m : MapId} {key : String} {e : Entry}
    (he : h.lookup? m key = some e) : h.Lives e.value := by
  obtain ⟨c, hc, he⟩ := lookup?_eq_some_iff.mp he
  exact whole (.map m) _ (by simpa [Heap.contents, hc] using MapCell.mem_contents_of_lookup? he)

theorem items (whole : h.Whole) {l : ListId} {v : Value} (hv : v ∈ h.items l) : h.Lives v :=
  whole (.list l) v hv

theorem hop (whole : h.Whole) {v : Value} {segment : String} {r : Reading}
    (hr : h.hop v segment = some r) : h.Lives r.value := by
  unfold Heap.hop at hr
  split at hr
  · obtain ⟨e, he, rfl⟩ := Option.map_eq_some_iff.mp hr
    exact whole.lookup? he
  · obtain ⟨item, hitem, rfl⟩ := Option.map_eq_some_iff.mp hr
    obtain ⟨position, _, hitem⟩ := Option.bind_eq_some_iff.mp hitem
    rw [item?_eq] at hitem
    exact whole.items (List.mem_of_getElem? hitem)
  · cases hr

/-- Where a walk ends is live. -/
theorem walk (whole : h.Whole) {start : Reading} (lives : h.Lives start.value)
    (segments : List String) : h.Lives (h.walk start segments).value := by
  induction segments generalizing start with
  | nil => exact lives
  | cons segment rest ih =>
    rw [Heap.walk, List.foldl_cons]
    refine ih ?_
    rcases hn : h.hop start.value segment with _ | next
    · exact h.lives_of_scalar rfl
    · exact whole.hop (r := next) hn

theorem walk? (whole : h.Whole) {start r : Reading} (lives : h.Lives start.value)
    {segments : List String} (hr : h.walk? start segments = some r) : h.Lives r.value := by
  induction segments generalizing start with
  | nil =>
    cases hr
    exact lives
  | cons segment rest ih =>
    rw [walk?_cons] at hr
    obtain ⟨next, hop, hr⟩ := Option.bind_eq_some_iff.mp hr
    have lives : h.Lives (Reading.mk next.value (start.crossed ++ next.crossed)).value :=
      whole.hop (r := next) hop
    exact ih lives hr

/-- A list takes items of its own in another order, and live ones besides. -/
theorem preserves_mutate (whole : h.Whole) (l : ListId) {items inserted : List Value}
    (known : ∀ v ∈ items, v ∈ h.items l ∨ v ∈ inserted) (lives : ∀ v ∈ inserted, h.Lives v) :
    Preserves h (h.mutate l items inserted).1 :=
  h.preserves_apply (.mutate l items inserted) fun v hv => (known v hv).elim whole.items (lives v)

end Whole

end DataBinding.Heap
