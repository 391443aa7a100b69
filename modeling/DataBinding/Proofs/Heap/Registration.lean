-- Registrations. To register a watcher shows in the registries that it is registered with and nowhere
-- else: every entry keeps its value and stays a slot or a field, every list keeps its items. So a walk
-- reads the same before and after. A watcher stands in a registry once, however often it is registered.
import DataBinding.Proofs.Heap.Registries
import DataBinding.Model.Reading

namespace DataBinding

/-- The watcher is one of the first so many. -/
def WatcherId.Among (id : WatcherId) (count : Nat) : Prop := 0 < id.index ∧ id.index ≤ count

theorem WatcherId.Among.mono {id : WatcherId} {a b : Nat} (h : id.Among a) (le : a ≤ b) :
    id.Among b := ⟨h.1, Nat.le_trans h.2 le⟩

theorem enlist_enlist (ws : List WatcherId) (id : WatcherId) :
    enlist (enlist ws id) id = enlist ws id :=
  if_pos (mem_enlist.mpr (.inr rfl))

theorem enlist_of_not_mem {ws : List WatcherId} {id : WatcherId} (h : id ∉ ws) :
    enlist ws id = ws ++ [id] := if_neg h

/-- What an entry shows besides the watchers of its registry. -/
def Entry.face (e : Entry) : String × Value × Bool := (e.key, e.value, e.watchers.isSome)

@[simp]
theorem Entry.face_enlist (e : Entry) (id : WatcherId) : (e.enlist id).face = e.face := by
  simp [face, Entry.enlist]

/-- What a map shows besides the watchers of its registries. -/
def MapCell.face (c : MapCell) : List (String × Value × Bool) × Bool :=
  (c.entries.map Entry.face, c.observed)

theorem MapCell.face_enlist (c : MapCell) (key : String) (id : WatcherId) :
    (c.enlist key id).face = c.face := by
  simp only [face, enlist, List.map_map, Prod.mk.injEq, and_true]
  apply List.map_congr_left
  intro e _
  rw [Function.comp_apply]
  split
  · exact e.face_enlist id
  · rfl

theorem MapCell.face_lookup? (c : MapCell) (key : String) :
    (c.lookup? key).map Entry.face = c.face.1.find? (·.1 = key) := by
  unfold lookup? face
  rw [List.find?_map]
  rfl

/-- What a list shows besides its watchers. -/
def ListCell.face (c : ListCell) : List Value × Bool := (c.items, c.observed)

/-- A watcher that an edit registers exists. -/
def Edit.Enrolls (count : Nat) : Edit → Prop
  | .register id _ => id.Among count
  | _ => True

namespace Heap

/-! ## Registries -/

theorem watchers?_register (h : Heap) (id : WatcherId) (r other : Registry) :
    (h.register id r).watchers? other =
      if other = r then (h.watchers? r).map (enlist · id) else h.watchers? other := by
  cases r with
  | slot m key =>
    cases other with
    | slot m' key' =>
      simp only [register, watchers?, lookup?_changeMap, MapCell.lookup?_enlist, Registry.slot.injEq]
      by_cases hm : m' = m
      · subst hm
        rcases hc : h.map? m' with _ | c
        · simp [lookup?, hc]
        · by_cases hk : key' = key
          · subst hk
            simp only [lookup?, hc, Option.bind_some, and_self, if_true]
            rcases c.lookup? key' <;> rfl
          · simp [lookup?, hc, hk]
      · simp [hm]
    | list l => simp [register, watchers?]
    | free _ => simp [register, watchers?]
  | list l =>
    cases other with
    | slot m key => simp [register, watchers?]
    | list l' =>
      simp only [register, watchers?, list?_changeList, Registry.list.injEq]
      split
      · rename_i e
        subst e
        rcases h.list? l' <;> rfl
      · rfl
    | free _ => simp [register, watchers?]
  | free r =>
    cases other with
    | slot m key => rfl
    | list l => rfl
    | free r' =>
      simp only [register, watchers?, Array.getElem?_modify, Registry.free.injEq]
      by_cases e : r' = r
      · subst e
        simp
      · have : r.index ≠ r'.index := fun e' => e (by cases r; cases r'; simp_all)
        simp [e, this]

/-- The registries after a watcher was registered with several ones. -/
theorem watchers?_foldl_register (h : Heap) (id : WatcherId) (rs : List Registry) (r : Registry) :
    (rs.foldl (·.register id) h).watchers? r =
      if r ∈ rs then (h.watchers? r).map (enlist · id) else h.watchers? r := by
  induction rs generalizing h with
  | nil => simp
  | cons first rest ih =>
    rw [List.foldl_cons, ih, watchers?_register]
    by_cases hf : r = first
    · subst hf
      rw [if_pos rfl, if_pos (List.mem_cons_self ..)]
      split
      · -- a registry that is met again keeps its watchers
        rcases h.watchers? r with _ | ws
        · rfl
        · simp [enlist_enlist]
      · rfl
    · simp [hf]

/-! ## Everything else -/

/-- Two heaps show the same, but for the watchers in their registries. -/
structure SameFaces (h h' : Heap) : Prop where
  maps : ∀ m, (h'.map? m).map MapCell.face = (h.map? m).map MapCell.face
  lists : ∀ l, (h'.list? l).map ListCell.face = (h.list? l).map ListCell.face
  size_maps : h'.maps.size = h.maps.size
  size_lists : h'.lists.size = h.lists.size

theorem SameFaces.refl (h : Heap) : SameFaces h h :=
  ⟨fun _ => rfl, fun _ => rfl, rfl, rfl⟩

theorem SameFaces.trans {h₁ h₂ h₃ : Heap} (a : SameFaces h₁ h₂) (b : SameFaces h₂ h₃) :
    SameFaces h₁ h₃ :=
  ⟨fun m => (b.maps m).trans (a.maps m), fun l => (b.lists l).trans (a.lists l),
    b.size_maps.trans a.size_maps, b.size_lists.trans a.size_lists⟩

theorem sameFaces_register (h : Heap) (id : WatcherId) (r : Registry) :
    SameFaces h (h.register id r) := by
  cases r with
  | slot m key =>
    refine ⟨?_, fun l => by simp [register], by simp [register], by simp [register]⟩
    intro other
    simp only [register, map?_changeMap]
    split
    · rename_i e
      subst e
      rcases h.map? other with _ | c
      · rfl
      · exact congrArg some (MapCell.face_enlist c key id)
    · rfl
  | list l =>
    refine ⟨fun m => by simp [register], ?_, by simp [register], by simp [register]⟩
    intro other
    simp only [register, list?_changeList]
    split
    · rename_i e
      subst e
      rcases h.list? other <;> rfl
    · rfl
  | free r => exact ⟨fun _ => rfl, fun _ => rfl, rfl, rfl⟩

theorem sameFaces_foldl_register (h : Heap) (id : WatcherId) (rs : List Registry) :
    SameFaces h (rs.foldl (·.register id) h) := by
  induction rs generalizing h with
  | nil => exact .refl h
  | cons r rest ih => exact (sameFaces_register h id r).trans (ih _)

theorem SameFaces.extends {h h' : Heap} (s : SameFaces h h') : h'.Extends h :=
  extends_of_sizes s.size_maps s.size_lists

namespace SameFaces

variable {h h' : Heap}

theorem entries (s : SameFaces h h') (m : MapId) (key : String) :
    (h'.lookup? m key).map Entry.face = (h.lookup? m key).map Entry.face := by
  have e := s.maps m
  unfold Heap.lookup?
  rcases hc : h.map? m with _ | c
  · simp_all
  · obtain ⟨c', hc', faces⟩ := Option.map_eq_some_iff.mp (e.trans (by rw [hc]; rfl))
    rw [hc', Option.bind_some, Option.bind_some, MapCell.face_lookup?, MapCell.face_lookup?, faces]

theorem isSome_map? (s : SameFaces h h') (m : MapId) :
    (h'.map? m).isSome = (h.map? m).isSome := by
  simpa using congrArg Option.isSome (s.maps m)

theorem isSome_list? (s : SameFaces h h') (l : ListId) :
    (h'.list? l).isSome = (h.list? l).isSome := by
  simpa using congrArg Option.isSome (s.lists l)

theorem isLive (s : SameFaces h h') (c : Container) : h'.isLive c = h.isLive c := by
  cases c with
  | map m => exact s.isSome_map? m
  | list l => exact s.isSome_list? l

theorem items (s : SameFaces h h') (l : ListId) : h'.items l = h.items l := by
  have e := s.lists l
  unfold Heap.items
  rcases hl : h.list? l with _ | c
  · simp_all
  · rcases hl' : h'.list? l with _ | c'
    · simp_all
    · simp_all [ListCell.face]

theorem item? (s : SameFaces h h') (l : ListId) (position : Nat) :
    h'.item? l position = h.item? l position := by
  rw [item?_eq, item?_eq, s.items l]

theorem gone_iff (s : SameFaces h h') (r : Registry) : h'.Gone r ↔ h.Gone r := by
  cases r with
  | slot m key =>
    have : h'.map? m = none ↔ h.map? m = none := by
      simpa using congrArg (· = false) (s.isSome_map? m)
    simp only [Gone, this, s.size_maps]
  | list l =>
    have : h'.list? l = none ↔ h.list? l = none := by
      simpa using congrArg (· = false) (s.isSome_list? l)
    simp only [Gone, this, s.size_lists]
  | free _ => exact Iff.rfl

/-- An entry of one heap and the entry of the same key in the other. -/
theorem entry (s : SameFaces h h') {m : MapId} {key : String} {e' : Entry}
    (he' : h'.lookup? m key = some e') : ∃ e, h.lookup? m key = some e ∧ e'.face = e.face := by
  have e := s.entries m key
  rw [he'] at e
  rcases he : h.lookup? m key with _ | x
  · simp [he] at e
  · rw [he] at e
    exact ⟨x, rfl, by simpa using e⟩

theorem read (s : SameFaces h h') (m : MapId) (key : String) : h'.read m key = h.read m key := by
  have e := s.entries m key
  unfold Heap.read
  rcases he : h.lookup? m key with _ | ⟨k, v, ws⟩
  · simp_all
  · rcases he' : h'.lookup? m key with _ | ⟨k', v', ws'⟩
    · simp_all
    · simp only [he, he', Option.map_some, Option.some.injEq, Entry.face, Prod.mk.injEq] at e
      obtain ⟨rfl, rfl, hw⟩ := e
      rcases ws with _ | ws
      · rcases ws' with _ | ws'
        · rfl
        · cases hw
      · rcases ws' with _ | ws'
        · cases hw
        · cases v' <;> rfl

theorem hop (s : SameFaces h h') (v : Value) (segment : String) :
    h'.hop v segment = h.hop v segment := by
  cases v with
  | map m => exact s.read m segment
  | list l =>
    have e : h'.item? l = h.item? l := funext (s.item? l)
    simp [Heap.hop, e]
  | null | bool _ | number _ | text _ => rfl

theorem walk (s : SameFaces h h') (start : Reading) (segments : List String) :
    h'.walk start segments = h.walk start segments := by
  simp only [Heap.walk, s.hop]

end SameFaces

theorem closed_foldl_register {h : Heap} (closed : h.Closed) (id : WatcherId)
    (rs : List Registry) : (rs.foldl (·.register id) h).Closed := by
  induction rs generalizing h with
  | nil => exact closed
  | cons r rest ih => exact ih (closed_register closed id r)

/-! ## Who is registered -/

/-- Every registry holds some of the first so many watchers, each one once. -/
def Enrolled (h : Heap) (count : Nat) : Prop :=
  ∀ r ws, h.watchers? r = some ws → ws.Nodup ∧ ∀ id ∈ ws, id.Among count

theorem Enrolled.mono {h : Heap} {a b : Nat} (enrolled : h.Enrolled a) (le : a ≤ b) :
    h.Enrolled b := fun r ws hws =>
  ⟨(enrolled r ws hws).1, fun id hid => ((enrolled r ws hws).2 id hid).mono le⟩

theorem KeepsRegistries.enrolled {h h' : Heap} {count : Nat} (keeps : KeepsRegistries h h')
    (enrolled : h.Enrolled count) : h'.Enrolled count := by
  intro r ws hws
  rcases keeps.kept r with e | ⟨_, _, e⟩ | gone
  · exact enrolled r ws (e ▸ hws)
  · rw [e] at hws
    cases hws
    exact ⟨List.nodup_nil, by simp⟩
  · rw [watchers?_of_gone gone] at hws
    cases hws

theorem enrolled_register {h : Heap} {count : Nat} (enrolled : h.Enrolled count) {id : WatcherId}
    (hid : id.Among count) (r : Registry) : (h.register id r).Enrolled count := by
  intro other ws hws
  rw [watchers?_register] at hws
  split at hws
  · obtain ⟨ws₀, hws₀, rfl⟩ := Option.map_eq_some_iff.mp hws
    obtain ⟨nodup, among⟩ := enrolled r ws₀ hws₀
    refine ⟨nodup_enlist id nodup, ?_⟩
    intro x hx
    rcases mem_enlist.mp hx with hx | rfl
    · exact among x hx
    · exact hid
  · exact enrolled other ws hws

theorem enrolled_foldl_register {h : Heap} {count : Nat} (enrolled : h.Enrolled count)
    {id : WatcherId} (hid : id.Among count) (rs : List Registry) :
    (rs.foldl (·.register id) h).Enrolled count := by
  induction rs generalizing h with
  | nil => exact enrolled
  | cons r rest ih => exact ih (enrolled_register enrolled hid r)

theorem enrolled_apply {h : Heap} {count : Nat} (enrolled : h.Enrolled count) (e : Edit)
    (he : e.Enrolls count) : (e.apply h).1.Enrolled count := by
  by_cases hr : e.Registers
  · cases e with
    | register id r => exact enrolled_register enrolled he r
    | _ => exact hr.elim
  · exact (keepsRegistries_apply h hr).enrolled enrolled

/-- Whom an edit owes a turn is in a registry: each one once. -/
theorem owed_enrolled {h : Heap} {count : Nat} (enrolled : h.Enrolled count) (e : Edit) :
    (e.apply h).2.Nodup ∧ ∀ id ∈ (e.apply h).2, id.Among count := by
  have nobody : ([] : List WatcherId).Nodup ∧ ∀ id ∈ ([] : List WatcherId), id.Among count :=
    ⟨List.nodup_nil, by simp⟩
  cases e with
  | set m key v =>
    rcases h.set_cases m key v with ⟨_, _, _, _, e⟩ | ⟨old, ws, he, _, e⟩ | ⟨_, e⟩
    · simpa only [Edit.apply, e] using nobody
    · simp only [Edit.apply, e]
      exact enrolled (.slot m key) ws (by simp [watchers?, he])
    · simpa only [Edit.apply, e] using nobody
  | mutate l items inserted =>
    rcases h.mutate_cases l items inserted with ⟨_, e⟩ | ⟨c, hc, _, e⟩ | ⟨_, _, _, e⟩
    · simpa only [Edit.apply, e] using nobody
    · simp only [Edit.apply, e]
      exact enrolled (.list l) c.watchers (by simp [watchers?, hc])
    · simpa only [Edit.apply, e] using nobody
  | newMap _ | newList _ | newRegistry | observe _ | define _ _ _ | place _ _ _ | register _ _ =>
    exact nobody

end Heap

end DataBinding
