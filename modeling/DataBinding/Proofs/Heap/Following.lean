-- What a registered watcher can miss. In a tidy heap every slot holds an observed value and every list
-- with watchers is observed. An edit of a tidy heap that changes the value of a slot or the items of a
-- list owes a turn to everyone who is registered there; only a definition of a slot and a write to a
-- position of a list pass the watchers by.
import DataBinding.Proofs.Heap.Registration

namespace DataBinding.Heap

/-! ## Tidy heaps -/

structure Tidy (h : Heap) : Prop where
  slots : h.SlotsObserved
  lists : ∀ l c, h.list? l = some c → c.watchers ≠ [] → c.observed = true

theorem ReleasedFrom.isObserved {h h' : Heap} (f : ReleasedFrom h h') {v : Value}
    (hv : h.IsObserved v) : h'.IsObserved v := by
  cases v with
  | map m => exact fun c hc => hv c (f.map? hc)
  | list l => exact fun c hc => hv c (f.list? hc)
  | null | bool _ | number _ | text _ => trivial

theorem ReleasedFrom.lookup? {h h' : Heap} (f : ReleasedFrom h h') {m : MapId} {key : String}
    {e : Entry} (he : h'.lookup? m key = some e) : h.lookup? m key = some e := by
  obtain ⟨c, hc, he⟩ := lookup?_eq_some_iff.mp he
  exact lookup?_eq_some_iff.mpr ⟨c, f.map? hc, he⟩

theorem ReleasedFrom.slotsObserved {h h' : Heap} (f : ReleasedFrom h h') (slots : h.SlotsObserved) :
    h'.SlotsObserved := fun m key e he hw => f.isObserved (slots m key e (f.lookup? he) hw)

theorem ReleasedFrom.tidy {h h' : Heap} (f : ReleasedFrom h h') (tidy : h.Tidy) : h'.Tidy :=
  ⟨f.slotsObserved tidy.slots, fun l c hc hw => tidy.lists l c (f.list? hc) hw⟩

theorem ObservedFrom.lists_tidy {h h' : Heap} (o : ObservedFrom h h')
    (tidy : ∀ l c, h.list? l = some c → c.watchers ≠ [] → c.observed = true) :
    ∀ l c, h'.list? l = some c → c.watchers ≠ [] → c.observed = true := by
  intro l c hc hw
  rcases o.lists l with e | ⟨c₀, _, _, e⟩
  · exact tidy l c (e ▸ hc) hw
  · rw [e] at hc
    cases hc
    rfl

theorem isObserved_changeMap {h : Heap} {v : Value} (hv : h.IsObserved v) (m : MapId)
    {f : MapCell → MapCell} (hf : ∀ c, (f c).observed = c.observed) :
    (h.changeMap m f).IsObserved v := by
  cases v with
  | map other =>
    intro c hc
    rw [map?_changeMap] at hc
    split at hc
    · rename_i e
      subst e
      obtain ⟨c₀, hc₀, rfl⟩ := Option.map_eq_some_iff.mp hc
      rw [hf]
      exact hv c₀ hc₀
    · exact hv c hc
  | list l =>
    intro c hc
    exact hv c (by simpa using hc)
  | null | bool _ | number _ | text _ => trivial

theorem isObserved_changeList {h : Heap} {v : Value} (hv : h.IsObserved v) (l : ListId)
    {f : ListCell → ListCell} (hf : ∀ c, (f c).observed = c.observed) :
    (h.changeList l f).IsObserved v := by
  cases v with
  | map m =>
    intro c hc
    exact hv c (by simpa using hc)
  | list other =>
    intro c hc
    rw [list?_changeList] at hc
    split at hc
    · rename_i e
      subst e
      obtain ⟨c₀, hc₀, rfl⟩ := Option.map_eq_some_iff.mp hc
      rw [hf]
      exact hv c₀ hc₀
    · exact hv c hc
  | null | bool _ | number _ | text _ => trivial

theorem observed_store (c : MapCell) (key : String) (v : Value) :
    (c.store key v).observed = c.observed := by
  unfold MapCell.store MapCell.alter
  split <;> rfl

theorem observed_install (c : MapCell) (key : String) (v : Value) :
    (c.install key v).observed = c.observed := by
  unfold MapCell.install MapCell.alter
  split <;> rfl

/-- A change of one entry leaves observed values in the slots if the entry is no slot afterwards or holds
an observed value. -/
theorem slotsObserved_changeMap {h : Heap} (slots : h.SlotsObserved) (m : MapId) (key : String)
    (v : Value) {f : MapCell → MapCell} (hf : ∀ c, (f c).observed = c.observed)
    (other : ∀ c k, k ≠ key → (f c).lookup? k = c.lookup? k)
    (self : ∀ c e, h.map? m = some c → (f c).lookup? key = some e → e.watchers.isSome →
      e.value = v ∧ h.IsObserved v) : (h.changeMap m f).SlotsObserved := by
  intro m' key' e he hw
  apply isObserved_changeMap _ m hf
  rw [lookup?_changeMap] at he
  split at he
  · rename_i hm
    subst hm
    obtain ⟨c, hc, he⟩ := Option.bind_eq_some_iff.mp he
    by_cases hk : key' = key
    · subst hk
      obtain ⟨rfl, hv⟩ := self c e hc he hw
      exact hv
    · rw [other c key' hk] at he
      exact slots m' key' e (lookup?_eq_some_iff.mpr ⟨c, hc, he⟩) hw
  · exact slots m' key' e he hw

theorem slotsObserved_store {h : Heap} (slots : h.SlotsObserved) (m : MapId) (key : String)
    {v : Value} (hv : h.isSlot m key = true → h.IsObserved v) :
    (h.changeMap m (·.store key v)).SlotsObserved := by
  apply slotsObserved_changeMap slots m key v (observed_store · key v)
  · intro c k hk
    rw [MapCell.lookup?_store, if_neg hk]
  · intro c e hc he hw
    rw [MapCell.lookup?_store, if_pos rfl, Option.some.injEq] at he
    subst he
    exact ⟨rfl, hv (by simpa [isSlot, lookup?, hc] using hw)⟩

theorem slotsObserved_install {h : Heap} (slots : h.SlotsObserved) (m : MapId) (key : String)
    {v : Value} (hv : h.IsObserved v) : (h.changeMap m (·.install key v)).SlotsObserved := by
  apply slotsObserved_changeMap slots m key v (observed_install · key v)
  · intro c k hk
    rw [MapCell.lookup?_install, if_neg hk]
  · intro c e _ he _
    rw [MapCell.lookup?_install, if_pos rfl, Option.some.injEq] at he
    subst he
    exact ⟨rfl, hv⟩

theorem slotsObserved_changeList {h : Heap} (slots : h.SlotsObserved) (l : ListId)
    {f : ListCell → ListCell} (hf : ∀ c, (f c).observed = c.observed) :
    (h.changeList l f).SlotsObserved := by
  intro m key e he hw
  exact isObserved_changeList (slots m key e (by simpa using he) hw) l hf

/-- A value that is known is not taken for a fresh container. -/
theorem isObserved_newMap {h : Heap} {v : Value} (known : h.Knows v) (hv : h.IsObserved v)
    (entries : List (String × Value)) : (h.newMap entries).1.IsObserved v := by
  cases v with
  | map m =>
    have hlt : m.index < h.maps.size := known
    intro c hc
    rw [map?_newMap, if_neg (by omega)] at hc
    exact hv c hc
  | list l => exact hv
  | null | bool _ | number _ | text _ => trivial

theorem isObserved_newList {h : Heap} {v : Value} (known : h.Knows v) (hv : h.IsObserved v)
    (items : List Value) : (h.newList items).1.IsObserved v := by
  cases v with
  | map m => exact hv
  | list l =>
    have hlt : l.index < h.lists.size := known
    intro c hc
    rw [list?_newList, if_neg (by omega)] at hc
    exact hv c hc
  | null | bool _ | number _ | text _ => trivial

theorem slotsObserved_newMap {h : Heap} (closed : h.Closed) (slots : h.SlotsObserved)
    (entries : List (String × Value)) : (h.newMap entries).1.SlotsObserved := by
  intro m key e he hw
  obtain ⟨c, hc, he⟩ := lookup?_eq_some_iff.mp he
  rw [map?_newMap] at hc
  split at hc
  · simp only [Option.some.injEq] at hc
    subst hc
    have plain := watchers_of_fresh (by simp [MapCell.lookup?, MapCell.ofEntries]) he
    rw [plain] at hw
    cases hw
  · have he := lookup?_eq_some_iff.mpr ⟨c, hc, he⟩
    exact isObserved_newMap (closed.lookup? he) (slots m key e he hw) entries

theorem slotsObserved_newList {h : Heap} (closed : h.Closed) (slots : h.SlotsObserved)
    (items : List Value) : (h.newList items).1.SlotsObserved := by
  intro m key e he hw
  exact isObserved_newList (closed.lookup? he) (slots m key e he hw) items

theorem SameFaces.isObserved {h h' : Heap} (s : SameFaces h h') {v : Value}
    (hv : h.IsObserved v) : h'.IsObserved v := by
  cases v with
  | map m =>
    intro c' hc'
    have e := s.maps m
    rw [hc'] at e
    obtain ⟨c, hc, e⟩ := Option.map_eq_some_iff.mp e.symm
    have : c'.observed = c.observed := (congrArg Prod.snd e).symm
    exact this ▸ hv c hc
  | list l =>
    intro c' hc'
    have e := s.lists l
    rw [hc'] at e
    obtain ⟨c, hc, e⟩ := Option.map_eq_some_iff.mp e.symm
    have : c'.observed = c.observed := (congrArg Prod.snd e).symm
    exact this ▸ hv c hc
  | null | bool _ | number _ | text _ => trivial

theorem SameFaces.slotsObserved {h h' : Heap} (s : SameFaces h h') (slots : h.SlotsObserved) :
    h'.SlotsObserved := by
  intro m key e' he' hw
  obtain ⟨e, he, face⟩ := s.entry he'
  simp only [Entry.face, Prod.mk.injEq] at face
  obtain ⟨_, hv, hs⟩ := face
  rw [hv]
  exact s.isObserved (slots m key e he (hs ▸ hw))

/-- Every edit leaves observed values in the slots. -/
theorem slotsObserved_apply {h : Heap} (closed : h.Closed) (slots : h.SlotsObserved) (e : Edit) :
    (e.apply h).1.SlotsObserved := by
  cases e with
  | newMap entries => exact slotsObserved_newMap closed slots entries
  | newList items => exact slotsObserved_newList closed slots items
  | newRegistry => exact slots
  | observe v => exact slotsObserved_observeAll slots [v]
  | set m key v =>
    rcases h.set_cases m key v with ⟨_, _, _, _, e⟩ | ⟨_, _, _, _, e⟩ | ⟨plain, e⟩
    · simpa only [Edit.apply, e] using slots
    · simp only [Edit.apply, e]
      exact slotsObserved_store (slotsObserved_observeAll slots [v]) m key fun _ =>
        h.isObserved_observe v
    · simp only [Edit.apply, e]
      exact slotsObserved_store slots m key fun slot => by simp [plain] at slot
  | define m key v =>
    exact slotsObserved_install (slotsObserved_observeAll slots [v]) m key (h.isObserved_observe v)
  | mutate l items inserted =>
    have stored : (h.changeList l ({ · with items })).SlotsObserved :=
      slotsObserved_changeList slots l fun _ => rfl
    rcases h.mutate_cases l items inserted with ⟨_, e⟩ | ⟨_, _, _, e⟩ | ⟨_, _, _, e⟩
    · simpa only [Edit.apply, e] using slots
    · simp only [Edit.apply, e]
      exact slotsObserved_observeAll stored inserted
    · simpa only [Edit.apply, e] using stored
  | place l position v => exact slotsObserved_changeList slots l fun _ => rfl
  | register id r => exact (sameFaces_register h id r).slotsObserved slots

theorem lists_changeList {h : Heap}
    (tidy : ∀ l c, h.list? l = some c → c.watchers ≠ [] → c.observed = true) (l : ListId)
    {f : ListCell → ListCell}
    (hf : ∀ c, (f c).observed = c.observed ∧ (f c).watchers = c.watchers) :
    ∀ other c, (h.changeList l f).list? other = some c → c.watchers ≠ [] → c.observed = true := by
  intro other c hc hw
  rw [list?_changeList] at hc
  split at hc
  · obtain ⟨c₀, hc₀, rfl⟩ := Option.map_eq_some_iff.mp hc
    rw [(hf c₀).2] at hw
    rw [(hf c₀).1]
    exact tidy l c₀ hc₀ hw
  · exact tidy other c hc hw

/-- No edit but a registration makes a heap untidy. -/
theorem tidy_apply {h : Heap} (closed : h.Closed) (tidy : h.Tidy) {e : Edit}
    (quiet : ¬e.Registers) : (e.apply h).1.Tidy := by
  refine ⟨slotsObserved_apply closed tidy.slots e, ?_⟩
  cases e with
  | newMap _ | newRegistry => exact tidy.lists
  | newList items =>
    intro l c hc hw
    simp only [Edit.apply, list?_newList] at hc
    split at hc
    · simp only [Option.some.injEq] at hc
      subst hc
      exact absurd rfl hw
    · exact tidy.lists l c hc hw
  | observe v => exact (observedFrom_observe h v).lists_tidy tidy.lists
  | set m key v =>
    rcases h.set_cases m key v with ⟨_, _, _, _, e⟩ | ⟨_, _, _, _, e⟩ | ⟨_, e⟩
    · simpa only [Edit.apply, e] using tidy.lists
    · simp only [Edit.apply, e, list?_changeMap]
      exact (observedFrom_observe h v).lists_tidy tidy.lists
    · simpa only [Edit.apply, e, list?_changeMap] using tidy.lists
  | define m key v =>
    simp only [Edit.apply, define, list?_changeMap]
    exact (observedFrom_observe h v).lists_tidy tidy.lists
  | mutate l items inserted =>
    have stored := lists_changeList tidy.lists l (f := ({ · with items })) fun _ => ⟨rfl, rfl⟩
    rcases h.mutate_cases l items inserted with ⟨_, e⟩ | ⟨_, _, _, e⟩ | ⟨_, _, _, e⟩
    · simpa only [Edit.apply, e] using tidy.lists
    · simp only [Edit.apply, e]
      exact (observedFrom_observeAll _ inserted).lists_tidy stored
    · simpa only [Edit.apply, e] using stored
  | place l position v => exact lists_changeList tidy.lists l fun _ => ⟨rfl, rfl⟩
  | register id r => exact absurd trivial quiet

/-- A registration with observed lists keeps a heap tidy. -/
theorem tidy_foldl_register {h : Heap} (tidy : h.Tidy) (id : WatcherId) {rs : List Registry}
    (observed : ∀ l, .list l ∈ rs → h.IsObserved (.list l)) :
    (rs.foldl (·.register id) h).Tidy := by
  have s := sameFaces_foldl_register h id rs
  constructor
  · exact s.slotsObserved tidy.slots
  · intro l c' hc' hw
    have hws : (rs.foldl (·.register id) h).watchers? (.list l) = some c'.watchers := by
      simp [watchers?, hc']
    have e := s.lists l
    rw [hc'] at e
    obtain ⟨c, hc, e⟩ := Option.map_eq_some_iff.mp e.symm
    have ho : c'.observed = c.observed := (congrArg Prod.snd e).symm
    rw [ho]
    rw [watchers?_foldl_register] at hws
    split at hws
    · exact observed l ‹_› c hc
    · have : c.watchers = c'.watchers := by simpa [watchers?, hc] using hws
      exact tidy.lists l c hc (this ▸ hw)

/-! ## What a watcher misses -/

/-- A key is absent from a map that was not released. -/
def Lacks (h : Heap) (m : MapId) (key : String) : Prop :=
  h.lookup? m key = none ∧ ¬h.Gone (.slot m key)

/-- The changes of a heap that a watcher may miss: it is registered nowhere anew, and where it is
registered a slot keeps its value unless it is `rewritten`, and a list its items unless they
`moved`. A key that is absent afterwards was absent before. -/
structure Follows (id : WatcherId) (rewritten moved : Prop) (h h' : Heap) : Prop where
  joined : ∀ r, id ∈ h'.watchers r → id ∈ h.watchers r
  slots : ∀ m key, id ∈ h'.watchers (.slot m key) → h'.peek m key = h.peek m key ∨ rewritten
  lists : ∀ l, id ∈ h'.watchers (.list l) → h'.items l = h.items l ∨ moved
  lacks : ∀ m key, h'.Lacks m key → h.Lacks m key

variable {id : WatcherId}

namespace Follows

theorem refl (h : Heap) : Follows id False False h h :=
  ⟨fun _ hid => hid, fun _ _ _ => .inl rfl, fun _ _ => .inl rfl, fun _ _ absent => absent⟩

theorem mono {h h' : Heap} {a b a' b' : Prop} (f : Follows id a b h h') (ha : a → a')
    (hb : b → b') : Follows id a' b' h h' :=
  ⟨f.joined, fun m key hid => (f.slots m key hid).imp_right ha,
    fun l hid => (f.lists l hid).imp_right hb, f.lacks⟩

theorem trans {h₁ h₂ h₃ : Heap} {a b a' b' : Prop} (f : Follows id a b h₁ h₂)
    (g : Follows id a' b' h₂ h₃) : Follows id (a ∨ a') (b ∨ b') h₁ h₃ := by
  refine ⟨fun r hid => f.joined r (g.joined r hid), ?_, ?_,
    fun m key hl => f.lacks m key (g.lacks m key hl)⟩
  · intro m key hid
    rcases g.slots m key hid with e | hg
    · rcases f.slots m key (g.joined _ hid) with e' | hf
      · exact .inl (e.trans e')
      · exact .inr (.inl hf)
    · exact .inr (.inr hg)
  · intro l hid
    rcases g.lists l hid with e | hg
    · rcases f.lists l (g.joined _ hid) with e' | hf
      · exact .inl (e.trans e')
      · exact .inr (.inl hf)
    · exact .inr (.inr hg)

end Follows

theorem mem_watchers_iff {h : Heap} {r : Registry} {id : WatcherId} :
    id ∈ h.watchers r ↔ ∃ ws, h.watchers? r = some ws ∧ id ∈ ws := by
  unfold watchers
  rcases h.watchers? r <;> simp

theorem isSlot_of_mem_watchers {h : Heap} {m : MapId} {key : String}
    (hid : id ∈ h.watchers (.slot m key)) : h.isSlot m key = true := by
  obtain ⟨ws, hws, _⟩ := mem_watchers_iff.mp hid
  exact Option.isSome_of_mem hws

theorem KeepsRegistries.joined {h h' : Heap} (keeps : KeepsRegistries h h') (r : Registry)
    (hid : id ∈ h'.watchers r) : id ∈ h.watchers r := by
  obtain ⟨ws, hws, hid⟩ := mem_watchers_iff.mp hid
  exact mem_watchers_iff.mpr ⟨ws, keeps.mem hws hid, hid⟩

theorem ObservedFrom.follows {h h' : Heap} (o : ObservedFrom h h') :
    Follows id False False h h' := by
  refine ⟨o.keepsRegistries.joined, fun m key _ => .inl (o.peek m key),
    fun l _ => .inl (o.items l), ?_⟩
  rintro m key ⟨absent, there⟩
  refine ⟨?_, fun gone => there (o.keepsRegistries.gone _ gone)⟩
  rcases o.lookup? m key with e | e
  · rw [← e]
    exact absent
  · simpa [e] using absent

theorem ReleasedFrom.follows {h h' : Heap} (f : ReleasedFrom h h') :
    Follows id False False h h' := by
  refine ⟨f.keepsRegistries.joined, ?_, ?_, ?_⟩
  · intro m key hid
    rcases f.maps m with e | e
    · exact .inl (by simp [Heap.peek, Heap.lookup?, e])
    · simp [watchers, watchers?, Heap.lookup?, e] at hid
  · intro l hid
    rcases f.lists l with e | e
    · exact .inl (by simp [items, e])
    · simp [watchers, watchers?, e] at hid
  · rintro m key ⟨absent, there⟩
    refine ⟨?_, fun gone => there (f.keepsRegistries.gone _ gone)⟩
    rcases f.maps m with e | e
    · rw [← absent]
      simp [Heap.lookup?, e]
    · rcases hm : h.map? m with _ | c
      · simp [Heap.lookup?, hm]
      · exact absurd ⟨f.size_maps ▸ index_lt_of_map? hm, e⟩ there

/-- A change of the entry of one key, which is there afterwards if its map is. -/
theorem follows_changeMap {h : Heap} {m : MapId} (key : String) {f : MapCell → MapCell}
    (keeps : KeepsRegistries h (h.changeMap m f))
    (other : ∀ c k, k ≠ key → (f c).lookup? k = c.lookup? k)
    (self : ∀ c, (f c).lookup? key ≠ none) :
    Follows id (id ∈ (h.changeMap m f).watchers (.slot m key)) False h (h.changeMap m f) := by
  have same {m' : MapId} {key' : String} (ne : ¬(m' = m ∧ key' = key)) :
      (h.changeMap m f).lookup? m' key' = h.lookup? m' key' := by
    rw [lookup?_changeMap]
    split
    · rename_i e
      subst e
      unfold lookup?
      rcases h.map? m' with _ | c
      · rfl
      · exact other c key' fun e => ne ⟨rfl, e⟩
    · rfl
  refine ⟨keeps.joined, ?_, fun l _ => .inl (by simp [items]), ?_⟩
  · intro m' key' hid
    by_cases at' : m' = m ∧ key' = key
    · obtain ⟨rfl, rfl⟩ := at'
      exact .inr hid
    · left
      unfold peek
      rw [same at']
  · rintro m' key' ⟨absent, there⟩
    refine ⟨?_, fun gone => there (keeps.gone _ gone)⟩
    by_cases at' : m' = m ∧ key' = key
    · obtain ⟨rfl, rfl⟩ := at'
      rcases hm : h.map? m' with _ | c
      · simp [lookup?, hm]
      · rw [lookup?_changeMap, if_pos rfl, hm, Option.bind_some] at absent
        exact absurd absent (self c)
    · rw [← same at']
      exact absent

theorem follows_store (h : Heap) (m : MapId) (key : String) (v : Value) :
    Follows id (id ∈ h.watchers (.slot m key)) False h (h.changeMap m (·.store key v)) := by
  have keeps := keepsRegistries_store h m key v
  apply (follows_changeMap key keeps _ _).mono (keeps.joined _) fun no => no
  · intro c k hk
    rw [MapCell.lookup?_store, if_neg hk]
  · intro c
    simp [MapCell.lookup?_store]

theorem follows_install (h : Heap) (m : MapId) (key : String) (v : Value) :
    Follows id (id ∈ h.watchers (.slot m key)) False h (h.changeMap m (·.install key v)) := by
  have keeps := keepsRegistries_install h m key v
  apply (follows_changeMap key keeps _ _).mono (keeps.joined _) fun no => no
  · intro c k hk
    rw [MapCell.lookup?_install, if_neg hk]
  · intro c
    simp [MapCell.lookup?_install]

theorem follows_changeList (h : Heap) (l : ListId) {f : ListCell → ListCell}
    (hf : ∀ c, (f c).watchers = c.watchers) :
    Follows id False (id ∈ h.watchers (.list l)) h (h.changeList l f) := by
  have keeps := keepsRegistries_changeList h l hf
  refine ⟨keeps.joined, fun m key _ => .inl (by simp [peek]), ?_, ?_⟩
  · intro other hid
    by_cases ho : other = l
    · subst ho
      exact .inr (keeps.joined _ hid)
    · left
      simp [items, list?_changeList, ho]
  · rintro m key ⟨absent, there⟩
    exact ⟨by simpa using absent, fun gone => there (keeps.gone _ gone)⟩

theorem follows_newMap (h : Heap) (entries : List (String × Value)) :
    Follows id False False h (h.newMap entries).1 := by
  have keeps := keepsRegistries_newMap h entries
  refine ⟨keeps.joined, ?_, fun _ _ => .inl rfl, ?_⟩
  · intro m key hid
    left
    obtain ⟨ws, hws, _⟩ := mem_watchers_iff.mp (keeps.joined _ hid)
    rcases hm : h.map? m with _ | c
    · simp [watchers?, lookup?, hm] at hws
    · have := index_lt_of_map? hm
      simp only [peek, lookup?, map?_newMap]
      rw [if_neg (by omega)]
  · rintro m key ⟨absent, there⟩
    refine ⟨?_, fun gone => there (keeps.gone _ gone)⟩
    rcases hm : h.map? m with _ | c
    · simp [lookup?, hm]
    · have := index_lt_of_map? hm
      simp only [lookup?, map?_newMap] at absent
      rw [if_neg (by omega)] at absent
      exact absent

theorem follows_newList (h : Heap) (items : List Value) :
    Follows id False False h (h.newList items).1 := by
  have keeps := keepsRegistries_newList h items
  refine ⟨keeps.joined, fun _ _ _ => .inl rfl, ?_,
    fun m key ⟨absent, there⟩ => ⟨absent, fun gone => there (keeps.gone _ gone)⟩⟩
  intro l hid
  left
  obtain ⟨ws, hws, _⟩ := mem_watchers_iff.mp (keeps.joined _ hid)
  rcases hl : h.list? l with _ | c
  · simp [watchers?, hl] at hws
  · have := index_lt_of_list? hl
    simp only [Heap.items, list?_newList]
    rw [if_neg (by omega)]

/-- A change of a slot owes a turn to all who are registered there, unless it is a second definition.
So does a change of a list, unless it is a write to a position or the heap may be untidy. -/
theorem follows_apply_or {h : Heap} {untidy : Prop} (tidy : untidy ∨ h.Tidy) {e : Edit}
    (quiet : ¬e.Registers) : Follows id (id ∈ (e.apply h).2 ∨ e.Redefines h)
      ((id ∈ (e.apply h).2 ∨ e.Places) ∨ untidy) h (e.apply h).1 := by
  cases e with
  | newMap entries => exact (follows_newMap h entries).mono False.elim False.elim
  | newList items => exact (follows_newList h items).mono False.elim False.elim
  | newRegistry =>
    have keeps := keepsRegistries_newRegistry h
    exact ⟨keeps.joined, fun _ _ _ => .inl rfl, fun _ _ => .inl rfl, fun _ _ absent => absent⟩
  | observe v => exact (observedFrom_observe h v).follows.mono False.elim False.elim
  | set m key v =>
    rcases h.set_cases m key v with ⟨_, _, _, _, e⟩ | ⟨old, ws, he, _, e⟩ | ⟨plain, e⟩
    · simp only [Edit.apply, e]
      exact (Follows.refl h).mono False.elim False.elim
    · simp only [Edit.apply, e]
      have o := observedFrom_observe h v
      apply (o.follows.trans (follows_store (h.observe v) m key v)).mono
      · rintro (no | hid)
        · exact no.elim
        · have := o.keepsRegistries.joined _ hid
          exact .inl (by simpa [watchers, watchers?, he] using this)
      · rintro (no | no) <;> exact no.elim
    · simp only [Edit.apply, e]
      apply (follows_store h m key v).mono _ False.elim
      intro hid
      rw [isSlot_of_mem_watchers hid] at plain
      cases plain
  | define m key v =>
    have o := observedFrom_observe h v
    apply (o.follows.trans (follows_install (h.observe v) m key v)).mono
    · rintro (no | hid)
      · exact no.elim
      · exact .inr (isSlot_of_mem_watchers (o.keepsRegistries.joined _ hid))
    · rintro (no | no) <;> exact no.elim
  | mutate l items inserted =>
    have stored : Follows id False (id ∈ h.watchers (.list l)) h
        (h.changeList l ({ · with items })) := follows_changeList h l fun _ => rfl
    rcases h.mutate_cases l items inserted with ⟨_, e⟩ | ⟨c, hc, _, e⟩ | ⟨c, hc, unmarked, e⟩
    · simp only [Edit.apply, e]
      exact (Follows.refl h).mono False.elim False.elim
    · simp only [Edit.apply, e]
      apply (stored.trans (observedFrom_observeAll _ inserted).follows).mono
      · rintro (no | no) <;> exact no.elim
      · rintro (hid | no)
        · exact .inl (.inl (by simpa [watchers, watchers?, hc] using hid))
        · exact no.elim
    · simp only [Edit.apply, e]
      apply stored.mono False.elim
      intro hid
      rcases tidy with untidy | tidy
      · exact .inr untidy
      · -- a list that is not observed has no watchers in a tidy heap
        have hw : id ∈ c.watchers := by simpa [watchers, watchers?, hc] using hid
        have := tidy.lists l c hc (List.ne_nil_of_mem hw)
        rw [unmarked] at this
        cases this
  | place l position v =>
    have placed : Follows id False (id ∈ h.watchers (.list l)) h (h.setItem l position v) :=
      follows_changeList h l fun _ => rfl
    exact placed.mono False.elim fun _ => .inl (.inr trivial)
  | register id r => exact absurd trivial quiet

theorem follows_apply {h : Heap} (tidy : h.Tidy) {e : Edit} (quiet : ¬e.Registers) :
    Follows id (id ∈ (e.apply h).2 ∨ e.Redefines h) (id ∈ (e.apply h).2 ∨ e.Places) h
      (e.apply h).1 := by
  have f : Follows id _ (_ ∨ False) h (e.apply h).1 := follows_apply_or (.inr tidy) quiet
  exact f.mono (fun a => a) fun b => b.resolve_right fun no => no

/-- Of the slots alone this holds in every heap. -/
theorem follows_slots_apply (h : Heap) {e : Edit} (quiet : ¬e.Registers) :
    Follows id (id ∈ (e.apply h).2 ∨ e.Redefines h) True h (e.apply h).1 := by
  have f : Follows id _ (_ ∨ True) h (e.apply h).1 := follows_apply_or (.inl trivial) quiet
  exact f.mono (fun a => a) fun _ => trivial

end DataBinding.Heap
