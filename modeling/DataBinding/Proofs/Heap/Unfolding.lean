-- Values that unfold into a finite tree. Where no container contains itself, the snapshot of a value is
-- made of the snapshots of its contents, however often the containers are shared, and it depends on
-- nothing but the cells that the value leads to.
import DataBinding.Proofs.Heap.Releasing
import DataBinding.Model.Document

namespace DataBinding.Heap

/-! ## Values without loops -/

/-- A value leads to a container in any number of steps. -/
def Reaches (h : Heap) (v : Value) (c : Container) : Prop :=
  ∃ root, v.container? = some root ∧ h.Leads root c

/-- All containers that a value leads to are live, none of them contains itself, and the keys of their
maps are distinct. -/
structure Unfolds (h : Heap) (v : Value) : Prop where
  live : ∀ c, h.Reaches v c → h.isLive c = true
  noLoop : ∀ c, h.Reaches v c → ¬h.Contains c c
  distinct : ∀ m cell, h.Reaches v (.map m) → h.map? m = some cell → cell.keys.Nodup

theorem Reaches.here {h : Heap} {v : Value} {c : Container} (is : v.container? = some c) :
    h.Reaches v c := ⟨c, is, .refl⟩

theorem Reaches.inner {h : Heap} {v w : Value} {c d : Container} (is : v.container? = some c)
    (held : w ∈ h.contents c) (reaches : h.Reaches w d) : h.Reaches v d := by
  obtain ⟨root, isRoot, leads⟩ := reaches
  exact ⟨c, is, .head held isRoot leads⟩

theorem contains_iff {h : Heap} {c d : Container} :
    h.Contains c d ↔ ∃ w ∈ h.contents c, h.Reaches w d := by
  constructor
  · rintro ⟨root, w, held, isRoot, leads⟩
    exact ⟨w, held, root, isRoot, leads⟩
  · rintro ⟨w, held, root, isRoot, leads⟩
    exact ⟨root, w, held, isRoot, leads⟩

/-- A value leads to the container that it is, and to what its contents lead to. -/
theorem reaches_cases {h : Heap} {v : Value} {d : Container} (reaches : h.Reaches v d) :
    v.container? = some d ∨ ∃ c, v.container? = some c ∧ ∃ w ∈ h.contents c, h.Reaches w d := by
  obtain ⟨root, is, leads⟩ := reaches
  induction leads with
  | refl => exact .inl is
  | step _ held isNext ih =>
    refine .inr ?_
    obtain isLast | ⟨c, isTop, w, inside, between⟩ := ih
    · exact ⟨_, isLast, _, held, .here isNext⟩
    · obtain ⟨root, isRoot, leads⟩ := between
      exact ⟨c, isTop, w, inside, root, isRoot, leads.step held isNext⟩

/-- Where no container holds a freed one, a live value leads to live containers only. -/
theorem Whole.reaches {h : Heap} (whole : h.Whole) {v : Value} (lives : h.Lives v) {c : Container}
    (reaches : h.Reaches v c) : h.isLive c = true := by
  obtain ⟨root, is, leads⟩ := reaches
  exact OwnedBy.isLive whole (List.forall_mem_singleton.mpr lives)
    ⟨v, List.mem_singleton_self v, root, is, leads⟩

namespace Unfolds

variable {h : Heap} {v w : Value} {c : Container}

theorem of_scalar (scalar : v.container? = none) : h.Unfolds v := by
  have nowhere (c : Container) : ¬h.Reaches v c := by
    rintro ⟨root, is, _⟩
    rw [scalar] at is
    contradiction
  exact ⟨fun c hc => absurd hc (nowhere c), fun c hc => absurd hc (nowhere c),
    fun m _ hm => absurd hm (nowhere _)⟩

theorem inner (unfolds : h.Unfolds v) (is : v.container? = some c) (held : w ∈ h.contents c) :
    h.Unfolds w :=
  ⟨fun d hd => unfolds.live d (.inner is held hd), fun d hd => unfolds.noLoop d (.inner is held hd),
    fun m cell hm => unfolds.distinct m cell (.inner is held hm)⟩

/-- What holds of a value once it holds of its contents holds of every value that unfolds. -/
theorem induction {motive : (v : Value) → h.Unfolds v → Prop}
    (step : ∀ v (unfolds : h.Unfolds v),
      (∀ c (is : v.container? = some c) w (held : w ∈ h.contents c),
        motive w (unfolds.inner is held)) → motive v unfolds)
    (v : Value) (unfolds : h.Unfolds v) : motive v unfolds := by
  -- the containers that the value leads to are finitely many, and none of them contains itself
  have finite := h.finite_live
  have : Finite { c // h.Reaches v c } :=
    Finite.of_injective (fun c => (⟨c.1, unfolds.live c.1 c.2⟩ : { c // h.isLive c = true }))
      fun a b same => Subtype.ext (congrArg (·.1) same)
  let inside (a b : { c // h.Reaches v c }) : Prop := h.Contains b.1 a.1
  have : IsTrans _ inside := ⟨fun a b c ⟨d, v, hv, is, leads⟩ ⟨d', v', hv', is', leads'⟩ =>
    ⟨d', v', hv', is', leads'.trans (.head hv is leads)⟩⟩
  have : Std.Irrefl inside := ⟨fun a loop => unfolds.noLoop a.1 a.2 loop⟩
  have all (c : { c // h.Reaches v c }) : ∀ w ∈ h.contents c.1, ∀ unfolds, motive w unfolds := by
    induction c using (Finite.wellFounded_of_trans_of_irrefl inside).induction with
    | h c ih =>
      intro w held unfolds
      refine step w unfolds fun d is x hx => ih ⟨d, ?_⟩ (contains_iff.mpr ⟨w, held, .here is⟩) x hx _
      obtain ⟨top, isTop, leads⟩ := c.2
      exact ⟨top, isTop, leads.step held is⟩
  exact step v unfolds fun c is w held => all ⟨c, .here is⟩ w held _

end Unfolds

/-! ## Room for all open containers -/

/-- The open containers are distinct, live and apart from what a value leads to, and the fuel is enough
for all others. -/
structure Room (h : Heap) (fuel : Nat) (opened : List Container) (v : Value) : Prop where
  distinct : opened.Nodup
  live : ∀ c ∈ opened, h.isLive c = true
  apart : ∀ c ∈ opened, ¬h.Reaches v c
  enough : h.maps.size + h.lists.size ≤ fuel + opened.length

theorem Room.outermost (h : Heap) (v : Value) : h.Room (h.maps.size + h.lists.size + 1) [] v :=
  ⟨.nil, by simp, by simp, by simp⟩

/-- The place of a container when the lists are counted after the maps. -/
def place (h : Heap) : Container → Nat
  | .map m => m.index
  | .list l => h.maps.size + l.index

/-- Distinct live containers are no more than there are cells. -/
theorem length_le_of_live {h : Heap} {opened : List Container} (distinct : opened.Nodup)
    (live : ∀ c ∈ opened, h.isLive c = true) : opened.length ≤ h.maps.size + h.lists.size := by
  have low : ∀ c ∈ opened, h.place c < h.maps.size + h.lists.size := by
    intro c hc
    have reserves := reserves_of_isLive (live c hc)
    cases c with
    | map m => exact Nat.lt_add_right _ reserves
    | list l => exact Nat.add_lt_add_left reserves _
  have apart : (opened.map h.place).Nodup := by
    refine distinct.map_on fun c hc d hd same => ?_
    have := reserves_of_isLive (live c hc)
    have := reserves_of_isLive (live d hd)
    cases c with
    | map m =>
      cases d with
      | map n =>
        cases m
        cases n
        simpa [place] using same
      | list l =>
        simp only [place, Reserves] at *
        omega
    | list l =>
      cases d with
      | map m =>
        simp only [place, Reserves] at *
        omega
      | list k =>
        cases l
        cases k
        simpa [place] using same
  have within : opened.map h.place ⊆ List.range (h.maps.size + h.lists.size) := by
    intro i hi
    obtain ⟨c, hc, rfl⟩ := List.mem_map.mp hi
    exact List.mem_range.mpr (low c hc)
  simpa using (apart.subperm within).length_le

namespace Room

variable {h : Heap} {fuel : Nat} {opened : List Container} {v : Value} {c : Container}

/-- A container that a value is still fits, and what it holds fits inside it. -/
theorem opens (room : h.Room fuel opened v) (unfolds : h.Unfolds v) (is : v.container? = some c) :
    ∃ less, fuel = less + 1 ∧ depthAmong? c opened = none ∧
      ∀ w ∈ h.contents c, h.Room less (c :: opened) w := by
  have fresh : c ∉ opened := fun mem => room.apart c mem (.here is)
  have distinct : (c :: opened).Nodup := List.nodup_cons.mpr ⟨fresh, room.distinct⟩
  have live : ∀ d ∈ c :: opened, h.isLive d = true :=
    List.forall_mem_cons.mpr ⟨unfolds.live c (.here is), room.live⟩
  have few := length_le_of_live distinct live
  have enough := room.enough
  rw [List.length_cons] at few
  refine ⟨fuel - 1, by omega, depthAmong?_eq_none_iff.mpr fresh, fun w held => ?_⟩
  refine ⟨distinct, live, ?_, by simp; omega⟩
  refine List.forall_mem_cons.mpr ⟨fun back => ?_, fun d mem back => ?_⟩
  · exact unfolds.noLoop c (.here is) (contains_iff.mpr ⟨_, held, back⟩)
  · exact room.apart d mem (.inner is held back)

end Room

/-! ## Snapshots of values that unfold -/

theorem mem_contents_of_entry {h : Heap} {m : MapId} {cell : MapCell} {e : Entry}
    (hc : h.map? m = some cell) (he : e ∈ cell.entries) : e.value ∈ h.contents (.map m) := by
  simpa [contents, MapCell.contents, hc] using ⟨e, he, rfl⟩

theorem mem_contents_of_item {h : Heap} {l : ListId} {cell : ListCell} {w : Value}
    (hc : h.list? l = some cell) (hw : w ∈ cell.items) : w ∈ h.contents (.list l) := by
  simpa [contents, items, hc] using hw

section Snapshots

variable {h : Heap} {v : Value}

/-- The snapshot is the same with any fuel and inside any open containers that leave room. -/
theorem snapshotIn_eq {fuel fuel' : Nat} {opened opened' : List Container} (unfolds : h.Unfolds v)
    (room : h.Room fuel opened v) (room' : h.Room fuel' opened' v) :
    h.snapshotIn fuel opened v = h.snapshotIn fuel' opened' v := by
  induction v, unfolds using Unfolds.induction generalizing fuel fuel' opened opened' with
  | step v unfolds ih =>
    cases v with
    | map m =>
      obtain ⟨less, rfl, fresh, inner⟩ := room.opens unfolds rfl
      obtain ⟨less', rfl, fresh', inner'⟩ := room'.opens unfolds rfl
      simp only [snapshotIn, fresh, fresh']
      rcases hc : h.map? m with _ | cell
      · rfl
      · simp only [Snapshot.map.injEq, List.map_inj_left, and_true]
        intro e he
        have held := mem_contents_of_entry hc he
        rw [ih _ rfl _ held (inner _ held) (inner' _ held)]
    | list l =>
      obtain ⟨less, rfl, fresh, inner⟩ := room.opens unfolds rfl
      obtain ⟨less', rfl, fresh', inner'⟩ := room'.opens unfolds rfl
      simp only [snapshotIn, fresh, fresh']
      rcases hc : h.list? l with _ | cell
      · rfl
      · simp only [Snapshot.list.injEq, List.map_inj_left, and_true]
        intro w hw
        have held := mem_contents_of_item hc hw
        exact ih _ rfl _ held (inner _ held) (inner' _ held)
    | null | bool _ | number _ | text _ => simp only [snapshotIn]

theorem snapshot_map {m : MapId} {cell : MapCell} (unfolds : h.Unfolds (.map m))
    (hc : h.map? m = some cell) :
    h.snapshot (.map m) =
      .map (cell.entries.map fun e => (e.key, e.watchers, h.snapshot e.value)) cell.observed := by
  obtain ⟨less, enough, fresh, inner⟩ := (Room.outermost h (.map m)).opens unfolds rfl
  rw [snapshot, enough]
  simp only [snapshotIn, fresh, hc, Snapshot.map.injEq, List.map_inj_left, and_true]
  intro e he
  have held := mem_contents_of_entry hc he
  rw [snapshotIn_eq (unfolds.inner rfl held) (inner _ held) (.outermost h _), snapshot]

theorem snapshot_list {l : ListId} {cell : ListCell} (unfolds : h.Unfolds (.list l))
    (hc : h.list? l = some cell) :
    h.snapshot (.list l) = .list (cell.items.map h.snapshot) cell.observed cell.watchers := by
  obtain ⟨less, enough, fresh, inner⟩ := (Room.outermost h (.list l)).opens unfolds rfl
  rw [snapshot, enough]
  simp only [snapshotIn, fresh, hc, Snapshot.list.injEq, List.map_inj_left, and_true]
  intro w hw
  have held := mem_contents_of_item hc hw
  exact snapshotIn_eq (unfolds.inner rfl held) (inner _ held) (.outermost h _)

end Snapshots

/-! ## Heaps that agree below a value -/

/-- A container has the same cell in both heaps. -/
def SameCell (h h' : Heap) : Container → Prop
  | .map m => h'.map? m = h.map? m
  | .list l => h'.list? l = h.list? l

theorem SameCell.refl (h : Heap) (c : Container) : SameCell h h c := by
  cases c <;> rfl

theorem SameCell.isLive {h h' : Heap} {c : Container} (same : SameCell h h' c) :
    h'.isLive c = h.isLive c := by
  cases c with
  | map m => exact congrArg Option.isSome same
  | list l => exact congrArg Option.isSome same

theorem SameCell.contents {h h' : Heap} {c : Container} (same : SameCell h h' c) :
    h'.contents c = h.contents c := by
  cases c with
  | map m => simp only [Heap.contents, show h'.map? m = h.map? m from same]
  | list l => simp only [Heap.contents, items, show h'.list? l = h.list? l from same]

section Agreement

variable {h h' : Heap} {v : Value}

theorem reaches_congr (same : ∀ c, h.Reaches v c → SameCell h h' c) {d : Container} :
    h'.Reaches v d ↔ h.Reaches v d := by
  constructor
  · rintro ⟨root, is, leads⟩
    refine ⟨root, is, ?_⟩
    induction leads with
    | refl => exact .refl
    | step _ held isNext ih => exact ih.step ((same _ ⟨root, is, ih⟩).contents ▸ held) isNext
  · rintro ⟨root, is, leads⟩
    refine ⟨root, is, ?_⟩
    induction leads with
    | refl => exact .refl
    | step before held isNext ih =>
      exact ih.step ((same _ ⟨root, is, before⟩).contents ▸ held) isNext

theorem Unfolds.congr (unfolds : h.Unfolds v) (same : ∀ c, h.Reaches v c → SameCell h h' c) :
    h'.Unfolds v := by
  have reaches {c : Container} : h'.Reaches v c ↔ h.Reaches v c := reaches_congr same
  refine ⟨fun c hc => ?_, fun c hc => ?_, fun m cell hm => ?_⟩
  · exact (same c (reaches.mp hc)).isLive.trans (unfolds.live c (reaches.mp hc))
  · have below := reaches.mp hc
    rw [contains_iff, (same c below).contents]
    rintro ⟨w, held, back⟩
    refine unfolds.noLoop c below (contains_iff.mpr ⟨w, held, ?_⟩)
    obtain ⟨root, is, leads⟩ := below
    refine (reaches_congr fun d hd => ?_).mp back
    obtain ⟨inner, isInner, deeper⟩ := hd
    exact same d ⟨root, is, leads.trans (.head held isInner deeper)⟩
  · rw [show h'.map? m = h.map? m from same _ (reaches.mp hm)]
    exact unfolds.distinct m cell (reaches.mp hm)

/-- Heaps that agree on all containers that a value leads to have the same snapshot of it. -/
theorem snapshot_congr (unfolds : h.Unfolds v) (same : ∀ c, h.Reaches v c → SameCell h h' c) :
    h'.snapshot v = h.snapshot v := by
  induction v, unfolds using Unfolds.induction with
  | step v unfolds ih =>
    have inner {c : Container} (is : v.container? = some c) {w : Value} (held : w ∈ h.contents c) :
        h'.snapshot w = h.snapshot w := ih c is w held fun d hd => same d (.inner is held hd)
    cases v with
    | map m =>
      obtain ⟨cell, hc⟩ := Option.isSome_iff_exists.mp (unfolds.live _ (.here rfl))
      have hc' : h'.map? m = some cell := (same (.map m) (.here rfl)).trans hc
      rw [snapshot_map unfolds hc, snapshot_map (unfolds.congr same) hc']
      simp only [Snapshot.map.injEq, List.map_inj_left, and_true]
      intro e he
      rw [inner rfl (mem_contents_of_entry hc he)]
    | list l =>
      obtain ⟨cell, hc⟩ := Option.isSome_iff_exists.mp (unfolds.live _ (.here rfl))
      have hc' : h'.list? l = some cell := (same (.list l) (.here rfl)).trans hc
      rw [snapshot_list unfolds hc, snapshot_list (unfolds.congr same) hc']
      simp only [Snapshot.list.injEq, List.map_inj_left, and_true]
      exact fun w hw => inner rfl (mem_contents_of_item hc hw)
    | null | bool _ | number _ | text _ => simp only [snapshot, snapshotIn]

theorem document_congr (unfolds : h.Unfolds v) (same : ∀ c, h.Reaches v c → SameCell h h' c) :
    h'.document v = h.document v := by
  rw [document, document, snapshot_congr unfolds same]

theorem render_congr (unfolds : h.Unfolds v) (same : ∀ c, h.Reaches v c → SameCell h h' c) :
    h'.render v = h.render v := by
  cases v with
  | map m => simp only [render, document_congr unfolds same]
  | list l => simp only [render, document_congr unfolds same]
  | null | bool _ | number _ | text _ => rfl

end Agreement

/-! ## Fresh containers -/

/-- All containers that are live keep their cells. -/
def KeepsLive (h h' : Heap) : Prop := ∀ c, h.isLive c = true → SameCell h h' c

namespace KeepsLive

variable {h h' h'' : Heap}

theorem refl (h : Heap) : KeepsLive h h := fun c _ => .refl h c

theorem trans (first : KeepsLive h h') (second : KeepsLive h' h'') : KeepsLive h h'' := by
  intro c live
  have same := first c live
  have next := second c (same.isLive.trans live)
  cases c with
  | map m => exact Eq.trans next same
  | list l => exact Eq.trans next same

theorem unfolds (keeps : KeepsLive h h') {v : Value} (unfolds : h.Unfolds v) : h'.Unfolds v :=
  unfolds.congr fun c hc => keeps c (unfolds.live c hc)

theorem snapshot (keeps : KeepsLive h h') {v : Value} (unfolds : h.Unfolds v) :
    h'.snapshot v = h.snapshot v :=
  snapshot_congr unfolds fun c hc => keeps c (unfolds.live c hc)

theorem reaches_iff (keeps : KeepsLive h h') {v : Value} (unfolds : h.Unfolds v) {c : Container} :
    h'.Reaches v c ↔ h.Reaches v c :=
  reaches_congr fun c hc => keeps c (unfolds.live c hc)

theorem dead (keeps : KeepsLive h h') {c : Container} (dead : h'.isLive c = false) :
    h.isLive c = false := by
  by_contra live
  rw [(keeps c (Bool.eq_true_of_not_eq_false live)).isLive] at dead
  exact live dead

section Fresh

variable {v : Value} {c : Container}

/-- A fresh container leads to itself and to what its contents led to before. -/
theorem reaches_fresh (keeps : KeepsLive h h') (is : v.container? = some c)
    (inside : ∀ w ∈ h'.contents c, h.Unfolds w) {d : Container} (reaches : h'.Reaches v d) :
    d = c ∨ ∃ w ∈ h'.contents c, h.Reaches w d := by
  rcases reaches_cases reaches with is' | ⟨top, isTop, w, held, further⟩
  · exact .inl (Option.some.inj (is'.symm.trans is))
  · obtain rfl := Option.some.inj (isTop.symm.trans is)
    exact .inr ⟨w, held, (keeps.reaches_iff (inside w held)).mp further⟩

/-- A fresh container around values that unfold. -/
theorem unfolds_fresh (keeps : KeepsLive h h') (is : v.container? = some c)
    (fresh : h.isLive c = false) (live : h'.isLive c = true)
    (inside : ∀ w ∈ h'.contents c, h.Unfolds w)
    (distinct : ∀ m cell, c = .map m → h'.map? m = some cell → cell.keys.Nodup) : h'.Unfolds v := by
  have below {w : Value} (held : w ∈ h'.contents c) {d : Container} (hd : h.Reaches w d) :
      h'.Unfolds w ∧ h'.Reaches w d :=
    ⟨keeps.unfolds (inside w held), (keeps.reaches_iff (inside w held)).mpr hd⟩
  refine ⟨fun d hd => ?_, fun d hd => ?_, fun m cell hm hc => ?_⟩
  · obtain rfl | ⟨w, held, was⟩ := keeps.reaches_fresh is inside hd
    · exact live
    · exact (below held was).1.live d (below held was).2
  · obtain rfl | ⟨w, held, was⟩ := keeps.reaches_fresh is inside hd
    · intro loop
      obtain ⟨w, held, back⟩ := contains_iff.mp loop
      have was := (inside w held).live d ((keeps.reaches_iff (inside w held)).mp back)
      rw [fresh] at was
      contradiction
    · exact (below held was).1.noLoop d (below held was).2
  · obtain same | ⟨w, held, was⟩ := keeps.reaches_fresh is inside hm
    · exact distinct m cell same.symm hc
    · exact (below held was).1.distinct m cell (below held was).2 hc

end Fresh

end KeepsLive

/-- A key that a map lacks is stored as its last field. -/
theorem store_of_lacking {c : MapCell} {key : String} (lacks : key ∉ c.keys) (v : Value) :
    c.store key v = { c with entries := c.entries ++ [⟨key, v, none⟩] } := by
  have none : ¬(c.lookup? key).isSome := by
    simpa [MapCell.lookup?, MapCell.keys, List.find?_isSome] using lacks
  exact if_neg none

/-- A map with a plain field for each entry. -/
def plainMap (entries : List (String × Value)) : MapCell :=
  .ofEntries (entries.map fun e => ⟨e.1, e.2, none⟩)

theorem keys_plainMap (entries : List (String × Value)) :
    (plainMap entries).keys = entries.map (·.1) := by
  simp [plainMap, MapCell.ofEntries, MapCell.keys, Function.comp_def]

theorem foldl_store_plainMap {before entries : List (String × Value)}
    (distinct : ((before ++ entries).map (·.1)).Nodup) :
    entries.foldl (fun c e => c.store e.1 e.2) (plainMap before) = plainMap (before ++ entries) := by
  induction entries generalizing before with
  | nil => simp
  | cons e rest ih =>
    have lacks : e.1 ∉ (plainMap before).keys := by
      rw [List.map_append, List.nodup_append] at distinct
      rw [keys_plainMap]
      exact fun mem => distinct.2.2 e.1 mem e.1 (by simp) rfl
    rw [List.append_cons] at distinct ⊢
    rw [List.foldl_cons, store_of_lacking lacks, ← ih distinct]
    simp [plainMap, MapCell.ofEntries]

section Fresh

variable (h : Heap)

theorem keepsLive_newList (items : List Value) : KeepsLive h (h.newList items).1 := by
  intro c live
  cases c with
  | map m => exact map?_newList h items m
  | list l =>
    have reserves := reserves_of_isLive live
    exact (list?_newList h items l).trans (if_neg (Nat.ne_of_lt reserves))

theorem keepsLive_newMap (entries : List (String × Value)) : KeepsLive h (h.newMap entries).1 := by
  intro c live
  cases c with
  | map m =>
    have reserves := reserves_of_isLive live
    exact (map?_newMap h entries m).trans (if_neg (Nat.ne_of_lt reserves))
  | list l => exact list?_newMap h entries l

theorem unfolds_newList {items : List Value} (unfolds : ∀ v ∈ items, h.Unfolds v) :
    (h.newList items).1.Unfolds (.list (h.newList items).2) ∧
      (h.newList items).1.snapshot (.list (h.newList items).2) =
        .list (items.map h.snapshot) false [] ∧
      ∀ c, (h.newList items).1.Reaches (.list (h.newList items).2) c →
        h.isLive c = false ∨ ∃ w ∈ items, h.Reaches w c := by
  have keeps := h.keepsLive_newList items
  have hc : (h.newList items).1.list? (h.newList items).2 = some (.ofItems items) :=
    (list?_newList h items _).trans (if_pos rfl)
  have contents : (h.newList items).1.contents (.list (h.newList items).2) = items := by
    simp [contents, Heap.items, hc, ListCell.ofItems]
  have inside : ∀ w ∈ (h.newList items).1.contents (.list (h.newList items).2), h.Unfolds w :=
    fun w held => unfolds w (contents ▸ held)
  have fresh : h.isLive (.list (h.newList items).2) = false := by simp [isLive, list?, newList]
  have all : (h.newList items).1.Unfolds (.list (h.newList items).2) :=
    keeps.unfolds_fresh rfl fresh (by simp [isLive, hc]) inside (by rintro _ _ ⟨⟩)
  refine ⟨all, ?_, fun c hc => ?_⟩
  · rw [snapshot_list all hc]
    simp only [ListCell.ofItems, Snapshot.list.injEq, List.map_inj_left, and_true]
    exact fun w hw => keeps.snapshot (unfolds w hw)
  · obtain rfl | ⟨w, held, was⟩ := keeps.reaches_fresh rfl inside hc
    · exact .inl fresh
    · exact .inr ⟨w, contents ▸ held, was⟩

theorem unfolds_newMap {entries : List (String × Value)} (distinct : (entries.map (·.1)).Nodup)
    (unfolds : ∀ e ∈ entries, h.Unfolds e.2) :
    (h.newMap entries).1.Unfolds (.map (h.newMap entries).2) ∧
      (h.newMap entries).1.snapshot (.map (h.newMap entries).2) =
        .map (entries.map fun e => (e.1, none, h.snapshot e.2)) false ∧
      ∀ c, (h.newMap entries).1.Reaches (.map (h.newMap entries).2) c →
        h.isLive c = false ∨ ∃ e ∈ entries, h.Reaches e.2 c := by
  have keeps := h.keepsLive_newMap entries
  have hc : (h.newMap entries).1.map? (h.newMap entries).2 =
      some (plainMap entries) := by
    have filled : entries.foldl (fun c e => c.store e.1 e.2) (plainMap []) = plainMap entries :=
      foldl_store_plainMap distinct
    rw [map?_newMap, ← filled]
    exact if_pos rfl
  have contents {w : Value}
      (held : w ∈ (h.newMap entries).1.contents (.map (h.newMap entries).2)) :
      ∃ e ∈ entries, e.2 = w := by
    simpa [contents, MapCell.contents, plainMap, MapCell.ofEntries, hc] using held
  have inside : ∀ w ∈ (h.newMap entries).1.contents (.map (h.newMap entries).2), h.Unfolds w := by
    intro w held
    obtain ⟨e, he, rfl⟩ := contents held
    exact unfolds e he
  have fresh : h.isLive (.map (h.newMap entries).2) = false := by simp [isLive, map?, newMap]
  have all : (h.newMap entries).1.Unfolds (.map (h.newMap entries).2) := by
    refine keeps.unfolds_fresh rfl fresh (by simp [isLive, hc]) inside ?_
    rintro m cell ⟨⟩ hcell
    cases hc.symm.trans hcell
    exact (keys_plainMap entries).symm ▸ distinct
  refine ⟨all, ?_, fun c hc => ?_⟩
  · rw [snapshot_map all hc]
    simp only [plainMap, MapCell.ofEntries, List.map_map, Snapshot.map.injEq, List.map_inj_left,
      and_true]
    intro e he
    simp [keeps.snapshot (unfolds e he)]
  · obtain rfl | ⟨w, held, was⟩ := keeps.reaches_fresh rfl inside hc
    · exact .inl fresh
    · obtain ⟨e, he, rfl⟩ := contents held
      exact .inr ⟨e, he, was⟩

end Fresh

end DataBinding.Heap
