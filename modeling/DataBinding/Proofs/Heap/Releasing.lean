-- What a release leaves. The counts are exact at every step: a container is counted as often as it is
-- named by what is held and by live containers. So a release frees a container only if nothing that stays
-- names it, and in the end everything that is live is held or is inside a live container. These are the
-- largest containers that support each other, so two releases agree if they keep the same ones.
import DataBinding.Proofs.Heap.Depth
import Mathlib

namespace DataBinding

/-! ## Naming -/

namespace Value

/-- Whether a value is a handle of a container. -/
def names (v : Value) (c : Container) : Bool := v.container? == some c

theorem names_iff {v : Value} {c : Container} : v.names c = true ↔ v.container? = some c := by
  simp [names]

end Value

namespace HoldCounts

/-- The counts have a place for a container. -/
def Covers (t : HoldCounts) : Container → Prop
  | .map m => m.index < t.maps.size
  | .list l => l.index < t.lists.size

theorem of_change_self {t : HoldCounts} {c : Container} (covers : t.Covers c) (f : Nat → Nat) :
    (t.change f c).of c = f (t.of c) := by
  cases c with
  | map m =>
    have lt : m.index < t.maps.size := covers
    simp [change, of, Array.getElem_modify, lt]
  | list l =>
    have lt : l.index < t.lists.size := covers
    simp [change, of, Array.getElem_modify, lt]

theorem covers_change (t : HoldCounts) (f : Nat → Nat) (c d : Container) :
    (t.change f c).Covers d ↔ t.Covers d := by
  cases c <;> cases d <;> simp [change, Covers]

theorem raise_eq (t : HoldCounts) (v : Value) :
    t.raise v = match v.container? with
      | some c => t.change (· + 1) c
      | none => t := by
  cases v <;> rfl

theorem lower_eq (t : HoldCounts) (v : Value) :
    t.lower v = match v.container? with
      | some c => t.change (· - 1) c
      | none => t := by
  cases v <;> rfl

theorem of_raise {t : HoldCounts} {c : Container} (covers : t.Covers c) (v : Value) :
    (t.raise v).of c = t.of c + if v.names c then 1 else 0 := by
  rw [raise_eq]
  rcases hv : v.container? with _ | d
  · simp [Value.names, hv]
  · by_cases e : d = c
    · subst e
      simp [Value.names, hv, of_change_self covers]
    · simp [Value.names, hv, e, of_change_of_ne t _ (Ne.symm e)]

theorem of_lower {t : HoldCounts} {c : Container} (covers : t.Covers c) (v : Value) :
    (t.lower v).of c = t.of c - if v.names c then 1 else 0 := by
  rw [lower_eq]
  rcases hv : v.container? with _ | d
  · simp [Value.names, hv]
  · by_cases e : d = c
    · subst e
      simp [Value.names, hv, of_change_self covers]
    · simp [Value.names, hv, e, of_change_of_ne t _ (Ne.symm e)]

theorem covers_raise (t : HoldCounts) (v : Value) (c : Container) :
    (t.raise v).Covers c ↔ t.Covers c := by
  rw [raise_eq]
  split
  · exact covers_change _ _ _ _
  · rfl

theorem covers_lower (t : HoldCounts) (v : Value) (c : Container) :
    (t.lower v).Covers c ↔ t.Covers c := by
  rw [lower_eq]
  split
  · exact covers_change _ _ _ _
  · rfl

/-- Every value that names a container raises its count by one. -/
theorem of_foldl_raise {t : HoldCounts} {c : Container} (covers : t.Covers c) (vs : List Value) :
    (vs.foldl raise t).of c = t.of c + vs.countP (·.names c) ∧ (vs.foldl raise t).Covers c := by
  induction vs generalizing t with
  | nil => exact ⟨rfl, covers⟩
  | cons v rest ih =>
    obtain ⟨count, covers'⟩ := ih ((covers_raise t v c).mpr covers)
    refine ⟨?_, covers'⟩
    rw [List.foldl_cons, count, of_raise covers, List.countP_cons]
    omega

theorem of_foldl_lower {t : HoldCounts} {c : Container} (covers : t.Covers c) (vs : List Value) :
    (vs.foldl lower t).of c = t.of c - vs.countP (·.names c) ∧ (vs.foldl lower t).Covers c := by
  induction vs generalizing t with
  | nil => exact ⟨rfl, covers⟩
  | cons v rest ih =>
    obtain ⟨count, covers'⟩ := ih ((covers_lower t v c).mpr covers)
    refine ⟨?_, covers'⟩
    rw [List.foldl_cons, count, of_lower covers, List.countP_cons]
    omega

end HoldCounts

namespace Heap

/-! ## What a heap stores -/

theorem isLive_iff_mark? {h : Heap} {c : Container} : h.isLive c = true ↔ h.mark? c ≠ none := by
  cases c <;> simp [isLive, mark?, Option.isSome_iff_ne_none]

theorem contents_eq_nil {h : Heap} {c : Container} (dead : h.isLive c = false) :
    h.contents c = [] :=
  contents_of_dead (by simpa [isLive_iff_mark?] using Bool.eq_false_iff.mp dead)

theorem isLive_of_mem_contents {h : Heap} {c : Container} {v : Value} (hv : v ∈ h.contents c) :
    h.isLive c = true := by
  by_contra dead
  rw [contents_eq_nil (Bool.eq_false_iff.mpr dead)] at hv
  cases hv

/-- The contents of a cell; an empty one has none. -/
def mapStock (c : Option MapCell) : List Value := (c.map MapCell.contents).getD []

def listStock (c : Option ListCell) : List Value := (c.map (·.items)).getD []

/-- The values in all containers. -/
def stock (h : Heap) : List Value :=
  h.maps.toList.flatMap mapStock ++ h.lists.toList.flatMap listStock

theorem mem_mapStock_iff {h : Heap} {v : Value} :
    (∃ c ∈ h.maps.toList, v ∈ mapStock c) ↔ ∃ m, v ∈ h.contents (.map m) := by
  have at_ (m : MapId) {c : Option MapCell} (hc : h.maps[m.index]? = some c) :
      h.contents (.map m) = mapStock c := by
    simp [contents, map?, hc, mapStock]
  constructor
  · rintro ⟨c, hc, hv⟩
    obtain ⟨i, hi⟩ := List.mem_iff_getElem?.mp hc
    exact ⟨⟨i⟩, at_ ⟨i⟩ (by simpa using hi) ▸ hv⟩
  · rintro ⟨m, hv⟩
    rcases hc : h.maps[m.index]? with _ | c
    · simp [contents, map?, hc] at hv
    · exact ⟨c, Array.mem_toList_iff.mpr (Array.mem_of_getElem? hc), at_ m hc ▸ hv⟩

theorem mem_listStock_iff {h : Heap} {v : Value} :
    (∃ c ∈ h.lists.toList, v ∈ listStock c) ↔ ∃ l, v ∈ h.contents (.list l) := by
  have at_ (l : ListId) {c : Option ListCell} (hc : h.lists[l.index]? = some c) :
      h.contents (.list l) = listStock c := by
    simp [contents, items, list?, hc, listStock]
  constructor
  · rintro ⟨c, hc, hv⟩
    obtain ⟨i, hi⟩ := List.mem_iff_getElem?.mp hc
    exact ⟨⟨i⟩, at_ ⟨i⟩ (by simpa using hi) ▸ hv⟩
  · rintro ⟨l, hv⟩
    rcases hc : h.lists[l.index]? with _ | c
    · simp [contents, items, list?, hc] at hv
    · exact ⟨c, Array.mem_toList_iff.mpr (Array.mem_of_getElem? hc), at_ l hc ▸ hv⟩

/-- A value is stored if some container holds it. -/
theorem mem_stock_iff {h : Heap} {v : Value} : v ∈ h.stock ↔ ∃ c, v ∈ h.contents c := by
  rw [stock, List.mem_append, List.mem_flatMap, List.mem_flatMap, mem_mapStock_iff,
    mem_listStock_iff]
  constructor
  · rintro (⟨m, hv⟩ | ⟨l, hv⟩)
    · exact ⟨.map m, hv⟩
    · exact ⟨.list l, hv⟩
  · rintro ⟨m | l, hv⟩
    · exact .inl ⟨m, hv⟩
    · exact .inr ⟨l, hv⟩

/-- To empty a place of a list takes its own part out of what all places give. -/
theorem perm_flatMap_set {α β : Type} {f : α → List β} {xs : List α} {i : Nat} {x : α}
    (empty : α) (hi : xs[i]? = some x) (nothing : f empty = []) :
    (xs.flatMap f).Perm (f x ++ (xs.set i empty).flatMap f) := by
  induction xs generalizing i with
  | nil => cases hi
  | cons y rest ih =>
    cases i with
    | zero =>
      cases hi
      simp [nothing]
    | succ i =>
      have := (ih hi).append_left (f y)
      simp only [List.flatMap_cons, List.set_cons_succ]
      exact this.trans (List.perm_append_comm_assoc _ _ _)

/-- A freed container takes its contents with it. -/
theorem perm_stock_free {h : Heap} {c : Container} (live : h.isLive c = true) :
    h.stock.Perm (h.contents c ++ (h.free c).stock) := by
  cases c with
  | map m =>
    obtain ⟨cell, hc⟩ := Option.isSome_iff_exists.mp live
    have hi : h.maps.toList[m.index]? = some (some cell) := by
      simpa [map?, Option.join_eq_some_iff] using hc
    have := (perm_flatMap_set (f := mapStock) none hi rfl).append_right
      (h.lists.toList.flatMap listStock)
    simpa [stock, free, contents, hc, mapStock, List.append_assoc] using this
  | list l =>
    obtain ⟨cell, hc⟩ := Option.isSome_iff_exists.mp live
    have hi : h.lists.toList[l.index]? = some (some cell) := by
      simpa [list?, Option.join_eq_some_iff] using hc
    have := (perm_flatMap_set (f := listStock) none hi rfl).append_left
      (h.maps.toList.flatMap mapStock)
    simp only [stock, free, contents, items, hc, Option.map_some, Option.getD_some,
      Array.toList_setIfInBounds]
    exact this.trans (List.perm_append_comm_assoc _ _ _)

/-! ## Exact counts -/

/-- Whether a heap has a cell for a container, empty or not. -/
def Reserves (h : Heap) : Container → Prop
  | .map m => m.index < h.maps.size
  | .list l => l.index < h.lists.size

theorem reserves_of_isLive {h : Heap} {c : Container} (live : h.isLive c = true) :
    h.Reserves c := by
  cases c with
  | map m =>
    obtain ⟨cell, hc⟩ := Option.isSome_iff_exists.mp live
    exact index_lt_of_map? hc
  | list l =>
    obtain ⟨cell, hc⟩ := Option.isSome_iff_exists.mp live
    exact index_lt_of_list? hc

theorem reserves_free (h : Heap) (c d : Container) : (h.free c).Reserves d ↔ h.Reserves d := by
  cases c <;> cases d <;> simp [free, Reserves]

/-- Each container is counted as often as it is named by what is held and by what is stored. -/
def Counted (h : Heap) (held : List Value) (t : HoldCounts) : Prop :=
  ∀ c, h.Reserves c → t.Covers c ∧ t.of c = (held ++ h.stock).countP (·.names c)

/-- To count what all maps hold is to count their stock. -/
theorem foldl_raise_maps (maps : Array (Option MapCell)) (t : HoldCounts) :
    maps.foldl (fun t c => match c with
      | some c => c.entries.foldl (fun t e => t.raise e.value) t
      | none => t) t = (maps.toList.flatMap mapStock).foldl .raise t := by
  rw [List.foldl_flatMap, ← Array.foldl_toList]
  congr 1
  funext t c
  cases c <;> simp [mapStock, MapCell.contents, List.foldl_map]

theorem foldl_raise_lists (lists : Array (Option ListCell)) (t : HoldCounts) :
    lists.foldl (fun t c => match c with
      | some c => c.items.foldl .raise t
      | none => t) t = (lists.toList.flatMap listStock).foldl .raise t := by
  rw [List.foldl_flatMap, ← Array.foldl_toList]
  congr 1
  funext t c
  cases c <;> simp [listStock]

theorem counted_holdCounts (h : Heap) (held : List Value) : h.Counted held (h.holdCounts held) := by
  have all : h.holdCounts held = (held ++ h.stock).foldl .raise
      ⟨.replicate h.maps.size 0, .replicate h.lists.size 0⟩ := by
    rw [stock, List.foldl_append, List.foldl_append]
    exact (foldl_raise_lists h.lists _).trans (congrArg (List.foldl _ · _) (foldl_raise_maps h.maps _))
  intro c reserves
  have covers : HoldCounts.Covers ⟨.replicate h.maps.size 0, .replicate h.lists.size 0⟩ c := by
    cases c <;> simpa [HoldCounts.Covers, Reserves] using reserves
  have zero : HoldCounts.of ⟨.replicate h.maps.size 0, .replicate h.lists.size 0⟩ c = 0 := by
    cases c <;> simp only [HoldCounts.of, Array.getElem?_replicate] <;> split <;> rfl
  obtain ⟨count, covers⟩ := HoldCounts.of_foldl_raise covers (held ++ h.stock)
  rw [all]
  exact ⟨covers, by rw [count, zero, Nat.zero_add]⟩

/-- The counts stay exact when a container is freed. -/
theorem Counted.free {h : Heap} {held : List Value} {t : HoldCounts} (counted : h.Counted held t)
    {c : Container} (live : h.isLive c = true) :
    (h.free c).Counted held ((h.contents c).foldl .lower t) := by
  intro d reserves
  obtain ⟨covers, count⟩ := counted d ((reserves_free h c d).mp reserves)
  obtain ⟨lowered, covers'⟩ := HoldCounts.of_foldl_lower covers (h.contents c)
  refine ⟨covers', ?_⟩
  rw [lowered, count, List.countP_append, List.countP_append,
    (perm_stock_free live).countP_eq, List.countP_append]
  omega

/-! ## Support -/

/-- A container is named by what is held, or by the contents of one of the given containers. -/
def Supported (h : Heap) (held : List Value) (S : Container → Prop) (c : Container) : Prop :=
  (∃ v ∈ held, v.container? = some c) ∨ ∃ d, S d ∧ ∃ v ∈ h.contents d, v.container? = some c

theorem Supported.mono {h : Heap} {held more : List Value} {S : Container → Prop} {c : Container}
    (supported : h.Supported held S c) (wider : ∀ v ∈ held, v.container? = some c → v ∈ more) :
    h.Supported more S c :=
  supported.imp_left fun ⟨v, hv, is⟩ => ⟨v, wider v hv is, is⟩

/-- The containers are live, and each of them is held or is inside another one. -/
def SelfSupported (h : Heap) (held : List Value) (S : Container → Prop) : Prop :=
  ∀ c, S c → h.isLive c = true ∧ h.Supported held S c

theorem Counted.pos_iff {h : Heap} {held : List Value} {t : HoldCounts} (counted : h.Counted held t)
    {c : Container} (reserves : h.Reserves c) :
    t.of c ≠ 0 ↔ h.Supported held (h.isLive · = true) c := by
  rw [(counted c reserves).2, ← Nat.pos_iff_ne_zero, List.countP_pos_iff]
  simp only [List.mem_append, Value.names_iff, mem_stock_iff]
  constructor
  · rintro ⟨v, hv | ⟨d, hv⟩, e⟩
    · exact .inl ⟨v, hv, e⟩
    · exact .inr ⟨d, isLive_of_mem_contents hv, v, hv, e⟩
  · rintro (⟨v, hv, e⟩ | ⟨d, _, v, hv, e⟩)
    · exact ⟨v, .inl hv, e⟩
    · exact ⟨v, .inr ⟨d, hv⟩, e⟩

theorem isLive_free_of_ne {h : Heap} {c d : Container} (ne : d ≠ c) :
    (h.free c).isLive d = h.isLive d ∧ (h.free c).contents d = h.contents d := by
  cases c with
  | map m =>
    cases d with
    | map n =>
      have : m.index ≠ n.index := fun e => ne (by cases m; cases n; simp_all)
      simp [free, isLive, contents, map?, Array.getElem?_setIfInBounds_ne this]
    | list _ => exact ⟨rfl, rfl⟩
  | list k =>
    cases d with
    | map _ => exact ⟨rfl, rfl⟩
    | list l =>
      have : k.index ≠ l.index := fun e => ne (by cases k; cases l; simp_all)
      simp [free, isLive, contents, items, list?, Array.getElem?_setIfInBounds_ne this]

theorem isLive_free_self (h : Heap) (c : Container) : (h.free c).isLive c = false := by
  cases c with
  | map m =>
    by_cases lt : m.index < h.maps.size <;> simp [free, isLive, map?, lt]
  | list l =>
    by_cases lt : l.index < h.lists.size <;> simp [free, isLive, list?, lt]

/-! ## The walk -/

/-- With exact counts, and with all pending that nothing supports, the release leaves supported
containers only, and it leaves all that support each other. -/
theorem releaseAll_leaves (h : Heap) (held : List Value) (t : HoldCounts) (pending : List Container)
    (counted : h.Counted held t) (awaits : ∀ c, h.isLive c = true → t.of c = 0 → c ∈ pending) :
    (∀ c, (h.releaseAll t pending).isLive c = true →
      (h.releaseAll t pending).Supported held ((h.releaseAll t pending).isLive · = true) c) ∧
    ∀ S, h.SelfSupported held S → ∀ c, S c → (h.releaseAll t pending).isLive c = true := by
  fun_induction releaseAll h t pending with
  | case1 h t =>
    refine ⟨fun c live => ?_, fun S supports c hc => (supports c hc).1⟩
    refine (counted.pos_iff (reserves_of_isLive live)).mp fun zero => ?_
    exact List.not_mem_nil (awaits c live zero)
  | case2 h t c pending hc contents ih =>
    obtain ⟨live, zero⟩ := hc
    have awaits' : ∀ d, (h.free c).isLive d = true → (contents.foldl .lower t).of d = 0 →
        d ∈ contents.filterMap Value.container? ++ pending := by
      intro d live' zero'
      have ne : d ≠ c := by
        rintro rfl
        rw [isLive_free_self] at live'
        cases live'
      rw [(isLive_free_of_ne ne).1] at live'
      have covers := (counted d (reserves_of_isLive live')).1
      rw [(HoldCounts.of_foldl_lower covers contents).1] at zero'
      by_cases named : ∃ v ∈ contents, v.container? = some d
      · obtain ⟨v, hv, e⟩ := named
        exact List.mem_append_left _ (List.mem_filterMap.mpr ⟨v, hv, e⟩)
      · have none : contents.countP (·.names d) = 0 := by
          rw [List.countP_eq_zero]
          exact fun v hv e => named ⟨v, hv, Value.names_iff.mp e⟩
        rw [none, Nat.sub_zero] at zero'
        exact List.mem_append_right _ ((List.mem_cons.mp (awaits d live' zero')).resolve_left ne)
    obtain ⟨leaves, keeps⟩ := ih (counted.free live) awaits'
    refine ⟨leaves, fun S supports d hd => ?_⟩
    have away : ∀ d, S d → d ≠ c := by
      rintro _ hs rfl
      obtain ⟨_, supported⟩ := supports _ hs
      refine (counted.pos_iff (reserves_of_isLive live)).mpr ?_ zero
      refine supported.imp_right ?_
      rintro ⟨d, hd, inside⟩
      exact ⟨d, (supports d hd).1, inside⟩
    refine keeps S (fun e he => ?_) d hd
    obtain ⟨live', supported⟩ := supports e he
    refine ⟨(isLive_free_of_ne (away e he)).1.trans live', supported.imp_right ?_⟩
    rintro ⟨d, hd, v, hv, is⟩
    exact ⟨d, hd, v, (isLive_free_of_ne (away d hd)).2.symm ▸ hv, is⟩
  | case3 h t c pending hc ih =>
    refine ih counted fun d live zero => ?_
    refine (List.mem_cons.mp (awaits d live zero)).resolve_left ?_
    rintro rfl
    exact hc ⟨live, zero⟩

/-- The release starts with all live containers that nothing holds. -/
theorem mem_unheld {h : Heap} {t : HoldCounts} {c : Container} (live : h.isLive c = true)
    (zero : t.of c = 0) : c ∈ h.unheld t := by
  let free (cs : List Container) (c : Container) : List Container :=
    if t.of c = 0 ∧ h.isLive c = true then c :: cs else cs
  have gathers (n : Nat) (at_ : Nat → Container) (cs : List Container) :
      (∀ d ∈ cs, d ∈ n.fold (fun i _ cs => free cs (at_ i)) cs) ∧
      ∀ i < n, t.of (at_ i) = 0 → h.isLive (at_ i) = true →
        at_ i ∈ n.fold (fun i _ cs => free cs (at_ i)) cs := by
    induction n with
    | zero => exact ⟨fun d hd => hd, fun i hi => absurd hi (Nat.not_lt_zero i)⟩
    | succ n ih =>
      obtain ⟨keeps, takes⟩ := ih
      have kept (cs : List Container) {d : Container} (hd : d ∈ cs) : d ∈ free cs (at_ n) := by
        simp only [free]
        split
        · exact List.mem_cons_of_mem _ hd
        · exact hd
      rw [Nat.fold_succ]
      refine ⟨fun d hd => kept _ (keeps d hd), fun i hi zero live => ?_⟩
      rcases Nat.lt_succ_iff_lt_or_eq.mp hi with hi | rfl
      · exact kept _ (takes i hi zero live)
      · simp [free, zero, live]
  obtain ⟨keeps, takes⟩ := gathers h.lists.size (fun i => .list ⟨i⟩)
    (h.maps.size.fold (fun i _ cs => free cs (.map ⟨i⟩)) [])
  cases c with
  | map m =>
    have lt : m.index < h.maps.size := reserves_of_isLive live
    exact keeps _ ((gathers h.maps.size (fun i => .map ⟨i⟩) []).2 m.index lt zero live)
  | list l => exact takes l.index (reserves_of_isLive live) zero live

variable {h : Heap} {held : List Value}

/-- What is live after a release is held, or is inside a live container. -/
theorem supported_of_released {c : Container} (live : (h.release held).isLive c = true) :
    (h.release held).Supported held ((h.release held).isLive · = true) c :=
  (releaseAll_leaves h held _ _ (h.counted_holdCounts held) fun _ => mem_unheld).1 c live

/-- A release keeps all containers that support each other. -/
theorem SelfSupported.released {S : Container → Prop} (supports : h.SelfSupported held S)
    {c : Container} (hc : S c) : (h.release held).isLive c = true :=
  (releaseAll_leaves h held _ _ (h.counted_holdCounts held) fun _ => mem_unheld).2 S supports c hc

/-! ## What is live after a release -/

/-- A value names no container that is freed. -/
def Lives (h : Heap) (v : Value) : Prop := ∀ c, v.container? = some c → h.isLive c = true

/-- No container holds a freed one. -/
def Whole (h : Heap) : Prop := ∀ c, ∀ v ∈ h.contents c, h.Lives v

namespace ReleasedFrom

variable {h' : Heap}

theorem isLive (f : ReleasedFrom h h') {c : Container} (live : h'.isLive c = true) :
    h.isLive c = true := by
  cases c with
  | map m =>
    obtain ⟨cell, hc⟩ := Option.isSome_iff_exists.mp live
    exact Option.isSome_iff_exists.mpr ⟨cell, f.map? hc⟩
  | list l =>
    obtain ⟨cell, hc⟩ := Option.isSome_iff_exists.mp live
    exact Option.isSome_iff_exists.mpr ⟨cell, f.list? hc⟩

theorem contents (f : ReleasedFrom h h') {c : Container} (live : h'.isLive c = true) :
    h'.contents c = h.contents c := by
  cases c with
  | map m =>
    obtain ⟨cell, hc⟩ := Option.isSome_iff_exists.mp live
    simp [Heap.contents, hc, f.map? hc]
  | list l =>
    obtain ⟨cell, hc⟩ := Option.isSome_iff_exists.mp live
    simp [Heap.contents, items, hc, f.list? hc]

/-- A release is known by the containers that are live after it. -/
theorem ext {a b : Heap} (fa : ReleasedFrom h a) (fb : ReleasedFrom h b)
    (same : ∀ c, a.isLive c = true ↔ b.isLive c = true) : a = b := by
  have agree {α : Type} {x y z : Option α} (hx : x = z ∨ x = none) (hy : y = z ∨ y = none)
      (same : x.isSome = true ↔ y.isSome = true) : x = y := by
    cases x <;> cases y <;> simp_all
  have maps : a.maps = b.maps := by
    refine Array.ext (fa.size_maps.trans fb.size_maps.symm) fun i ha hb => ?_
    have : a.map? ⟨i⟩ = b.map? ⟨i⟩ := agree (fa.maps ⟨i⟩) (fb.maps ⟨i⟩) (same (.map ⟨i⟩))
    simpa [Heap.map?, ha, hb] using this
  have lists : a.lists = b.lists := by
    refine Array.ext (fa.size_lists.trans fb.size_lists.symm) fun i ha hb => ?_
    have : a.list? ⟨i⟩ = b.list? ⟨i⟩ := agree (fa.lists ⟨i⟩) (fb.lists ⟨i⟩) (same (.list ⟨i⟩))
    simpa [Heap.list?, ha, hb] using this
  have registries : a.registries = b.registries := fa.registries.trans fb.registries.symm
  cases a
  cases b
  cases maps
  cases lists
  cases registries
  rfl

end ReleasedFrom

/-- Whatever is live and supported by what stays does stay. -/
theorem released_of_supported {c : Container} (live : h.isLive c = true)
    (supported : h.Supported held ((h.release held).isLive · = true) c) :
    (h.release held).isLive c = true := by
  have f := h.releasedFrom_release held
  refine SelfSupported.released (S := fun d => (h.release held).isLive d = true ∨ d = c) ?_ (.inr rfl)
  rintro d (stays | rfl)
  · refine ⟨f.isLive stays, (supported_of_released stays).imp_right ?_⟩
    rintro ⟨e, stays, v, hv, is⟩
    exact ⟨e, .inl stays, v, f.contents stays ▸ hv, is⟩
  · exact ⟨live, supported.imp_right fun ⟨e, stays, inside⟩ => ⟨e, .inl stays, inside⟩⟩

theorem lives_of_held {v : Value} (lives : h.Lives v) (hv : v ∈ held) :
    (h.release held).Lives v := fun c is =>
  released_of_supported (lives c is) (.inl ⟨v, hv, is⟩)

theorem whole_release (whole : h.Whole) (held : List Value) : (h.release held).Whole := by
  intro c v hv d is
  have stays := isLive_of_mem_contents hv
  rw [(h.releasedFrom_release held).contents stays] at hv
  exact released_of_supported (whole c v hv d is) (.inr ⟨c, stays, v, hv, is⟩)

/-- A release frees nothing if all that is live is held or inside a live container. -/
theorem release_of_supported
    (supported : ∀ c, h.isLive c = true → h.Supported held (h.isLive · = true) c) :
    h.release held = h := by
  have f := h.releasedFrom_release held
  refine f.ext (.refl h) fun c => ⟨f.isLive, fun live => ?_⟩
  exact SelfSupported.released (fun d live => ⟨live, supported d live⟩) live

/-- Two releases agree if one of them holds no less, and all that it holds stays in the other one too. -/
theorem release_congr {more : List Value}
    (within : ∀ c, (∃ v ∈ held, v.container? = some c) → ∃ v ∈ more, v.container? = some c)
    (stay : ∀ v ∈ more, (h.release held).Lives v) : h.release more = h.release held := by
  have few := h.releasedFrom_release held
  have many := h.releasedFrom_release more
  refine many.ext few fun c => ⟨fun live => ?_, fun live => ?_⟩
  · refine SelfSupported.released (S := fun d => (h.release more).isLive d = true ∨
      (h.release held).isLive d = true) ?_ (.inl live)
    have supported {d : Container} (live : (h.release held).isLive d = true) :
        h.Supported held (fun d => (h.release more).isLive d = true ∨
          (h.release held).isLive d = true) d := by
      refine (supported_of_released live).imp_right ?_
      rintro ⟨e, live, v, hv, is⟩
      exact ⟨e, .inr live, v, few.contents live ▸ hv, is⟩
    rintro d (live | live)
    · refine ⟨many.isLive live, ?_⟩
      rcases supported_of_released live with ⟨v, hv, is⟩ | ⟨e, live, v, hv, is⟩
      · exact supported (stay v hv d is)
      · exact .inr ⟨e, .inl live, v, many.contents live ▸ hv, is⟩
    · exact ⟨few.isLive live, supported live⟩
  · refine SelfSupported.released (S := fun d => (h.release held).isLive d = true) ?_ live
    intro d live
    refine ⟨few.isLive live, ?_⟩
    rcases supported_of_released live with held | ⟨e, live, v, hv, is⟩
    · exact .inl (within d held)
    · exact .inr ⟨e, live, v, few.contents live ▸ hv, is⟩

/-! ## Ownership -/

/-- A container can be reached from what is held. -/
def OwnedBy (h : Heap) (held : List Value) (c : Container) : Prop :=
  ∃ v ∈ held, ∃ root, v.container? = some root ∧ h.Leads root c

/-- No container leads back to itself. -/
def Acyclic (h : Heap) : Prop :=
  ∀ c d v, v ∈ h.contents c → v.container? = some d → ¬h.Leads d c

/-- One container leads to another one in at least one step. -/
def Contains (h : Heap) (c e : Container) : Prop :=
  ∃ d v, v ∈ h.contents c ∧ v.container? = some d ∧ h.Leads d e

theorem Leads.trans {c d e : Container} (first : h.Leads c d) (second : h.Leads d e) :
    h.Leads c e := by
  induction second with
  | refl => exact first
  | step _ held is ih => exact ih.step held is

theorem Leads.head {c d e : Container} {v : Value} (held : v ∈ h.contents c)
    (is : v.container? = some d) (leads : h.Leads d e) : h.Leads c e :=
  (Leads.refl.step held is).trans leads

theorem finite_live (h : Heap) : Finite { c // h.isLive c = true } := by
  have maps : (Set.range fun i : Fin h.maps.size => Container.map ⟨i⟩).Finite := Set.finite_range _
  have lists : (Set.range fun i : Fin h.lists.size => Container.list ⟨i⟩).Finite :=
    Set.finite_range _
  refine ((maps.union lists).subset fun c live => ?_).to_subtype
  have reserves := reserves_of_isLive (show h.isLive c = true from live)
  cases c with
  | map m => exact .inl ⟨⟨m.index, reserves⟩, rfl⟩
  | list l => exact .inr ⟨⟨l.index, reserves⟩, rfl⟩

/-- Where nothing contains itself, whatever is live and supported by live containers is owned. -/
theorem owned_of_supported (acyclic : h.Acyclic)
    (supported : ∀ c, h.isLive c = true → h.Supported held (h.isLive · = true) c) {c : Container}
    (live : h.isLive c = true) : h.OwnedBy held c := by
  have := h.finite_live
  let within (a b : { c // h.isLive c = true }) : Prop := h.Contains a b
  have : IsTrans _ within := ⟨fun a b c ⟨d, v, hv, is, leads⟩ ⟨d', v', hv', is', leads'⟩ =>
    ⟨d, v, hv, is, leads.trans (.head hv' is' leads')⟩⟩
  have : Std.Irrefl within := ⟨fun a ⟨d, v, hv, is, leads⟩ => acyclic a d v hv is leads⟩
  have owned (c : { c // h.isLive c = true }) : h.OwnedBy held c := by
    induction c using (Finite.wellFounded_of_trans_of_irrefl within).induction with
    | h c ih =>
      rcases supported c c.2 with ⟨v, hv, is⟩ | ⟨d, live, v, hv, is⟩
      · exact ⟨v, hv, c, is, .refl⟩
      · obtain ⟨root, hroot, r, isr, leads⟩ := ih ⟨d, live⟩ ⟨c, v, hv, is, .refl⟩
        exact ⟨root, hroot, r, isr, leads.step hv is⟩
  exact owned ⟨c, live⟩

/-- What is owned is live if what is held is live and no container holds a freed one. -/
theorem OwnedBy.isLive (whole : h.Whole) (lives : ∀ v ∈ held, h.Lives v) {c : Container}
    (owned : h.OwnedBy held c) : h.isLive c = true := by
  obtain ⟨v, hv, root, is, leads⟩ := owned
  induction leads with
  | refl => exact lives v hv root is
  | step _ inside is _ => exact whole _ _ inside _ is

end Heap

end DataBinding
