-- Walks along a key path, hop by hop. What a path reads and what it crosses are gathered while the walk
-- goes on; here both are said of the hops that the walk takes through maps. A walk crosses the
-- registry of a hop that is an observed slot, and of the list that such a slot holds.
import DataBinding.Proofs.Heap.Histories
import DataBinding.Binding.ViewModel

namespace DataBinding

/-- A step of a walk through a map: the key that was read, its value, and whether it is an observed
slot. -/
structure Hop where
  map : MapId
  key : String
  value : Value
  slot : Bool
deriving DecidableEq, Repr

/-- A hop through a slot crosses the slot, and the list that is its value. -/
def Hop.Crosses (hop : Hop) : Registry → Prop
  | .slot m key => hop.slot = true ∧ hop.map = m ∧ hop.key = key
  | .list l => hop.slot = true ∧ hop.value = .list l
  | .free _ => False

instance (hop : Hop) (r : Registry) : Decidable (hop.Crosses r) := by
  cases r <;> unfold Hop.Crosses <;> infer_instance

namespace Heap

/-! ## The hops of a walk -/

/-- The value of a position of a list; null if there is none. -/
def itemAt (h : Heap) (l : ListId) (segment : String) : Value :=
  ((Text.position? segment).bind (h.item? l)).getD .null

/-- Where the segments lead from a value; null if they lead nowhere. -/
def reach (h : Heap) : Value → List String → Value
  | v, [] => v
  | .map m, segment :: rest =>
    match h.lookup? m segment with
    | some e => h.reach e.value rest
    | none => .null
  | .list l, segment :: rest => h.reach (h.itemAt l segment) rest
  | _, _ :: _ => .null

/-- The hops through maps along the segments. -/
def hops (h : Heap) : Value → List String → List Hop
  | _, [] => []
  | .map m, segment :: rest =>
    match h.lookup? m segment with
    | some e => ⟨m, segment, e.value, e.watchers.isSome⟩ :: h.hops e.value rest
    | none => []
  | .list l, segment :: rest => h.hops (h.itemAt l segment) rest
  | _, _ :: _ => []

@[simp]
theorem reach_nil (h : Heap) (v : Value) : h.reach v [] = v := by
  unfold reach
  rfl

@[simp]
theorem reach_null (h : Heap) (segments : List String) : h.reach .null segments = .null := by
  cases segments with
  | nil => exact reach_nil h _
  | cons segment rest => rfl

@[simp]
theorem hops_null (h : Heap) (segments : List String) : h.hops .null segments = [] := by
  cases segments <;> rfl

theorem reach_cons (h : Heap) (v : Value) (segment : String) (rest : List String) :
    h.reach v (segment :: rest) = h.reach (((h.hop v segment).map (·.value)).getD .null) rest := by
  cases v with
  | map m =>
    simp only [reach, hop, read]
    rcases h.lookup? m segment with _ | e
    · exact (reach_null h rest).symm
    · rfl
  | list l =>
    simp only [reach, hop, itemAt]
    rcases (Text.position? segment).bind (h.item? l) with _ | item <;> rfl
  | null | bool _ | number _ | text _ => exact (reach_null h rest).symm

theorem walk_cons (h : Heap) (start : Reading) (segment : String) (rest : List String) :
    h.walk start (segment :: rest) =
      h.walk ⟨((h.hop start.value segment).getD ⟨.null, []⟩).value,
        start.crossed ++ ((h.hop start.value segment).getD ⟨.null, []⟩).crossed⟩ rest := rfl

theorem walk_value (h : Heap) (start : Reading) (segments : List String) :
    (h.walk start segments).value = h.reach start.value segments := by
  induction segments generalizing start with
  | nil => exact (reach_nil h _).symm
  | cons segment rest ih =>
    rw [walk_cons, ih, reach_cons]
    rcases h.hop start.value segment <;> rfl

theorem mem_crossedBy_iff {m : MapId} {e : Entry} {r : Registry} :
    r ∈ crossedBy m e ↔ (Hop.mk m e.key e.value e.watchers.isSome).Crosses r := by
  rcases e with ⟨key, v, _ | ws⟩
  · cases r <;> simp [crossedBy, Hop.Crosses]
  · cases v with
    | list l => cases r <;> simp [crossedBy, Hop.Crosses, eq_comm]
    | map _ | null | bool _ | number _ | text _ =>
      cases r <;> simp [crossedBy, Hop.Crosses, eq_comm]

/-- The walk crosses what its hops cross. -/
theorem mem_walk_crossed_iff (h : Heap) (start : Reading) (segments : List String) (r : Registry) :
    r ∈ (h.walk start segments).crossed ↔
      r ∈ start.crossed ∨ ∃ hop ∈ h.hops start.value segments, hop.Crosses r := by
  induction segments generalizing start with
  | nil => simp [walk, hops]
  | cons segment rest ih =>
    rw [walk_cons, ih]
    rcases start with ⟨v, crossed⟩
    cases v with
    | map m =>
      simp only [hop, read, hops]
      rcases he : h.lookup? m segment with _ | e
      · simp
      · obtain ⟨c, _, he⟩ := lookup?_eq_some_iff.mp he
        have hk := MapCell.key_of_lookup? he
        subst hk
        simp [mem_crossedBy_iff, or_assoc]
    | list l =>
      simp only [hop, hops, itemAt]
      rcases (Text.position? segment).bind (h.item? l) with _ | item <;> simp
    | null | bool _ | number _ | text _ => simp [hop, hops]

/-! ## Known values -/

theorem Closed.itemAt {h : Heap} (closed : h.Closed) (l : ListId) (segment : String) :
    h.Knows (h.itemAt l segment) := by
  unfold Heap.itemAt
  rcases hp : (Text.position? segment).bind (h.item? l) with _ | item
  · trivial
  · obtain ⟨i, _, hi⟩ := Option.bind_eq_some_iff.mp hp
    rw [item?_eq] at hi
    exact closed.items (List.mem_of_getElem? hi)

theorem Closed.reach {h : Heap} (closed : h.Closed) {v : Value} (known : h.Knows v)
    (segments : List String) : h.Knows (h.reach v segments) := by
  fun_induction Heap.reach h v segments with
  | case1 v => exact known
  | case2 m segment rest e he ih => exact ih (closed.lookup? he)
  | case3 => trivial
  | case4 l segment rest ih => exact ih (closed.itemAt l segment)
  | case5 => trivial

/-! ## Hops and entries -/

/-- A hop shows the entry that it reads. -/
theorem lookup?_of_mem_hops {h : Heap} {v : Value} {segments : List String} {hop : Hop}
    (mem : hop ∈ h.hops v segments) :
    ∃ e, h.lookup? hop.map hop.key = some e ∧ e.value = hop.value ∧
      e.watchers.isSome = hop.slot := by
  fun_induction Heap.hops h v segments with
  | case1 v => cases mem
  | case2 m segment rest e he ih =>
    rcases List.mem_cons.mp mem with rfl | mem
    · exact ⟨e, he, rfl, rfl⟩
    · exact ih mem
  | case3 => cases mem
  | case4 l segment rest ih => exact ih mem
  | case5 => cases mem

/-- Registrations change no hop. -/
theorem SameFaces.hops {h h' : Heap} (s : SameFaces h h') (v : Value) (segments : List String) :
    h'.hops v segments = h.hops v segments := by
  induction segments generalizing v with
  | nil => rfl
  | cons segment rest ih =>
    cases v with
    | map m =>
      have e := s.entries m segment
      simp only [Heap.hops]
      rcases he : h.lookup? m segment with _ | x
      · rcases he' : h'.lookup? m segment with _ | x'
        · rfl
        · simp [he, he'] at e
      · rcases he' : h'.lookup? m segment with _ | x'
        · simp [he, he'] at e
        · simp only [he, he', Option.map_some, Option.some.injEq, Entry.face, Prod.mk.injEq] at e
          simp only [e.2.1, e.2.2, ih]
    | list l =>
      have e : h'.item? l = h.item? l := funext (s.item? l)
      simp only [Heap.hops, itemAt, e, ih]
    | null | bool _ | number _ | text _ => rfl

end Heap

namespace World

/-! ## Key paths -/

/-- The hops that a key path takes. -/
def hops (w : World) (t : TableId) (path : KeyPath) : List Hop :=
  match w.target? t path.head with
  | some m => w.heap.hops (.map m) path.segments
  | none => []

theorem readPath_of_no_target {w : World} {t : TableId} {path : KeyPath}
    (none : w.target? t path.head = none) : w.readPath t path = w.heap.walk ⟨.null, []⟩ path.rest := by
  simp [readPath, readProperty, none]

theorem readPath_of_target {w : World} {t : TableId} {path : KeyPath} {m : MapId}
    (target : w.target? t path.head = some m) :
    w.readPath t path = w.heap.walk ⟨.map m, []⟩ path.segments := by
  simp only [readPath, readProperty, target, Option.bind_some, KeyPath.segments, Heap.walk_cons,
    Heap.hop, List.nil_append]

/-- What a key path reads. -/
theorem readPath_value (w : World) (t : TableId) (path : KeyPath) :
    (w.readPath t path).value =
      match w.target? t path.head with
      | some m => w.heap.reach (.map m) path.segments
      | none => .null := by
  rcases ht : w.target? t path.head with _ | m
  · rw [readPath_of_no_target ht, Heap.walk_value, Heap.reach_null]
  · rw [readPath_of_target ht, Heap.walk_value]

/-- A key path crosses what its hops cross. -/
theorem mem_readPath_crossed_iff (w : World) (t : TableId) (path : KeyPath) (r : Registry) :
    r ∈ (w.readPath t path).crossed ↔ ∃ hop ∈ w.hops t path, hop.Crosses r := by
  rcases ht : w.target? t path.head with _ | m
  · rw [readPath_of_no_target ht, Heap.mem_walk_crossed_iff]
    simp [hops, ht]
  · rw [readPath_of_target ht, Heap.mem_walk_crossed_iff]
    simp [hops, ht]

theorem target?_live {w : World} {t : TableId} {name : String} {m : MapId}
    (h : w.target? t name = some m) : ∃ c, w.heap.map? m = some c := by
  obtain ⟨_, live⟩ := Option.filter_eq_some_iff.mp h
  exact Option.isSome_iff_exists.mp live

theorem knows_readPath {w : World} (closed : w.heap.Closed) (t : TableId) (path : KeyPath) :
    w.heap.Knows (w.readPath t path).value := by
  rw [readPath_value]
  rcases ht : w.target? t path.head with _ | m
  · trivial
  · obtain ⟨c, hc⟩ := target?_live ht
    have known : w.heap.Knows (.map m) := Heap.index_lt_of_map? hc
    exact closed.reach known path.segments

theorem knows_readProperty {w : World} (closed : w.heap.Closed) (t : TableId) (name : String) :
    w.heap.Knows (w.readProperty t name).value := by
  unfold readProperty Heap.read
  rcases ht : w.target? t name with _ | m
  · trivial
  · rcases he : w.heap.lookup? m name with _ | e
    · simp [he, Heap.Knows]
    · simpa [he] using closed.lookup? he

theorem mem_hops_lookup? {w : World} {t : TableId} {path : KeyPath} {hop : Hop}
    (mem : hop ∈ w.hops t path) :
    ∃ e, w.heap.lookup? hop.map hop.key = some e ∧ e.value = hop.value ∧
      e.watchers.isSome = hop.slot := by
  unfold hops at mem
  split at mem
  · exact Heap.lookup?_of_mem_hops mem
  · cases mem

/-- A list that a key path crosses is observed if slots hold observed values. -/
theorem isObserved_of_crossed {w : World} (slots : w.heap.SlotsObserved) {t : TableId}
    {path : KeyPath} {l : ListId} (crossed : .list l ∈ (w.readPath t path).crossed) :
    w.heap.IsObserved (.list l) := by
  obtain ⟨hop, mem, slot, hl⟩ := (mem_readPath_crossed_iff w t path (.list l)).mp crossed
  obtain ⟨e, he, hv, hs⟩ := mem_hops_lookup? mem
  rw [← hl, ← hv]
  exact slots hop.map hop.key e he (hs.trans slot)

/-- What a key path crosses was made before. -/
theorem there_of_crossed {w : World} (closed : w.heap.Closed) {t : TableId} {path : KeyPath}
    {r : Registry} (crossed : r ∈ (w.readPath t path).crossed) :
    (∃ ws, w.heap.watchers? r = some ws) ∨ w.heap.Gone r := by
  obtain ⟨hop, mem, hc⟩ := (mem_readPath_crossed_iff w t path r).mp crossed
  obtain ⟨e, he, hv, hs⟩ := mem_hops_lookup? mem
  cases r with
  | slot m key =>
    obtain ⟨slot, rfl, rfl⟩ := hc
    obtain ⟨ws, hws⟩ := Option.isSome_iff_exists.mp (hs.trans slot)
    exact .inl ⟨ws, by simp [Heap.watchers?, he, hws]⟩
  | list l =>
    have known : l.index < w.heap.lists.size := by
      have := closed.lookup? he
      rwa [hv, hc.2] at this
    rcases hl : w.heap.list? l with _ | c
    · exact .inr ⟨known, hl⟩
    · exact .inl ⟨c.watchers, by simp [Heap.watchers?, hl]⟩
  | free _ => exact hc.elim

/-- The same tables and the same faces of the heap read the same. -/
theorem readPath_congr {w w' : World} (tables : w'.tables = w.tables)
    (faces : Heap.SameFaces w.heap w'.heap) (t : TableId) (path : KeyPath) :
    w'.readPath t path = w.readPath t path := by
  have target : w'.target? t path.head = w.target? t path.head := by
    simp only [target?, table, tables, faces.isLive]
  unfold readPath readProperty
  rw [target, faces.walk]
  have read : w'.heap.read = w.heap.read := funext fun m => funext (faces.read m)
  rw [read]

theorem hops_congr {w w' : World} (tables : w'.tables = w.tables)
    (faces : Heap.SameFaces w.heap w'.heap) (t : TableId) (path : KeyPath) :
    w'.hops t path = w.hops t path := by
  have target : w'.target? t path.head = w.target? t path.head := by
    simp only [target?, table, tables, faces.isLive]
  unfold hops
  rw [target]
  split
  · exact faces.hops _ _
  · rfl

end World

end DataBinding
