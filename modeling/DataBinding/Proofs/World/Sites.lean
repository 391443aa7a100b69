-- Sites: the keys of maps and the positions of lists, where containers hold their values. A walk visits
-- one site with each segment, for as long as it is in a container. What it reads depends on the values
-- of these sites alone, so a write to any other site leaves it as it was.
import DataBinding.Proofs.World.Walks
import DataBinding.Proofs.Heap.Liveness

namespace DataBinding

/-- A key of a map, or a position of a list. -/
inductive Site where
  | key (m : MapId) (key : String)
  | position (l : ListId) (position : Nat)
deriving DecidableEq, Repr

/-- The container that a site is in. -/
def Site.container : Site → Container
  | .key m _ => .map m
  | .position l _ => .list l

/-- A position in front of another one of the same list. -/
def Site.Before : Site → Site → Prop
  | .position l i, .position l' j => l = l' ∧ i < j
  | _, _ => False

/-- The site that a segment names in a value; a value that is no container has none, and a list has
none for a segment that is no position. -/
def Value.site? (v : Value) (segment : String) : Option Site :=
  match v with
  | .map m => some (.key m segment)
  | .list l => (Text.position? segment).map (.position l)
  | _ => none

theorem Value.container?_of_site? {v : Value} {segment : String} {site : Site}
    (named : v.site? segment = some site) : v.container? = some site.container := by
  cases v with
  | map m =>
    cases named
    rfl
  | list l =>
    obtain ⟨i, _, rfl⟩ := Option.map_eq_some_iff.mp named
    rfl
  | null | bool _ | number _ | text _ => cases named

namespace Heap

/-! ## What sites hold -/

/-- The value that a site holds, if there is one. -/
def held? (h : Heap) : Site → Option Value
  | .key m key => h.peek m key
  | .position l i => h.item? l i

/-- What a site reads; null if it holds nothing. -/
def valueAt (h : Heap) (site : Site) : Value := (h.held? site).getD .null

/-- One segment further from a value. -/
def into (h : Heap) (v : Value) (segment : String) : Value :=
  ((v.site? segment).map h.valueAt).getD .null

theorem into_of_site? {h : Heap} {v : Value} {segment : String} {site : Site}
    (named : v.site? segment = some site) : h.into v segment = h.valueAt site := by
  simp [into, named]

theorem into_congr {h h' : Heap} {v : Value} {segment : String}
    (same : ∀ site, v.site? segment = some site → h'.valueAt site = h.valueAt site) :
    h'.into v segment = h.into v segment := by
  rcases named : v.site? segment with _ | site
  · simp [into, named]
  · rw [into_of_site? named, into_of_site? named, same site named]

theorem hop_value (h : Heap) (v : Value) (segment : String) :
    ((h.hop v segment).map (·.value)).getD .null = h.into v segment := by
  cases v with
  | map m =>
    show ((h.read m segment).map (·.value)).getD .null = (h.peek m segment).getD .null
    unfold read peek
    rcases h.lookup? m segment <;> rfl
  | list l =>
    simp only [hop, into, Value.site?]
    rcases Text.position? segment with _ | i
    · rfl
    · simp only [Option.bind_some, Option.map_some, Option.getD_some, valueAt, held?]
      rcases h.item? l i <;> rfl
  | null | bool _ | number _ | text _ => rfl

theorem ObservedFrom.held? {h h' : Heap} (o : ObservedFrom h h') (site : Site) :
    h'.held? site = h.held? site := by
  cases site with
  | key m key => exact o.peek m key
  | position l i =>
    show h'.item? l i = h.item? l i
    rw [item?_eq, item?_eq, o.items]

/-- A change of one key shows at that key only. -/
theorem held?_changeMap {h : Heap} {site : Site} {m : MapId} {key : String} {f : MapCell → MapCell}
    (others : ∀ c other, other ≠ key → (f c).lookup? other = c.lookup? other)
    (apart : site ≠ .key m key) : (h.changeMap m f).held? site = h.held? site := by
  cases site with
  | position l i => simp only [held?, item?, list?_changeMap]
  | key map other =>
    simp only [held?, peek, lookup?_changeMap]
    split
    · rename_i same
      subst same
      have differ : other ≠ key := fun e => apart (e ▸ rfl)
      simp only [others _ _ differ]
      rfl
    · rfl

theorem held?_store {h : Heap} {site : Site} {m : MapId} {key : String} (v : Value)
    (apart : site ≠ .key m key) : (h.changeMap m (·.store key v)).held? site = h.held? site :=
  held?_changeMap (fun c other ne => by rw [MapCell.lookup?_store, if_neg ne]) apart

theorem held?_changeList {h : Heap} {site : Site} {l : ListId} {f : ListCell → ListCell}
    (apart : site.container ≠ .list l) : (h.changeList l f).held? site = h.held? site := by
  cases site with
  | key map key => simp only [held?, peek, lookup?, map?_changeList]
  | position other i =>
    have differ : other ≠ l := fun e => apart (by rw [e]; rfl)
    simp only [held?, item?, list?_changeList, if_neg differ]

theorem ObservedFrom.isLive {h h' : Heap} (o : ObservedFrom h h') (c : Container) :
    h'.isLive c = h.isLive c := by
  refine Bool.eq_iff_iff.mpr ?_
  cases c with
  | map m => simpa only [Heap.isLive, Option.isSome_iff_ne_none] using not_congr (o.map?_eq_none m)
  | list l => simpa only [Heap.isLive, Option.isSome_iff_ne_none] using not_congr (o.list?_eq_none l)

/-! ## What walks visit -/

/-- The sites that a walk along the segments visits. -/
def visits (h : Heap) : Value → List String → List Site
  | _, [] => []
  | v, segment :: rest => (v.site? segment).toList ++ h.visits (h.into v segment) rest

theorem reach_into (h : Heap) (v : Value) (segment : String) (rest : List String) :
    h.reach v (segment :: rest) = h.reach (h.into v segment) rest := by
  rw [reach_cons, hop_value]

theorem reach_append (h : Heap) (v : Value) (front back : List String) :
    h.reach v (front ++ back) = h.reach (h.reach v front) back := by
  induction front generalizing v with
  | nil => rw [List.nil_append, reach_nil]
  | cons segment rest ih => rw [List.cons_append, reach_into, reach_into, ih]

/-- The last step of a walk. -/
theorem reach_concat (h : Heap) (v : Value) (front : List String) (last : String) :
    h.reach v (front ++ [last]) = h.into (h.reach v front) last := by
  rw [reach_append, reach_into, reach_nil]

/-- A walk reads the same for as long as the sites that it visits do. -/
theorem reach_congr {h h' : Heap} {v : Value} {segments : List String}
    (same : ∀ site ∈ h.visits v segments, h'.valueAt site = h.valueAt site) :
    h'.reach v segments = h.reach v segments := by
  induction segments generalizing v with
  | nil => rw [reach_nil, reach_nil]
  | cons segment rest ih =>
    have next : h'.into v segment = h.into v segment :=
      into_congr fun site named => same site (by simp [visits, named])
    rw [reach_into, reach_into, next]
    exact ih fun site mem => same site (List.mem_append_right _ mem)

/-- A walk that fails at a segment leads nowhere, and any other one leads where its segments do. -/
theorem walk?_value (h : Heap) (start : Reading) (segments : List String) :
    ((h.walk? start segments).map (·.value)).getD .null = h.reach start.value segments := by
  induction segments generalizing start with
  | nil => exact (reach_nil h _).symm
  | cons segment rest ih =>
    rw [reach_cons, walk?_cons]
    rcases h.hop start.value segment with _ | next
    · exact (reach_null h rest).symm
    · exact ih ⟨next.value, start.crossed ++ next.crossed⟩

/-- Where live values lead is live. -/
theorem Whole.reach {h : Heap} (whole : h.Whole) {v : Value} (lives : h.Lives v)
    (segments : List String) : h.Lives (h.reach v segments) := by
  have walk : h.Lives (h.walk ⟨v, []⟩ segments).value := whole.walk lives segments
  rwa [walk_value] at walk

/-! ## Containers that stay as they are -/

/-- The containers that were made before hold what they held for as long as they are live, and those
that were freed do not come back. -/
structure Stays (h h' : Heap) : Prop where
  extend : h'.Extends h
  live : ∀ c, h.Reserves c → h'.isLive c = true → h.isLive c = true
  held : ∀ site, h.Reserves site.container → h'.isLive site.container = true →
    h'.held? site = h.held? site

theorem Extends.reserves {h h' : Heap} (ext : h'.Extends h) {c : Container} (there : h.Reserves c) :
    h'.Reserves c := by
  cases c with
  | map m => exact Nat.lt_of_lt_of_le there ext.maps
  | list l => exact Nat.lt_of_lt_of_le there ext.lists

theorem Stays.trans {h h₁ h' : Heap} (first : Stays h h₁) (second : Stays h₁ h') : Stays h h' := by
  refine ⟨second.extend.trans first.extend, fun c there live => ?_, fun site there live => ?_⟩
  · exact first.live c there (second.live c (first.extend.reserves there) live)
  · have there₁ := first.extend.reserves there
    rw [second.held site there₁ live, first.held site there (second.live _ there₁ live)]

theorem SameFaces.stays {h h' : Heap} (s : SameFaces h h') : Stays h h' := by
  refine ⟨s.extends, fun c _ live => s.isLive c ▸ live, fun site _ _ => ?_⟩
  cases site with
  | key m key =>
    show (h'.lookup? m key).map _ = (h.lookup? m key).map _
    have value : (fun e : Entry => e.value) = (fun face => face.2.1) ∘ Entry.face := rfl
    rw [value, ← Option.map_map, ← Option.map_map, s.entries]
  | position l i => exact s.item? l i

theorem ReleasedFrom.stays {h h' : Heap} (f : ReleasedFrom h h') : Stays h h' := by
  refine ⟨f.extends, fun c _ live => f.isLive live, fun site _ live => ?_⟩
  cases site with
  | key m key =>
    obtain ⟨c, hc⟩ := Option.isSome_iff_exists.mp live
    simp [held?, peek, Heap.lookup?, hc, f.map? hc]
  | position l i =>
    obtain ⟨c, hc⟩ := Option.isSome_iff_exists.mp live
    simp [held?, Heap.item?, hc, f.list? hc]

theorem stays_newMap (h : Heap) (entries : List (String × Value)) :
    Stays h (h.newMap entries).1 := by
  have other {m : MapId} (there : m.index < h.maps.size) :
      (h.newMap entries).1.map? m = h.map? m := by
    rw [map?_newMap, if_neg (Nat.ne_of_lt there)]
  refine ⟨extends_apply h (.newMap entries), fun c there live => ?_, fun site there _ => ?_⟩
  · cases c with
    | map m => simpa [isLive, other there] using live
    | list l => exact live
  · cases site with
    | key m key => simp [held?, peek, lookup?, other there]
    | position l i => rfl

theorem stays_newList (h : Heap) (items : List Value) : Stays h (h.newList items).1 := by
  have other {l : ListId} (there : l.index < h.lists.size) :
      (h.newList items).1.list? l = h.list? l := by
    rw [list?_newList, if_neg (Nat.ne_of_lt there)]
  refine ⟨extends_apply h (.newList items), fun c there live => ?_, fun site there _ => ?_⟩
  · cases c with
    | map m => exact live
    | list l => simpa [isLive, other there] using live
  · cases site with
    | key m key => rfl
    | position l i => simp [held?, item?, other there]

/-- Where containers stay as they are, a walk from a value that is live all along visits sites that hold
the same. -/
theorem Stays.valueAt {h h' : Heap} (stays : Stays h h') (whole : h.Whole) (whole' : h'.Whole)
    {v : Value} (lives : h.Lives v) (lives' : h'.Lives v) {segments : List String} :
    ∀ site ∈ h.visits v segments, h'.valueAt site = h.valueAt site := by
  induction segments generalizing v with
  | nil => exact fun _ none => nomatch none
  | cons segment rest ih =>
    have here : ∀ site, v.site? segment = some site → h'.valueAt site = h.valueAt site := by
      intro site named
      have is := Value.container?_of_site? named
      unfold Heap.valueAt
      rw [stays.held site (reserves_of_isLive (lives _ is)) (lives' _ is)]
    have next : h'.into v segment = h.into v segment := into_congr here
    have after := whole.reach lives [segment]
    have after' := whole'.reach lives' [segment]
    rw [reach_into, reach_nil] at after after'
    intro site visited
    rcases List.mem_append.mp visited with first | later
    · exact here site (Option.mem_toList.mp first)
    · exact ih after (next ▸ after') site later

end Heap

namespace World

/-- The container behind a property; null if there is none. -/
def root (w : World) (t : TableId) (name : String) : Value :=
  ((w.target? t name).map Value.map).getD .null

/-- The sites that a key path visits. -/
def sites (w : World) (t : TableId) (path : KeyPath) : List Site :=
  w.heap.visits (w.root t path.head) path.segments

theorem readPath_reach (w : World) (t : TableId) (path : KeyPath) :
    (w.readPath t path).value = w.heap.reach (w.root t path.head) path.segments := by
  rw [readPath_value, root]
  rcases w.target? t path.head with _ | m
  · exact (Heap.reach_null w.heap _).symm
  · rfl

theorem lives_root (w : World) (t : TableId) (name : String) : w.heap.Lives (w.root t name) := by
  intro c is
  unfold root at is
  rcases target : w.target? t name with _ | m
  · rw [target] at is
    cases is
  · rw [target] at is
    cases is
    exact (Option.filter_eq_some_iff.mp target).2

/-- The containers of the properties are the same ones where the tables and what is live are. -/
theorem root_congr {w w' : World} (tables : w'.tables = w.tables)
    (live : ∀ c, w'.heap.isLive c = w.heap.isLive c) (t : TableId) (name : String) :
    w'.root t name = w.root t name := by
  simp only [root, target?, table, tables, live]

/-- A path reads the same for as long as its property and the sites that it visits do. -/
theorem readPath_of_sites {w w' : World} {t : TableId} {path : KeyPath}
    (root : w'.root t path.head = w.root t path.head)
    (same : ∀ site ∈ w.sites t path, w'.heap.valueAt site = w.heap.valueAt site) :
    (w'.readPath t path).value = (w.readPath t path).value := by
  rw [readPath_reach, readPath_reach, root]
  exact Heap.reach_congr same

end World

end DataBinding
