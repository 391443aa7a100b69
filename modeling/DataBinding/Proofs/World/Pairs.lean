-- Two worlds side by side. They show the same: their heaps and tables are equal, and so are their pages and
-- watchers, but for the mounts that links name. Each view model of one world belongs to one of the other.
-- Over one table, the parted one, a world may keep what the other one has let go of; elsewhere the mounts
-- that belong together are equal and shared alike. What every operation of a world does to both is
-- followed here, so whatever is read from two such worlds is the same.
import DataBinding.Proofs.Beside
import DataBinding.Proofs.Heap.Liveness
import DataBinding.Proofs.Page.Alike
import DataBinding.Proofs.Session.Acts
import DataBinding.Proofs.World.Compiling

namespace DataBinding

namespace World

theorem lives_target {w : World} {t : TableId} {name : String} {m : MapId}
    (target : w.target? t name = some m) : w.heap.Lives (.map m) := by
  intro c is
  cases is
  exact (Option.filter_eq_some_iff.mp target).2

theorem lives_container {w : World} {t : TableId} {name : String} {m : MapId}
    (there : w.container? t name = some m) : w.heap.Lives (.map m) := by
  intro c is
  cases is
  exact (Option.filter_eq_some_iff.mp there).2

end World

/-! ## Pairs -/

/-- What only one of two sessions still has: handles of these names, all over one table, and what they
keep. -/
structure Parting where
  table : Option TableId
  viewModels : List String
  views : List String
  keeps : Container → Prop

/-- Nothing is let go. -/
def Parting.none : Parting := ⟨Option.none, [], [], fun _ => False⟩

/-- Two worlds and which of their mounts belong together. The mounts over the parted table stand for
themselves; `home` is the table that mounts of the first world are over. -/
structure Pair where
  left : World
  right : World
  tied : MountsId → MountsId → Prop
  ownLeft : MountsId → Prop
  ownRight : MountsId → Prop
  home : MountsId → TableId → Prop

namespace Pair

/-- The second pair has all that the first one has. -/
structure Le (T T' : Pair) : Prop where
  live : ∀ c, T.left.heap.isLive c = true → T'.left.heap.isLive c = true
  kept : ∀ a, (T.left.mounts? a).isSome = true → (T'.left.mounts? a).isSome = true
  tied : ∀ a b, T.tied a b → T'.tied a b
  ownLeft : ∀ a, T.ownLeft a → T'.ownLeft a
  ownRight : ∀ b, T.ownRight b → T'.ownRight b
  home : ∀ a t, T.home a t → T'.home a t

theorem Le.refl (T : Pair) : T.Le T :=
  ⟨fun _ h => h, fun _ h => h, fun _ _ h => h, fun _ h => h, fun _ h => h, fun _ _ h => h⟩

theorem Le.trans {T T' T'' : Pair} (a : T.Le T') (b : T'.Le T'') : T.Le T'' :=
  ⟨fun c h => b.live c (a.live c h), fun m h => b.kept m (a.kept m h),
    fun m n h => b.tied m n (a.tied m n h), fun m h => b.ownLeft m (a.ownLeft m h),
    fun m h => b.ownRight m (a.ownRight m h), fun m t h => b.home m t (a.home m t h)⟩

theorem Le.lives {T T' : Pair} (le : T.Le T') {v : Value} (lives : T.left.heap.Lives v) :
    T'.left.heap.Lives v := fun c is => le.live c (lives c is)

variable (P : Parting) (T : Pair)

/-- Two links over the same table that belong together. -/
structure Links (l l' : Link) : Prop where
  table : l.table = l'.table
  parted : P.table = some l.table → T.ownLeft l.mounts ∧ T.ownRight l'.mounts
  tied : P.table ≠ some l.table → T.tied l.mounts l'.mounts
  home : T.home l.mounts l.table

/-- Two view models that belong together; they keep their mounts. -/
structure ViewModels (vm vm' : ViewModel) : Prop where
  links : T.Links P vm.link vm'.link
  kept : (T.left.mounts? vm.mounts).isSome = true

structure Watches (w w' : Watcher) : Prop where
  links : T.Links P w.link w'.link
  path : w.path = w'.path
  reaction : w.reaction = w'.reaction

inductive Responds : Response → Response → Prop where
  | script (script : ScriptId) : Responds (.script script) (.script script)
  | writeBack {l l' : Link} (links : T.Links P l l') (path : KeyPath) :
    Responds (.writeBack l path) (.writeBack l' path)
  | method {l l' : Link} (links : T.Links P l l') (script : ScriptId) :
    Responds (.method l script) (.method l' script)

structure Listens (l l' : Listener Response) : Prop where
  node : l.node = l'.node
  event : l.event = l'.event
  responds : T.Responds P l.response l'.response

/-- How the mounts of two worlds belong together. -/
structure Mounts : Prop where
  within : ∀ a b, T.tied a b → a.index < T.left.mounts.size ∧ b.index < T.right.mounts.size
  withinLeft : ∀ a, T.ownLeft a → a.index < T.left.mounts.size
  withinRight : ∀ b, T.ownRight b → b.index < T.right.mounts.size
  one : ∀ a b a' b', T.tied a b → T.tied a' b' → (a = a' ↔ b = b')
  apart : ∀ a b, T.tied a b → ¬T.ownLeft a ∧ ¬T.ownRight b
  same : ∀ a b, T.tied a b → T.left.mounts? a = T.right.mounts? b
  live : ∀ a b, T.tied a b → ∀ entries, T.left.mounts? a = some entries →
    ∀ e ∈ entries, T.left.heap.Lives (.map e.2)
  keeps : ∀ a, T.ownLeft a → ∀ entries, T.left.mounts? a = some entries →
    ∀ e ∈ entries, P.keeps (.map e.2)
  bare : ∀ b, T.ownRight b → ∀ entries, T.right.mounts? b = some entries → entries = []
  homeWithin : ∀ a t, T.home a t → a.index < T.left.mounts.size
  homeOne : ∀ a t t', T.home a t → T.home a t' → t = t'

/-- Two worlds that show the same. -/
structure Fits : Prop where
  heap : T.right.heap = T.left.heap
  whole : T.left.heap.Whole
  tables : T.right.tables = T.left.tables
  parted : ∀ t, P.table = some t → t.index < T.left.tables.size
  collector : T.left.collector = none ∧ T.right.collector = none
  nodes : T.right.page.nodes = T.left.page.nodes
  listeners : List.Forall₂ (T.Listens P) T.left.page.listeners T.right.page.listeners
  watchers : List.Forall₂ (T.Watches P) T.left.watchers.toList T.right.watchers.toList
  mounts : T.Mounts P

/-- After a change of both worlds they still show the same. -/
def Becomes (l r : World) (Q : Pair → Prop) : Prop :=
  ∃ T', T.Le T' ∧ T'.left = l ∧ T'.right = r ∧ T'.Fits P ∧ Q T'

variable {P T} {T' : Pair}

theorem Links.mono {l l' : Link} (links : T.Links P l l') (le : T.Le T') : T'.Links P l l' :=
  ⟨links.table, fun h => ⟨le.ownLeft _ (links.parted h).1, le.ownRight _ (links.parted h).2⟩,
    fun h => le.tied _ _ (links.tied h), le.home _ _ links.home⟩

theorem ViewModels.mono {vm vm' : ViewModel} (same : T.ViewModels P vm vm') (le : T.Le T') :
    T'.ViewModels P vm vm' := ⟨same.links.mono le, le.kept _ same.kept⟩

theorem ViewModels.table {vm vm' : ViewModel} (same : T.ViewModels P vm vm') :
    vm.table = vm'.table := same.links.table

theorem Watches.mono {w w' : Watcher} (same : T.Watches P w w') (le : T.Le T') : T'.Watches P w w' :=
  ⟨same.links.mono le, same.path, same.reaction⟩

theorem Responds.mono {a b : Response} (same : T.Responds P a b) (le : T.Le T') :
    T'.Responds P a b := by
  cases same with
  | script script => exact .script script
  | writeBack links path => exact .writeBack (links.mono le) path
  | method links script => exact .method (links.mono le) script

theorem Listens.mono {a b : Listener Response} (same : T.Listens P a b) (le : T.Le T') :
    T'.Listens P a b := ⟨same.node, same.event, same.responds.mono le⟩

/-! ## What is read -/

namespace Fits

theorem right_eq (fits : T.Fits P) : T.right =
    { T.left with watchers := T.right.watchers, mounts := T.right.mounts, page := T.right.page } := by
  have same {w w' : World} (heap : w'.heap = w.heap) (tables : w'.tables = w.tables)
      (collector : w'.collector = w.collector) :
      w' = { w with watchers := w'.watchers, mounts := w'.mounts, page := w'.page } := by
    cases w
    cases heap
    cases tables
    cases collector
    rfl
  exact same fits.heap fits.tables (fits.collector.2.trans fits.collector.1.symm)

theorem container? (fits : T.Fits P) (t : TableId) (name : String) :
    T.right.container? t name = T.left.container? t name := by
  rw [fits.right_eq]
  rfl

theorem target? (fits : T.Fits P) (t : TableId) (name : String) :
    T.right.target? t name = T.left.target? t name := by
  rw [fits.right_eq]
  rfl

theorem readProperty (fits : T.Fits P) (t : TableId) (name : String) :
    T.right.readProperty t name = T.left.readProperty t name := by
  rw [fits.right_eq]
  rfl

theorem readPath (fits : T.Fits P) (t : TableId) (path : KeyPath) :
    T.right.readPath t path = T.left.readPath t path := by
  rw [fits.right_eq]
  rfl

theorem assignTarget? (fits : T.Fits P) (t : TableId) (path : KeyPath) :
    T.right.assignTarget? t path = T.left.assignTarget? t path := by
  rw [fits.right_eq]
  rfl

theorem method? (fits : T.Fits P) (t : TableId) (name : String) :
    T.right.method? t name = T.left.method? t name := by
  rw [fits.right_eq]
  rfl

theorem propertyNames (fits : T.Fits P) (t : TableId) :
    T.right.propertyNames t = T.left.propertyNames t := by
  rw [fits.right_eq]
  rfl

theorem isLive (fits : T.Fits P) {l l' : Link} (links : T.Links P l l') :
    T.right.isLive l' = T.left.isLive l := by
  rw [fits.right_eq]
  simp only [World.isLive, World.table, links.table]

/-- What a property reads is live. -/
theorem lives_readProperty (fits : T.Fits P) (t : TableId) (name : String) :
    T.left.heap.Lives (T.left.readProperty t name).value := by
  unfold World.readProperty
  rcases hr : (T.left.target? t name).bind (T.left.heap.read · name) with _ | r
  · exact Heap.lives_of_scalar _ rfl
  · obtain ⟨m, _, hr⟩ := Option.bind_eq_some_iff.mp hr
    obtain ⟨e, he, rfl⟩ := Option.map_eq_some_iff.mp hr
    exact fits.whole.lookup? he

theorem lives_readPath (fits : T.Fits P) (t : TableId) (path : KeyPath) :
    T.left.heap.Lives (T.left.readPath t path).value :=
  fits.whole.walk (fits.lives_readProperty t path.head) path.rest

theorem lives_assignTarget (fits : T.Fits P) {t : TableId} {path : KeyPath} {v : Value}
    (target : T.left.assignTarget? t path = some v) : T.left.heap.Lives v := by
  unfold World.assignTarget? at target
  split at target
  · obtain ⟨m, hm, rfl⟩ := Option.map_eq_some_iff.mp target
    exact World.lives_target hm
  · obtain ⟨r, hr, rfl⟩ := Option.map_eq_some_iff.mp target
    exact fits.whole.walk? (fits.lives_readProperty t path.head) hr

theorem watcher? (fits : T.Fits P) (id : WatcherId) :
    Option.Rel (T.Watches P) (T.left.watcher? id) (T.right.watcher? id) := by
  simpa [World.watcher?] using rel_getElem? fits.watchers (id.index - 1)

/-- A tracked read changes nothing, and reads the same. -/
theorem depend (fits : T.Fits P) (crossed : List Registry) :
    T.left.depend crossed = T.left ∧ T.right.depend crossed = T.right :=
  ⟨World.depend_of_none fits.collector.1 crossed, World.depend_of_none fits.collector.2 crossed⟩

/-- Two worlds that have not changed. -/
theorem rests {Q : Pair → Prop} (fits : T.Fits P) (value : Q T) : T.Becomes P T.left T.right Q :=
  ⟨T, .refl T, rfl, rfl, fits, value⟩

end Fits

theorem Becomes.imp {l r : World} {Q R : Pair → Prop} (becomes : T.Becomes P l r Q)
    (imp : ∀ T', T.Le T' → T'.Fits P → T'.left = l → T'.right = r → Q T' → R T') :
    T.Becomes P l r R := by
  obtain ⟨T', le, hl, hr, fits, value⟩ := becomes
  exact ⟨T', le, hl, hr, fits, imp T' le fits hl hr value⟩

/-- One change after another. -/
theorem Becomes.bind {l r l' r' : World} {Q R : Pair → Prop} (first : T.Becomes P l r Q)
    (second : ∀ T', T.Le T' → T'.Fits P → T'.left = l → T'.right = r → Q T' →
      T'.Becomes P l' r' R) : T.Becomes P l' r' R := by
  obtain ⟨T', le, hl, hr, fits, value⟩ := first
  obtain ⟨T'', le', hl', hr', fits', value'⟩ := second T' le fits hl hr value
  exact ⟨T'', le.trans le', hl', hr', fits', value'⟩

/-! ## Changes of the heap -/

/-- Both worlds with another heap. -/
def onHeap (T : Pair) (h : Heap) : Pair :=
  { T with left := { T.left with heap := h }, right := { T.right with heap := h } }

theorem le_onHeap {h : Heap} (live : ∀ c, T.left.heap.isLive c = true → h.isLive c = true) :
    T.Le (T.onHeap h) := ⟨live, fun _ h => h, fun _ _ h => h, fun _ h => h, fun _ h => h, fun _ _ h => h⟩

theorem Fits.onHeap (fits : T.Fits P) {h : Heap} (preserves : Heap.Preserves T.left.heap h) :
    (T.onHeap h).Fits P := by
  have le := T.le_onHeap preserves.live
  have mounts := fits.mounts
  refine ⟨rfl, preserves.whole fits.whole, fits.tables, fits.parted, fits.collector, fits.nodes,
    fits.listeners.imp fun _ _ same => same.mono le, fits.watchers.imp fun _ _ same => same.mono le,
    mounts.within, mounts.withinLeft, mounts.withinRight, mounts.one, mounts.apart, mounts.same,
    fun a b tied entries he e hm => preserves.lives (mounts.live a b tied entries he e hm),
    mounts.keeps, mounts.bare, mounts.homeWithin, mounts.homeOne⟩

/-- The same operation on both heaps. -/
theorem Fits.becomes_heap {Q : Pair → Prop} (fits : T.Fits P) {f : Heap → Heap}
    (preserves : Heap.Preserves T.left.heap (f T.left.heap))
    (value : Q (T.onHeap (f T.left.heap))) :
    T.Becomes P { T.left with heap := f T.left.heap } { T.right with heap := f T.right.heap } Q := by
  rw [fits.heap]
  exact ⟨_, T.le_onHeap preserves.live, rfl, rfl, fits.onHeap preserves, value⟩

/-! ## Writes -/

namespace Fits

theorem setProperty (fits : T.Fits P) (t : TableId) (name : String) {v : Value}
    (lives : T.left.heap.Lives v) :
    (T.right.setProperty t name v).2 = (T.left.setProperty t name v).2 ∧
      T.Becomes P (T.left.setProperty t name v).1 (T.right.setProperty t name v).1
        fun _ => True := by
  unfold World.setProperty
  rw [fits.target?]
  rcases T.left.target? t name with _ | m
  · exact ⟨rfl, fits.rests trivial⟩
  · refine ⟨by simp only [World.written, fits.heap], ?_⟩
    exact fits.becomes_heap (f := fun h => (h.set m name v).1) (T.left.heap.preserves_set m name lives)
      trivial

theorem assignIn (fits : T.Fits P) (parent : Value) (path : KeyPath) {v : Value}
    (lives : T.left.heap.Lives v) :
    (T.right.assignIn parent path v).2 = (T.left.assignIn parent path v).2 ∧
      T.Becomes P (T.left.assignIn parent path v).1 (T.right.assignIn parent path v).1
        fun _ => True := by
  unfold World.assignIn
  split
  · rename_i m
    refine ⟨by simp only [World.written, fits.heap], ?_⟩
    exact fits.becomes_heap (f := fun h => (h.set m path.last v).1)
      (T.left.heap.preserves_set m path.last lives) trivial
  · rename_i l
    rcases Text.position? path.last with _ | position
    · exact ⟨rfl, fits.rests trivial⟩
    · exact ⟨rfl, fits.becomes_heap (f := (·.setItem l position v)) (T.left.heap.preserves_apply
        (.place l position v) (List.forall_mem_singleton.mpr lives)) trivial⟩
  · exact ⟨rfl, fits.rests trivial⟩

/-- A write to a path has the same effect on both sides. -/
theorem assign (fits : T.Fits P) (t : TableId) (path : KeyPath) {v : Value}
    (lives : T.left.heap.Lives v) :
    (T.right.assign t path v).2 = (T.left.assign t path v).2 ∧
      T.Becomes P (T.left.assign t path v).1 (T.right.assign t path v).1 fun _ => True := by
  unfold World.assign
  split
  · exact fits.setProperty t path.head lives
  · simp only [fits.readProperty, fits.heap, fits.depend]
    split
    · exact ⟨rfl, fits.rests trivial⟩
    · exact fits.assignIn _ path lives

end Fits

/-! ## Changes of the tables -/

theorem Fits.becomes_tables {Q : Pair → Prop} (fits : T.Fits P) {f : Array Table → Array Table}
    (size : T.left.tables.size ≤ (f T.left.tables).size)
    (value : ∀ T' : Pair, T.Le T' → Q T') :
    T.Becomes P { T.left with tables := f T.left.tables }
      { T.right with tables := f T.right.tables } Q := by
  rw [fits.tables]
  let T' : Pair := { T with
    left := { T.left with tables := f T.left.tables }
    right := { T.right with tables := f T.left.tables } }
  have le : T.Le T' := ⟨fun _ h => h, fun _ h => h, fun _ _ h => h, fun _ h => h, fun _ h => h, fun _ _ h => h⟩
  have mounts := fits.mounts
  refine ⟨T', le, rfl, rfl, ?_, value T' le⟩
  exact ⟨fits.heap, fits.whole, rfl, fun t ht => Nat.lt_of_lt_of_le (fits.parted t ht) size,
    fits.collector, fits.nodes, fits.listeners.imp fun _ _ same => same.mono le,
    fits.watchers.imp fun _ _ same => same.mono le, mounts.within, mounts.withinLeft,
    mounts.withinRight, mounts.one, mounts.apart, mounts.same, mounts.live, mounts.keeps, mounts.bare,
    mounts.homeWithin, mounts.homeOne⟩

theorem Fits.changeTable (fits : T.Fits P) (t : TableId) (f : Table → Table) {Q : Pair → Prop}
    (value : ∀ T' : Pair, T.Le T' → Q T') :
    T.Becomes P (T.left.changeTable t f) (T.right.changeTable t f) Q :=
  fits.becomes_tables (f := (·.modify t.index f)) (by simp) value

theorem Fits.putMethod (fits : T.Fits P) (t : TableId) (name : String) (script : ScriptId)
    {Q : Pair → Prop} (value : ∀ T' : Pair, T.Le T' → Q T') :
    T.Becomes P (T.left.putMethod t name script) (T.right.putMethod t name script) Q :=
  fits.changeTable t _ value

theorem Fits.flatten (fits : T.Fits P) (t : TableId) (name : String) {Q : Pair → Prop}
    (value : ∀ T' : Pair, T.Le T' → Q T') :
    (T.right.flatten t name).2 = (T.left.flatten t name).2 ∧
      T.Becomes P (T.left.flatten t name).1 (T.right.flatten t name).1 Q := by
  unfold World.flatten
  rw [fits.container?, fits.heap]
  rcases T.left.container? t name with _ | m
  · exact ⟨rfl, fits.rests (value T (.refl T))⟩
  · exact ⟨rfl, fits.changeTable t _ value⟩

/-! ## Changes of the mounts -/

theorem mounts?_push (w : World) (entries : Option (List (String × MapId))) (a : MountsId) :
    World.mounts? { w with mounts := w.mounts.push entries } a =
      if a.index = w.mounts.size then entries else w.mounts? a := by
  simp only [World.mounts?, Array.getElem?_push]
  split <;> simp

theorem mounts?_push_of_lt {w : World} {a : MountsId} (lt : a.index < w.mounts.size)
    (entries : Option (List (String × MapId))) :
    World.mounts? { w with mounts := w.mounts.push entries } a = w.mounts? a := by
  rw [mounts?_push, if_neg (Nat.ne_of_lt lt)]

theorem index_lt_of_mounts? {w : World} {a : MountsId} (kept : (w.mounts? a).isSome = true) :
    a.index < w.mounts.size := by
  by_contra past
  simp [World.mounts?, Array.getElem?_eq_none (Nat.le_of_not_lt past)] at kept

/-- Fresh mounts are over a table, and over no other one. -/
theorem Mounts.homeFresh (mounts : T.Mounts P) (t : TableId) :
    let home := fun a u => T.home a u ∨ a = ⟨T.left.mounts.size⟩ ∧ u = t
    (∀ a u, home a u → a.index < T.left.mounts.size + 1) ∧
      ∀ a u u', home a u → home a u' → u = u' := by
  refine ⟨?_, ?_⟩
  · rintro a u (home | ⟨rfl, rfl⟩)
    · exact Nat.lt_succ_of_lt (mounts.homeWithin a u home)
    · exact Nat.lt_succ_self _
  · rintro a u u' (home | ⟨rfl, rfl⟩) (home' | ⟨e, rfl⟩)
    · exact mounts.homeOne a u u' home home'
    · exact absurd (mounts.homeWithin a u home) (by simp [e])
    · exact absurd (mounts.homeWithin _ u' home') (Nat.lt_irrefl _)
    · rfl

/-- Fresh mounts on both sides, which belong together. -/
def fresh (T : Pair) (t : TableId) : Pair := { T with
  left := { T.left with mounts := T.left.mounts.push (some []) }
  right := { T.right with mounts := T.right.mounts.push (some []) }
  tied := fun a b => T.tied a b ∨ a = ⟨T.left.mounts.size⟩ ∧ b = ⟨T.right.mounts.size⟩
  home := fun a u => T.home a u ∨ a = ⟨T.left.mounts.size⟩ ∧ u = t }

theorem le_fresh (T : Pair) (t : TableId) : T.Le (T.fresh t) := by
  refine ⟨fun _ h => h, fun a kept => ?_, fun _ _ h => .inl h, fun _ h => h, fun _ h => h,
    fun _ _ h => .inl h⟩
  rw [fresh, mounts?_push_of_lt (index_lt_of_mounts? kept)]
  exact kept

theorem Mounts.fresh (mounts : T.Mounts P) (t : TableId) : (T.fresh t).Mounts P := by
  have left {a : MountsId} (lt : a.index < T.left.mounts.size) :
      (T.fresh t).left.mounts? a = T.left.mounts? a := mounts?_push_of_lt lt _
  have right {b : MountsId} (lt : b.index < T.right.mounts.size) :
      (T.fresh t).right.mounts? b = T.right.mounts? b := mounts?_push_of_lt lt _
  have newLeft : (T.fresh t).left.mounts? ⟨T.left.mounts.size⟩ = some [] := by
    rw [Pair.fresh, mounts?_push, if_pos rfl]
  have newRight : (T.fresh t).right.mounts? ⟨T.right.mounts.size⟩ = some [] := by
    rw [Pair.fresh, mounts?_push, if_pos rfl]
  have sizes : (T.fresh t).left.mounts.size = T.left.mounts.size + 1 ∧
      (T.fresh t).right.mounts.size = T.right.mounts.size + 1 := by simp [Pair.fresh]
  refine ⟨?_, fun a ha => ?_, fun b hb => ?_, ?_, ?_, ?_, ?_, ?_, ?_, sizes.1 ▸ (mounts.homeFresh t).1,
    (mounts.homeFresh t).2⟩
  · rintro a b (tied | ⟨rfl, rfl⟩)
    · obtain ⟨ha, hb⟩ := mounts.within a b tied
      exact ⟨by omega, by omega⟩
    · exact ⟨by simp [sizes], by simp [sizes]⟩
  · have := mounts.withinLeft a ha
    omega
  · have := mounts.withinRight b hb
    omega
  · rintro a b a' b' (tied | ⟨rfl, rfl⟩) (tied' | ⟨rfl, rfl⟩)
    · exact mounts.one a b a' b' tied tied'
    · obtain ⟨ha, hb⟩ := mounts.within a b tied
      exact ⟨fun e => absurd ha (by simp [e]), fun e => absurd hb (by simp [e])⟩
    · obtain ⟨ha, hb⟩ := mounts.within a' b' tied'
      exact ⟨fun e => absurd ha (by simp [← e]), fun e => absurd hb (by simp [← e])⟩
    · simp
  · rintro a b (tied | ⟨rfl, rfl⟩)
    · exact mounts.apart a b tied
    · exact ⟨fun own => Nat.lt_irrefl _ (mounts.withinLeft _ own),
        fun own => Nat.lt_irrefl _ (mounts.withinRight _ own)⟩
  · rintro a b (tied | ⟨rfl, rfl⟩)
    · obtain ⟨ha, hb⟩ := mounts.within a b tied
      rw [left ha, right hb, mounts.same a b tied]
    · rw [newLeft, newRight]
  · rintro a b (tied | ⟨rfl, rfl⟩) entries he
    · rw [left (mounts.within a b tied).1] at he
      exact mounts.live a b tied entries he
    · rw [newLeft] at he
      cases he
      simp
  · intro a own entries he
    rw [left (mounts.withinLeft a own)] at he
    exact mounts.keeps a own entries he
  · intro b own entries he
    rw [right (mounts.withinRight b own)] at he
    exact mounts.bare b own entries he

/-- Fresh mounts over the parted table, on one side. -/
def freshLeft (T : Pair) (t : TableId) : Pair := { T with
  left := { T.left with mounts := T.left.mounts.push (some []) }
  ownLeft := fun a => T.ownLeft a ∨ a = ⟨T.left.mounts.size⟩
  home := fun a u => T.home a u ∨ a = ⟨T.left.mounts.size⟩ ∧ u = t }

def freshRight (T : Pair) : Pair := { T with
  right := { T.right with mounts := T.right.mounts.push (some []) }
  ownRight := fun b => T.ownRight b ∨ b = ⟨T.right.mounts.size⟩ }

theorem le_freshLeft (T : Pair) (t : TableId) : T.Le (T.freshLeft t) := by
  refine ⟨fun _ h => h, fun a kept => ?_, fun _ _ h => h, fun _ h => .inl h, fun _ h => h,
    fun _ _ h => .inl h⟩
  rw [freshLeft, mounts?_push_of_lt (index_lt_of_mounts? kept)]
  exact kept

theorem le_freshRight (T : Pair) : T.Le T.freshRight :=
  ⟨fun _ h => h, fun _ h => h, fun _ _ h => h, fun _ h => h, fun _ h => .inl h, fun _ _ h => h⟩

theorem Mounts.freshLeft (mounts : T.Mounts P) (t : TableId) : (T.freshLeft t).Mounts P := by
  have left {a : MountsId} (lt : a.index < T.left.mounts.size) :
      (T.freshLeft t).left.mounts? a = T.left.mounts? a := mounts?_push_of_lt lt _
  have size : (T.freshLeft t).left.mounts.size = T.left.mounts.size + 1 := by simp [Pair.freshLeft]
  refine ⟨fun a b tied => ?_, ?_, mounts.withinRight, mounts.one, ?_, fun a b tied => ?_, ?_, ?_,
    mounts.bare, size ▸ (mounts.homeFresh t).1, (mounts.homeFresh t).2⟩
  · obtain ⟨ha, hb⟩ := mounts.within a b tied
    exact ⟨by omega, hb⟩
  · rintro a (own | rfl)
    · have := mounts.withinLeft a own
      omega
    · simp [size]
  · intro a b tied
    obtain ⟨notLeft, notRight⟩ := mounts.apart a b tied
    refine ⟨?_, notRight⟩
    rintro (own | rfl)
    · exact notLeft own
    · exact Nat.lt_irrefl _ (mounts.within _ b tied).1
  · rw [left (mounts.within a b tied).1]
    exact mounts.same a b tied
  · intro a b tied entries he
    rw [left (mounts.within a b tied).1] at he
    exact mounts.live a b tied entries he
  · rintro a (own | rfl) entries he
    · rw [left (mounts.withinLeft a own)] at he
      exact mounts.keeps a own entries he
    · rw [Pair.freshLeft, mounts?_push, if_pos rfl] at he
      cases he
      simp

theorem Mounts.freshRight (mounts : T.Mounts P) : T.freshRight.Mounts P := by
  have right {b : MountsId} (lt : b.index < T.right.mounts.size) :
      T.freshRight.right.mounts? b = T.right.mounts? b := mounts?_push_of_lt lt _
  have size : T.freshRight.right.mounts.size = T.right.mounts.size + 1 := by simp [Pair.freshRight]
  refine ⟨fun a b tied => ?_, mounts.withinLeft, ?_, mounts.one, ?_, fun a b tied => ?_, mounts.live,
    mounts.keeps, ?_, mounts.homeWithin, mounts.homeOne⟩
  · obtain ⟨ha, hb⟩ := mounts.within a b tied
    exact ⟨ha, by omega⟩
  · rintro b (own | rfl)
    · have := mounts.withinRight b own
      omega
    · simp [size]
  · intro a b tied
    obtain ⟨notLeft, notRight⟩ := mounts.apart a b tied
    refine ⟨notLeft, ?_⟩
    rintro (own | rfl)
    · exact notRight own
    · exact Nat.lt_irrefl _ (mounts.within a _ tied).2
  · rw [right (mounts.within a b tied).2]
    exact mounts.same a b tied
  · rintro b (own | rfl) entries he
    · rw [right (mounts.withinRight b own)] at he
      exact mounts.bare b own entries he
    · rw [Pair.freshRight, mounts?_push, if_pos rfl] at he
      cases he
      rfl

/-- Whatever changes in the mounts alone leaves the rest as it was. -/
theorem Fits.onMounts (fits : T.Fits P) (le : T.Le T') (mounts : T'.Mounts P)
    (left : T'.left = { T.left with mounts := T'.left.mounts })
    (right : T'.right = { T.right with mounts := T'.right.mounts }) : T'.Fits P := by
  obtain ⟨l, r, tied, ownLeft, ownRight⟩ := T'
  simp only at left right
  generalize l.mounts = ml at left
  generalize r.mounts = mr at right
  subst left right
  exact ⟨fits.heap, fits.whole, fits.tables, fits.parted, fits.collector, fits.nodes,
    fits.listeners.imp fun _ _ same => same.mono le,
    fits.watchers.imp fun _ _ same => same.mono le, mounts⟩

/-- View models over links that belong together belong together. -/
theorem Fits.follow (fits : T.Fits P) {l l' : Link} (links : T.Links P l l') :
    T.Becomes P (T.left.follow l).1 (T.right.follow l').1 fun T' =>
      T'.ViewModels P (T.left.follow l).2 (T.right.follow l').2 := by
  by_cases parted : P.table = some l.table
  · obtain ⟨ownLeft, ownRight⟩ := links.parted parted
    have links' {T' : Pair} {a b : MountsId} (ha : T'.ownLeft a) (hb : T'.ownRight b)
        (home : T'.home a l.table) : T'.Links P ⟨l.table, a⟩ ⟨l'.table, b⟩ :=
      ⟨links.table, fun _ => ⟨ha, hb⟩, fun h => absurd parted h, home⟩
    have mounts := fits.mounts.freshLeft l.table
    unfold World.follow
    rcases hl : (T.left.mounts? l.mounts).isSome with _ | _ <;>
      rcases hr : (T.right.mounts? l'.mounts).isSome with _ | _
    · have le := (T.le_freshLeft l.table).trans (T.freshLeft l.table).le_freshRight
      refine ⟨(T.freshLeft l.table).freshRight, le, rfl, rfl, fits.onMounts le mounts.freshRight rfl rfl,
        links' (.inr rfl) (.inr rfl) (.inr ⟨rfl, rfl⟩), ?_⟩
      simp [Pair.freshLeft, Pair.freshRight, mounts?_push]
    · have le := T.le_freshLeft l.table
      refine ⟨T.freshLeft l.table, le, rfl, rfl, fits.onMounts le mounts rfl rfl,
        links' (.inr rfl) ownRight (.inr ⟨rfl, rfl⟩), ?_⟩
      simp [Pair.freshLeft, mounts?_push]
    · have le := T.le_freshRight
      exact ⟨T.freshRight, le, rfl, rfl, fits.onMounts le fits.mounts.freshRight rfl rfl,
        links' ownLeft (.inr rfl) links.home, hl⟩
    · exact fits.rests ⟨links' ownLeft ownRight links.home, hl⟩
  · have tied := links.tied parted
    have same := fits.mounts.same _ _ tied
    unfold World.follow
    rw [← same]
    rcases hk : (T.left.mounts? l.mounts).isSome with _ | _
    · have le := T.le_fresh l.table
      refine ⟨T.fresh l.table, le, rfl, rfl, fits.onMounts le (fits.mounts.fresh _) rfl rfl,
        ⟨links.table, fun h => absurd h parted, fun _ => .inr ⟨rfl, rfl⟩, .inr ⟨rfl, rfl⟩⟩, ?_⟩
      simp [Pair.fresh, mounts?_push]
    · exact fits.rests ⟨links, hk⟩

/-- A new view model on both sides. -/
theorem Fits.newViewModel (fits : T.Fits P) :
    T.Becomes P T.left.newViewModel.1 T.right.newViewModel.1 fun T' =>
      T'.ViewModels P T.left.newViewModel.2 T.right.newViewModel.2 ∧
        P.table ≠ some T.left.newViewModel.2.table := by
  have other : P.table ≠ some ⟨T.left.tables.size⟩ := fun h => Nat.lt_irrefl _ (fits.parted _ h)
  refine (fits.becomes_tables (f := (·.push .empty)) (Q := fun _ => True) (by simp)
    fun _ _ => trivial).bind fun T' le fits' hl hr _ => ?_
  let made := T'.fresh ⟨T.left.tables.size⟩
  have left : made.left = T.left.newViewModel.1 := by
    simp only [made, fresh, hl]
    rfl
  have right : made.right = T.right.newViewModel.1 := by
    simp only [made, fresh, hr]
    rfl
  have le := T'.le_fresh ⟨T.left.tables.size⟩
  refine ⟨made, le, left, right, fits'.onMounts le (fits'.mounts.fresh _) rfl rfl,
    ⟨⟨?_, fun h => absurd h other, fun _ => .inr ⟨?_, ?_⟩, .inr ⟨?_, rfl⟩⟩, ?_⟩, other⟩
  · simp [World.newViewModel, ViewModel.link, fits.tables]
  · rw [hl]
    rfl
  · rw [hr]
    rfl
  · rw [hl]
    rfl
  · rw [left]
    simp [World.newViewModel, World.mounts?]

/-- The same entry in the mounts on both sides. -/
def onMounts (T : Pair) (a b : MountsId) (f : List (String × MapId) → List (String × MapId)) : Pair :=
  { T with
    left := { T.left with mounts := T.left.mounts.modify a.index (·.map f) }
    right := { T.right with mounts := T.right.mounts.modify b.index (·.map f) } }

theorem mounts?_modify (w : World) (a other : MountsId)
    (f : List (String × MapId) → List (String × MapId)) :
    World.mounts? { w with mounts := w.mounts.modify a.index (·.map f) } other =
      if other = a then (w.mounts? other).map f else w.mounts? other := by
  have index : a.index = other.index ↔ other = a := by
    cases a
    cases other
    simp [eq_comm]
  simp only [World.mounts?, Array.getElem?_modify, index]
  split
  · rcases w.mounts[other.index]? with _ | _ | entries <;> rfl
  · rfl

theorem le_onMounts (T : Pair) (a b : MountsId) (f : List (String × MapId) → List (String × MapId)) :
    T.Le (T.onMounts a b f) := by
  refine ⟨fun _ h => h, fun other kept => ?_, fun _ _ h => h, fun _ h => h, fun _ h => h, fun _ _ h => h⟩
  rw [onMounts, mounts?_modify]
  split
  · rwa [Option.isSome_map]
  · exact kept

/-- A map is mounted on both sides, not over the parted table. -/
theorem Mounts.mount (mounts : T.Mounts P) {a b : MountsId} (tied : T.tied a b) (name : String)
    {m : MapId} (lives : T.left.heap.Lives (.map m)) :
    (T.onMounts a b (putEntry name m)).Mounts P := by
  obtain ⟨notLeft, notRight⟩ := mounts.apart a b tied
  have left (other : MountsId) : (T.onMounts a b (putEntry name m)).left.mounts? other =
      if other = a then (T.left.mounts? other).map (putEntry name m) else T.left.mounts? other :=
    mounts?_modify T.left a other _
  have right (other : MountsId) : (T.onMounts a b (putEntry name m)).right.mounts? other =
      if other = b then (T.right.mounts? other).map (putEntry name m) else T.right.mounts? other :=
    mounts?_modify T.right b other _
  refine ⟨fun c d h => ?_, fun c h => ?_, fun d h => ?_, mounts.one, mounts.apart, fun c d h => ?_,
    fun c d h entries he e hm => ?_, fun c own entries he => ?_, fun d own entries he => ?_,
    fun c t h => ?_, mounts.homeOne⟩
  · simpa [onMounts] using mounts.within c d h
  · simpa [onMounts] using mounts.withinLeft c h
  · simpa [onMounts] using mounts.withinRight d h
  · rw [left, right]
    by_cases e : c = a
    · rw [if_pos e, if_pos ((mounts.one c d a b h tied).mp e), mounts.same c d h]
    · rw [if_neg e, if_neg fun e' => e ((mounts.one c d a b h tied).mpr e'), mounts.same c d h]
  · rw [left] at he
    split at he
    · obtain ⟨old, hold, rfl⟩ := Option.map_eq_some_iff.mp he
      rcases mem_putEntry hm with rfl | hm
      · exact lives
      · exact mounts.live c d h old hold e hm
    · exact mounts.live c d h entries he e hm
  · have ne : c ≠ a := by
      rintro rfl
      exact notLeft own
    rw [left, if_neg ne] at he
    exact mounts.keeps c own entries he
  · have ne : d ≠ b := by
      rintro rfl
      exact notRight own
    rw [right, if_neg ne] at he
    exact mounts.bare d own entries he
  · simpa [onMounts] using mounts.homeWithin c t h

theorem Fits.mount (fits : T.Fits P) {vm vm' : ViewModel} (same : T.ViewModels P vm vm')
    (other : P.table ≠ some vm.table) (name : String) {m : MapId}
    (lives : T.left.heap.Lives (.map m)) :
    T.Becomes P (T.left.mount vm name m) (T.right.mount vm' name m) fun _ => True := by
  have tied : T.tied vm.mounts vm'.mounts := same.links.tied other
  have le := T.le_onMounts vm.mounts vm'.mounts (putEntry name m)
  have fits' : (T.onMounts vm.mounts vm'.mounts (putEntry name m)).Fits P :=
    fits.onMounts le (fits.mounts.mount tied name lives) rfl rfl
  have changed := fits'.changeTable vm.table
    (fun t => { t with containers := putEntry name m t.containers }) (Q := fun _ => True)
    fun _ _ => trivial
  obtain ⟨T', le', hl, hr, fits'', _⟩ := changed
  refine ⟨T', le.trans le', hl, ?_, fits'', trivial⟩
  rw [hr, same.table]
  rfl

/-- A new view model over a map on both sides. -/
theorem Fits.viewModelOf (fits : T.Fits P) {m : MapId} (lives : T.left.heap.Lives (.map m)) :
    T.Becomes P (T.left.viewModelOf m).1 (T.right.viewModelOf m).1 fun T' =>
      T'.ViewModels P (T.left.viewModelOf m).2 (T.right.viewModelOf m).2 := by
  refine fits.newViewModel.bind fun T₁ le₁ fits₁ hl hr made => ?_
  obtain ⟨same, other⟩ := made
  have mounted := fits₁.mount same other modelName (le₁.lives lives)
  rw [hl, hr] at mounted
  refine mounted.bind fun T₂ le₂ fits₂ hl₂ hr₂ _ => ?_
  have flat := (fits₂.flatten T.left.newViewModel.2.table modelName (Q := fun T' =>
    T'.ViewModels P T.left.newViewModel.2 T.right.newViewModel.2)
    fun T' le => (same.mono le₂).mono le).2
  rw [hl₂, hr₂] at flat
  have table : T.right.newViewModel.2.table = T.left.newViewModel.2.table := same.table.symm
  simp only [World.viewModelOf, table]
  exact flat

/-! ## Watchers and listeners -/

theorem Fits.watch (fits : T.Fits P) {l l' : Link} (links : T.Links P l l') (path : KeyPath)
    (reaction : Reaction) :
    (T.right.watch l' path reaction).2 = (T.left.watch l path reaction).2 ∧
      T.Becomes P (T.left.watch l path reaction).1 (T.right.watch l' path reaction).1 fun _ => True := by
  have size : T.right.watchers.size = T.left.watchers.size := by
    simpa using fits.watchers.length_eq.symm
  refine ⟨congrArg (fun n => (⟨n + 1⟩ : WatcherId)) size, ?_⟩
  rw [World.watch_eq, World.watch_eq, size, ← links.table, fits.readPath, fits.heap]
  have takes : Heap.Takes [] T.left.heap ((T.left.readPath l.table path).crossed.foldl
      (·.register ⟨T.left.watchers.size + 1⟩) T.left.heap) :=
    (Heap.sameFaces_foldl_register _ _ _).takes
  let T' : Pair := { T with
    left := { T.left with
      watchers := T.left.watchers.push ⟨l, path, reaction⟩
      heap := (T.left.readPath l.table path).crossed.foldl
        (·.register ⟨T.left.watchers.size + 1⟩) T.left.heap }
    right := { T.right with
      watchers := T.right.watchers.push ⟨l', path, reaction⟩
      heap := (T.left.readPath l.table path).crossed.foldl
        (·.register ⟨T.left.watchers.size + 1⟩) T.left.heap } }
  have le : T.Le T' := ⟨takes.live, fun _ h => h, fun _ _ h => h, fun _ h => h, fun _ h => h, fun _ _ h => h⟩
  have fits' := fits.onHeap (takes.preserves (by simp))
  refine ⟨T', le, rfl, rfl, ⟨rfl, fits'.whole, fits.tables, fits.parted, fits.collector, fits.nodes,
    fits.listeners.imp fun _ _ same => same.mono le, ?_, fits'.mounts.within, fits'.mounts.withinLeft,
    fits'.mounts.withinRight, fits'.mounts.one, fits'.mounts.apart, fits'.mounts.same,
    fits'.mounts.live, fits'.mounts.keeps, fits'.mounts.bare, fits'.mounts.homeWithin,
    fits'.mounts.homeOne⟩, trivial⟩
  simp only [T', Array.toList_push]
  exact List.rel_append (fits.watchers.imp fun _ _ same => same.mono le)
    (.cons ⟨links.mono le, rfl, rfl⟩ .nil)

/-! ## Changes of the page -/

/-- A change of both pages after which the nodes are the same again. -/
theorem Fits.becomes_page {Q : Pair → Prop} (fits : T.Fits P) {p q : Page Response}
    (nodes : q.nodes = p.nodes) (left : p.listeners = T.left.page.listeners)
    (right : q.listeners = T.right.page.listeners) (value : ∀ T' : Pair, T.Le T' → Q T') :
    T.Becomes P { T.left with page := p } { T.right with page := q } Q := by
  let T' : Pair := { T with left := { T.left with page := p }, right := { T.right with page := q } }
  have le : T.Le T' := ⟨fun _ h => h, fun _ h => h, fun _ _ h => h, fun _ h => h, fun _ h => h, fun _ _ h => h⟩
  have mounts := fits.mounts
  refine ⟨T', le, rfl, rfl, ⟨fits.heap, fits.whole, fits.tables, fits.parted, fits.collector, nodes, ?_,
    fits.watchers.imp fun _ _ same => same.mono le, mounts.within, mounts.withinLeft,
    mounts.withinRight, mounts.one, mounts.apart, mounts.same, mounts.live, mounts.keeps, mounts.bare,
    mounts.homeWithin, mounts.homeOne⟩,
    value T' le⟩
  simp only [T', left, right]
  exact fits.listeners.imp fun _ _ same => same.mono le

/-- A value is shown on both sides. -/
theorem Fits.render (fits : T.Fits P) (directive : Directive) (n : NodeId) (v : Value) :
    T.Becomes P (T.left.render directive n v) (T.right.render directive n v) fun _ => True := by
  have nodes := Page.nodes_showing_congr fits.nodes directive n (T.left.heap.render v)
  rw [World.render_eq, World.render_eq, congrArg (Heap.render · v) fits.heap]
  exact fits.becomes_page nodes (Page.repaints_showing _ directive n _).listeners
    (Page.repaints_showing _ directive n _).listeners fun _ _ => trivial

theorem Fits.listen (fits : T.Fits P) {a b : Response} (same : T.Responds P a b) (n : NodeId)
    (event : String) :
    T.Becomes P { T.left with page := T.left.page.listen n event a }
      { T.right with page := T.right.page.listen n event b } fun _ => True := by
  let T' : Pair := { T with
    left := { T.left with page := T.left.page.listen n event a }
    right := { T.right with page := T.right.page.listen n event b } }
  have le : T.Le T' := ⟨fun _ h => h, fun _ h => h, fun _ _ h => h, fun _ h => h, fun _ h => h, fun _ _ h => h⟩
  have mounts := fits.mounts
  refine ⟨T', le, rfl, rfl, ⟨fits.heap, fits.whole, fits.tables, fits.parted, fits.collector, fits.nodes,
    ?_, fits.watchers.imp fun _ _ same => same.mono le, mounts.within, mounts.withinLeft,
    mounts.withinRight, mounts.one, mounts.apart, mounts.same, mounts.live, mounts.keeps, mounts.bare,
    mounts.homeWithin, mounts.homeOne⟩,
    trivial⟩
  exact List.rel_append (fits.listeners.imp fun _ _ same => same.mono le)
    (.cons ⟨rfl, rfl, same.mono le⟩ .nil)

/-- The listeners of a node respond alike. -/
theorem Fits.responses (fits : T.Fits P) (n : NodeId) (event : String) :
    List.Forall₂ (T.Responds P) (T.left.page.responses n event) (T.right.page.responses n event) := by
  have listeners := fits.listeners
  unfold Page.responses
  generalize T.left.page.listeners = ls at listeners
  generalize T.right.page.listeners = rs at listeners
  induction listeners with
  | nil => exact .nil
  | @cons l r _ _ same _ ih =>
    rw [List.filter_cons, List.filter_cons, same.node, same.event]
    split
    · exact .cons same.responds ih
    · exact ih

end Pair

end DataBinding
