-- The places that a template binds. They are parts of nodes below the root, and none of them is below an
-- element that shows a text or raw markup. A compilation fills these places, and those of the texts
-- that it puts itself, and nothing else on the page changes.
import DataBinding.Proofs.Page.Frames
import DataBinding.Proofs.Template.Faults

namespace DataBinding

/-- The place that a demand fills. -/
def Demand.place? : Demand → Option Place
  | .value n kind _ _ => kind.directive?.map (·.place n)
  | .event _ _ _ => none

theorem Demand.node_of_place? {demand : Demand} {place : Place} (h : demand.place? = some place) :
    place.node = demand.node := by
  cases demand with
  | value n kind expression origin =>
    obtain ⟨directive, _, rfl⟩ := Option.map_eq_some_iff.mp h
    exact directive.node_place n
  | event n event method => cases h

namespace Page

variable {ρ : Type} {p : Page ρ}

/-- A node stands somewhere below another one. -/
def Below (p : Page ρ) (x n : NodeId) : Prop := Relation.TransGen (fun a b => b ∈ p.children a) n x

theorem below_iff {x n : NodeId} : p.Below x n ↔ ∃ child ∈ p.children n, p.Under x child :=
  Relation.TransGen.head'_iff

/-- The template below a node binds a place. -/
def AsksFor (p : Page ρ) (marks : Markers) (root : NodeId) (place : Place) : Prop :=
  ∃ demand ∈ p.asks marks root, demand.place? = some place

end Page

/-! ## What is read of a page -/

theorem Item.mem_asked {items : List Item} {demand : Demand} :
    demand ∈ asked items ↔ .demand demand ∈ items := by
  constructor
  · intro h
    obtain ⟨item, hi, h⟩ := List.mem_flatMap.mp h
    cases item with
    | demand d => exact List.mem_singleton.mp h ▸ hi
    | echo n expression => cases h
  · exact fun h => List.mem_flatMap.mpr ⟨_, h, List.mem_singleton_self _⟩

namespace Tree

variable {marks : Markers} {ρ : Type} {p : Page ρ} {d d' : Demand}

/-- What a tree asks for is asked for at its nodes. -/
theorem node_of_mem_asks {t : Tree} (h : d ∈ t.asks marks) : d.node ∈ t.ids := by
  rw [← (asked_items t 0).1, Item.mem_asked] at h
  exact (node_of_mem_items h).1 rfl

theorem node_of_mem_asksAll {ts : List Tree} (h : d ∈ asksAll marks ts) : d.node ∈ idsOfAll ts := by
  rw [← (asked_itemsAll ts 0).1, Item.mem_asked] at h
  exact (node_of_mem_itemsOfAll h).1 rfl

/-- A directive that fills the content of an element hides what stands in it. -/
theorem hides_of_mem_own {n : NodeId} {tag : String} {named properties : List (String × String)}
    {markup : Option String} {below : List Tree}
    (h : d ∈ (Tree.node n (some (.element tag named properties markup)) below).own marks)
    (place : d.place? = some (.content n)) : marks.hides named = true := by
  obtain ⟨⟨name, value⟩, mem, h⟩ := List.mem_flatMap.mp h
  refine List.any_eq_true.mpr ⟨(name, value), mem, ?_⟩
  replace h : d ∈ marks.ofAttribute n name value := h
  unfold Markers.ofAttribute at h
  split at h
  · cases h
  · rw [List.mem_singleton.mp h] at place
    cases place
  · rename_i kind argument classified
    split at h
    · cases h
    · rename_i directive known
      have means : marks.directive? name = some directive := by
        simp only [Markers.directive?, classified, known]
      rw [List.mem_singleton.mp h] at place
      have place : directive.place n = .content n := Option.some.inj place
      cases directive with
      | text | html => simp [means]
      | model | bind _ => cases place

mutual

/-- Below an element that shows a text or raw markup, nothing is asked for. -/
theorem not_below_of_asks (forest : p.Forest) : ∀ {t : Tree}, p.Holds t → d ∈ t.asks marks →
    d' ∈ t.asks marks → d.place? = some (.content d.node) → p.IsElement d.node →
      ¬p.Below d'.node d.node
  | .node n content below, holds, h, h', place, element => by
    obtain ⟨hc, hk, hb⟩ := holds
    have kids (t : Tree) (ht : t ∈ below) : t.id ∈ p.children n := hk ▸ List.mem_map_of_mem ht
    have inside {x : Demand} (hx : x ∈ asksAll marks below) : p.Below x.node n := by
      obtain ⟨t, ht, under⟩ := Page.under_of_mem_idsOfAll hb (node_of_mem_asksAll hx)
      exact under.below (kids t ht)
    rw [asks, List.mem_append] at h h'
    by_cases hides : marks.hides (attributesOf content) = true
    · -- all that is asked for is asked for at the element itself
      simp only [hides, if_true, List.not_mem_nil, or_false] at h h'
      rw [node_of_mem_own h, node_of_mem_own h']
      exact forest.no_cycle n
    · rw [if_neg hides] at h h'
      rcases h with h | h
      · have here : d.node = n := node_of_mem_own h
        rw [here] at element place
        obtain ⟨_, tag, named, properties, markup, face⟩ := element
        rw [← hc, Page.content?_of_face face] at h hides
        exact absurd (hides_of_mem_own h place) hides
      · rcases h' with h' | h'
        · have there : d'.node = n := node_of_mem_own h'
          rw [there]
          exact fun back => forest.no_cycle n ((inside h).trans back)
        · exact not_below_of_asksAll forest hb kids (hk ▸ forest.nodup n) h h' place element

theorem not_below_of_asksAll (forest : p.Forest) {n : NodeId} : ∀ {ts : List Tree}, p.HoldsAll ts →
    (∀ t ∈ ts, t.id ∈ p.children n) → (ts.map Tree.id).Nodup → d ∈ asksAll marks ts →
      d' ∈ asksAll marks ts → d.place? = some (.content d.node) → p.IsElement d.node →
        ¬p.Below d'.node d.node
  | [], _, _, _, h, _, _, _ => by cases h
  | t :: rest, holds, kids, nodup, h, h', place, element => by
    rw [List.map_cons, List.nodup_cons] at nodup
    rw [asksAll, List.mem_append] at h h'
    have kids' (s : Tree) (hs : s ∈ rest) := kids s (List.mem_cons_of_mem _ hs)
    -- a node in one tree is not below a node in another one
    have apart {a b : Demand} (ha : a ∈ t.asks marks) (hb : b ∈ asksAll marks rest) :
        ¬p.Below b.node a.node ∧ ¬p.Below a.node b.node := by
      have first := Page.under_of_mem_ids holds.1 (node_of_mem_asks ha)
      obtain ⟨s, hs, second⟩ := Page.under_of_mem_idsOfAll holds.2 (node_of_mem_asksAll hb)
      have ne : t.id ≠ s.id := fun e => nodup.1 (e ▸ List.mem_map_of_mem hs)
      have never {x : NodeId} : p.Under x t.id → ¬p.Under x s.id :=
        forest.apart (kids t (List.mem_cons_self ..)) (kids' s hs) ne
      exact ⟨fun below => never (first.trans below.to_reflTransGen) second,
        fun below => never first (second.trans below.to_reflTransGen)⟩
    rcases h with h | h <;> rcases h' with h' | h'
    · exact not_below_of_asks forest holds.1 h h' place element
    · exact (apart h h').1
    · exact (apart h' h).2
    · exact not_below_of_asksAll forest holds.2 kids' nodup.2 h h' place element

end

end Tree

namespace Page

variable {ρ : Type} {p : Page ρ} {marks : Markers} {root n : NodeId} {d : Demand}

/-- What the template below a node asks for is asked for below the node. -/
theorem Forest.below_of_asks (forest : p.Forest) (h : d ∈ p.asks marks root) :
    p.Below d.node root := by
  obtain ⟨t, ht, under⟩ :=
    under_of_mem_idsOfAll (forest.holds_below root).1 (Tree.node_of_mem_asksAll h)
  refine under.below ?_
  rw [← p.map_id_below root]
  exact List.mem_map_of_mem ht

/-- Where a template binds the content of an element, it asks for nothing below the element. -/
theorem Forest.not_below_of_asksFor (forest : p.Forest) (asked : p.AsksFor marks root (.content n))
    (element : p.IsElement n) (h : d ∈ p.asks marks root) : ¬p.Below d.node n := by
  obtain ⟨demand, mem, place⟩ := asked
  obtain rfl : n = demand.node := Demand.node_of_place? place
  refine Tree.not_below_of_asksAll (n := root) forest (forest.holds_below root).1 (fun t ht => ?_) ?_
    mem h place element
  · rw [← p.map_id_below root]
    exact List.mem_map_of_mem ht
  · rw [p.map_id_below]
    exact forest.nodup root

end Page

/-! ## What is painted -/

namespace Demand

variable {w : World} {vm : ViewModel} {p : Page Response} {touched : Place → Prop}

/-- A page on which a demand is met changes in the place of the demand. -/
theorem spared_paint (w : World) (vm : ViewModel) (linked : p.Linked) (demand : Demand)
    (here : ∀ place, demand.place? = some place → touched place) :
    (demand.paint w vm p).Linked ∧ p.Spared touched (demand.paint w vm p) := by
  have same : p.Spared touched { p with listeners := p.listeners ++ (demand.listener? w vm).toList } :=
    .of_nodes touched rfl
  have still : Page.Linked { p with listeners := p.listeners ++ (demand.listener? w vm).toList } :=
    linked.congr ⟨fun _ => rfl, fun _ => rfl⟩
  unfold paint
  dsimp only
  split
  · split
    · rename_i n kind expression origin _ _ path directive _ shows
      have here : touched (directive.place n) := here _ (by simp [place?, shows])
      exact ⟨still.showing directive n _, same.trans (still.spared_showing here _)⟩
    · exact ⟨still, same⟩
  · exact ⟨still, same⟩

theorem spared_paintAll (w : World) (vm : ViewModel) (linked : p.Linked) (demands : List Demand)
    (here : ∀ demand ∈ demands, ∀ place, demand.place? = some place → touched place) :
    (demands.foldl (paint w vm) p).Linked ∧ p.Spared touched (demands.foldl (paint w vm) p) := by
  induction demands generalizing p with
  | nil => exact ⟨linked, .refl _ p⟩
  | cons demand rest ih =>
    rw [List.forall_mem_cons] at here
    obtain ⟨linked₁, spared₁⟩ := spared_paint w vm linked demand here.1
    obtain ⟨linked₂, spared₂⟩ := ih linked₁ here.2
    exact ⟨linked₂, spared₁.trans spared₂⟩

/-- What stood in an element is a root when the content of the element is filled. -/
theorem parent?_paint_of_emptied (linked : p.Linked) {demand : Demand} {n child : NodeId}
    (met : demand.isMet (w.defines vm) = true) (place : demand.place? = some (.content n))
    (element : p.IsElement n) (mem : child ∈ p.children n) :
    (demand.paint w vm p).parent? child = none := by
  cases demand with
  | event n event method => cases place
  | value m kind expression origin =>
    obtain ⟨directive, shows, place⟩ := Option.map_eq_some_iff.mp place
    obtain rfl : m = n := by
      have := congrArg Place.node place
      rwa [directive.node_place] at this
    rcases parsed : KeyPath.parse expression with cause | path
    · simp [isMet, parsed] at met
    · simp only [paint, parsed, shows]
      refine Page.Linked.parent?_of_emptied ?_ ?_ place _ ?_
      · exact linked.congr ⟨fun _ => rfl, fun _ => rfl⟩
      · exact element
      · exact mem

end Demand

/-! ## Compilations -/

namespace Item

/-- The text of an expression asks for no listener. -/
theorem filterMap_listener?_demands (w : World) (vm : ViewModel) (marks : Markers)
    (shown : String → String) (items : List Item) :
    (items.flatMap (·.demands marks shown)).filterMap (·.listener? w vm) =
      (asked items).filterMap (·.listener? w vm) := by
  have echo (n : NodeId) (text : String) :
      (marks.ofText n text).filterMap (·.listener? w vm) = [] := by
    unfold Markers.ofText
    split
    · rfl
    · rename_i expression _
      rcases parsed : KeyPath.parse expression <;> simp [Demand.listener?, parsed]
  induction items with
  | nil => rfl
  | cons item rest ih =>
    rw [List.flatMap_cons, List.filterMap_append, ih]
    cases item with
    | demand d =>
      rw [← List.filterMap_append]
      rfl
    | echo n expression =>
      rw [demands, echo]
      rfl

end Item

namespace World

variable {w : World} {marks : Markers} {vm : ViewModel} {root : NodeId} {wiring : Wiring}

/-- All demands of a page are read off it, or they are those of new texts. -/
theorem asked_or_new {d : Demand} (h : d ∈ w.demands marks vm root) :
    d ∈ w.page.asks marks root ∨ w.page.nodes.size ≤ d.node.index := by
  obtain ⟨item, hi, h⟩ := List.mem_flatMap.mp h
  rcases item with d' | ⟨n, expression⟩
  · left
    rw [List.mem_singleton.mp h, Page.asks,
      ← (Tree.asked_itemsAll (w.page.below root) w.page.nodes.size).1]
    exact Item.mem_asked.mpr hi
  · right
    rw [Item.node_of_mem_demands h]
    exact ((Tree.node_of_mem_itemsOfAll hi).2 rfl).1

theorem mem_demands_of_asks {d : Demand} (h : d ∈ w.page.asks marks root) :
    d ∈ w.demands marks vm root := by
  rw [Page.asks, ← (Tree.asked_itemsAll (w.page.below root) w.page.nodes.size).1] at h
  exact List.mem_flatMap.mpr ⟨_, Item.mem_asked.mp h, List.mem_singleton_self _⟩

/-- The page that a compilation leaves. -/
theorem page_compile (forest : w.page.Forest) (ok : (w.compile marks vm root).2 = .ok wiring) :
    (w.compile marks vm root).1.page =
      (w.demands marks vm root).foldl (Demand.paint w vm) w.page := by
  rw [compile_eq_draft, (draft_of_ok forest ok).2]
  exact Draft.page_makeAll (d := ⟨w, []⟩) _ .refl

theorem watchers_compile (forest : w.page.Forest) (ok : (w.compile marks vm root).2 = .ok wiring) :
    (w.compile marks vm root).1.watchers =
      w.watchers ++ ((w.demands marks vm root).filterMap (·.watcher? vm)).toArray := by
  rw [compile_eq_draft, (draft_of_ok forest ok).2]
  exact Draft.watchers_makeAll vm _ ⟨w, []⟩

/-- The listeners that a compilation adds are those that the template asks for. -/
theorem listeners_compile (forest : w.page.Forest) (ok : (w.compile marks vm root).2 = .ok wiring) :
    (w.compile marks vm root).1.page.listeners =
      w.page.listeners ++ (w.page.asks marks root).filterMap (·.listener? w vm) := by
  rw [page_compile forest ok, Demand.listeners_paintAll, demands, Item.filterMap_listener?_demands,
    Page.items, (Tree.asked_itemsAll _ _).1]
  rfl

/-- A compilation fills the places of its demands. -/
theorem spared_compile (linked : w.page.Linked) (ok : (w.compile marks vm root).2 = .ok wiring)
    {touched : Place → Prop}
    (here : ∀ d ∈ w.demands marks vm root, ∀ place, d.place? = some place → touched place) :
    (w.compile marks vm root).1.page.Linked ∧
      w.page.Spared touched (w.compile marks vm root).1.page := by
  rw [page_compile linked.forest ok]
  exact Demand.spared_paintAll w vm linked _ here

/-- Where a template binds the content of an element, what stood in it has become a root. -/
theorem parent?_compile_of_emptied (linked : w.page.Linked)
    (ok : (w.compile marks vm root).2 = .ok wiring) {n child : NodeId}
    (asked : w.page.AsksFor marks root (.content n)) (element : w.page.IsElement n)
    (mem : child ∈ w.page.children n) : (w.compile marks vm root).1.page.parent? child = none := by
  obtain ⟨demand, hd, place⟩ := asked
  have hd : demand ∈ w.demands marks vm root := mem_demands_of_asks hd
  have met := (draft_of_ok linked.forest ok).1 demand hd
  obtain ⟨before, later, split⟩ := List.append_of_mem hd
  have lt := linked.forest.lt_of_child mem
  rw [page_compile linked.forest ok, split, List.foldl_append, List.foldl_cons]
  have paints {p : Page Response} (linked : p.Linked) (demands : List Demand) :
      (demands.foldl (Demand.paint w vm) p).Linked ∧
        p.Spared (fun _ => True) (demands.foldl (Demand.paint w vm) p) :=
    Demand.spared_paintAll w vm linked demands fun _ _ _ _ => trivial
  obtain ⟨linked₁, spared₁⟩ := paints linked before
  generalize before.foldl (Demand.paint w vm) w.page = p₁ at linked₁ spared₁
  obtain ⟨linked₂, spared₂⟩ := paints linked₁ [demand]
  have lt₁ := Nat.lt_of_lt_of_le lt spared₁.size
  refine (paints linked₂ later).2.parent?_of_none (Nat.lt_of_lt_of_le lt₁ spared₂.size) ?_
  -- a child that has lost its parent before stays a root
  rcases spared₁.parent child lt with same | ⟨gone, _⟩
  · have element₁ := (spared₁.isElement_iff (Page.lt_of_mem_children mem)).mpr element
    refine Demand.parent?_paint_of_emptied linked₁ met place element₁ ?_
    rw [linked₁.mem_children_iff, same]
    exact linked.mem_children_iff.mp mem
  · exact spared₂.parent?_of_none lt₁ gone

end World

end DataBinding
