-- The outcome of a compilation. Compiling goes over a forest once: what it shows at a node changes that
-- node only and puts new ones below it, so every later node is compiled as it stood before. The outcome
-- is that of the demands of the page, in order, with what the echoes ask for among them.
import DataBinding.Proofs.Template.Binding

namespace DataBinding

/-! ## One element -/

namespace Page

variable {shown : String → String} {marks : Markers} {p₀ p p' : Page Response} {n : NodeId}
  {kids : List NodeId} {fate : Markers.Fate} {puts : Nat}

/-- What stands below an element, by its fate. -/
def Stands (shown : String → String) (p : Page Response) (n : NodeId) (kids : List NodeId) :
    Markers.Fate → Prop
  | .kept => p.HasBelow n kids
  | .emptied => p.HasBelow n []
  | .replaced expression => p.HasBelow n [⟨p.nodes.size - 1⟩] ∧
    p.face? ⟨p.nodes.size - 1⟩ = some (.text (shown expression), [])

/-- Some attributes of an element are bound: nothing changed but the element and what is new. -/
structure ElementBound (shown : String → String) (p₀ p : Page Response) (n : NodeId) (kids : List NodeId)
    (fate : Markers.Fate) (puts : Nat) : Prop where
  spares : Spares p₀ p n
  size : p.nodes.size = p₀.nodes.size + puts
  stands : p.Stands shown n kids fate

theorem Stands.hasBelow (stands : p.Stands shown n kids fate) : ∃ kids', p.HasBelow n kids' := by
  cases fate with
  | kept => exact ⟨_, stands⟩
  | emptied => exact ⟨_, stands⟩
  | replaced expression => exact ⟨_, stands.1⟩

/-- What stands below an element stays where the element keeps its children. -/
theorem Stands.keep (stands : p.Stands shown n kids fate) (spares : Spares p p' n)
    (size : p'.nodes.size = p.nodes.size)
    (same : ∀ kids', p.HasBelow n kids' → p'.HasBelow n kids') : p'.Stands shown n kids fate := by
  cases fate with
  | kept => exact same _ stands
  | emptied => exact same _ stands
  | replaced expression =>
    obtain ⟨below, fresh⟩ := stands
    unfold Stands
    rw [size]
    refine ⟨same _ below, ?_⟩
    obtain ⟨d, hd, _⟩ := Option.map_eq_some_iff.mp fresh
    rw [spares.others _ ?_ (index_lt_of_node? hd), fresh]
    -- the new node is a text, and the element is not
    rintro e
    obtain ⟨_, _, _, _, hf⟩ := below
    rw [← e, fresh] at hf
    cases hf

theorem ElementBound.congr (bound : ElementBound shown p₀ p n kids fate puts) (same : p'.nodes = p.nodes) :
    ElementBound shown p₀ p' n kids fate puts := by
  have faces : p'.face? = p.face? := by
    funext m
    simp only [face?, node?, same]
  obtain ⟨⟨others, le⟩, size, stands⟩ := bound
  refine ⟨⟨faces ▸ others, same ▸ le⟩, same ▸ size, ?_⟩
  cases fate <;> simpa only [Stands, HasBelow, faces, same] using stands

/-- How many texts one more attribute puts. -/
def putBy (marks : Markers) (name : String) : Nat :=
  if marks.directive? name = some .text then 1 else 0

/-- A value that is shown for a directive decides what stands below from then on. -/
theorem ElementBound.showing (bound : ElementBound shown p₀ p n kids fate puts) {directive : Directive}
    {name value : String} (means : marks.directive? name = some directive) :
    ElementBound shown p₀ (p.showing directive n (shown value)) n kids
      (marks.fateAfter fate (name, value)) (puts + putBy marks name) := by
  obtain ⟨kids', below⟩ := bound.stands.hasBelow
  cases directive with
  | model =>
    change ElementBound shown p₀ (p.setProperty n "value" (shown value)) n kids _ _
    have spares : Spares p (p.setProperty n "value" (shown value)) n := spares_change p n _
    have size : (p.setProperty n "value" (shown value)).nodes.size = p.nodes.size := size_change ..
    have stands := bound.stands.keep spares size fun _ h => hasBelow_setProperty h _ _
    refine ⟨bound.spares.trans spares, ?_, ?_⟩
    · simpa [putBy, means] using size.trans bound.size
    · simpa only [Markers.fateAfter, means] using stands
  | bind attribute' =>
    change ElementBound shown p₀ (p.setAttribute n attribute' (shown value)) n kids _ _
    have spares : Spares p (p.setAttribute n attribute' (shown value)) n := spares_change p n _
    have size : (p.setAttribute n attribute' (shown value)).nodes.size = p.nodes.size :=
      size_change ..
    have stands := bound.stands.keep spares size fun _ h => hasBelow_setAttribute h _ _
    refine ⟨bound.spares.trans spares, ?_, ?_⟩
    · simpa [putBy, means] using size.trans bound.size
    · simpa only [Markers.fateAfter, means] using stands
  | html =>
    change ElementBound shown p₀ (p.setMarkup n (shown value)) n kids _ _
    obtain ⟨spares, emptied, size⟩ := setMarkup_effect below (shown value)
    refine ⟨bound.spares.trans spares, ?_, ?_⟩
    · simpa [putBy, means] using size.trans bound.size
    · simp only [Markers.fateAfter, means]
      exact emptied
  | text =>
    change ElementBound shown p₀ (p.setText n (shown value)) n kids _ _
    obtain ⟨spares, replaced, fresh, size⟩ := setText_effect below (shown value)
    refine ⟨bound.spares.trans spares, ?_, ?_⟩
    · rw [putBy, if_pos means, ← Nat.add_assoc, ← bound.size]
      exact size
    · simp only [Markers.fateAfter, means, Stands, size, Nat.add_sub_cancel]
      exact ⟨replaced, fresh⟩

end Page

namespace Compile

variable {w₀ : World} {vm : ViewModel} {marks : Markers} {d : Draft}

/-- What an attribute asks for is bound. -/
theorem yields_compileAttribute (drawn : d.From w₀) {p₀ : Page Response} {n : NodeId}
    {kids : List NodeId} {fate : Markers.Fate} {puts : Nat}
    (bound : Page.ElementBound (w₀.shown vm) p₀ d.world.page n kids fate puts)
    (name value : String) :
    Yields w₀ vm (compileAttribute marks vm n name value) d (marks.ofAttribute n name value)
      fun page => Page.ElementBound (w₀.shown vm) p₀ page n kids
        (marks.fateAfter fate (name, value)) (puts + Page.putBy marks name) := by
  have other (none : ∀ directive, marks.directive? name ≠ some directive) :
      marks.fateAfter fate (name, value) = fate ∧ puts + Page.putBy marks name = puts := by
    simp [Markers.fateAfter, Page.putBy, Option.eq_none_iff_forall_ne_some.mpr none]
  unfold compileAttribute Markers.ofAttribute
  rcases hk : marks.classify name with ⟨kind, argument⟩ | event | _
  · rcases hd : Directive.ofParts? kind argument with _ | directive
    · obtain ⟨fate', puts'⟩ := other (by simp [Markers.directive?, hk, hd])
      simp only [hd, fate', puts']
      exact .nothing drawn bound
    · simp only [hd]
      have means : marks.directive? name = some directive := by
        simp only [Markers.directive?, hk, hd]
      refine (yields_bindDirective drawn n directive name value).mono ?_
      rintro page ⟨p, same, rfl⟩
      exact (bound.congr same).showing means
  · obtain ⟨fate', puts'⟩ := other (by simp [Markers.directive?, hk])
    simp only [fate', puts']
    exact (yields_bindEvent drawn n event (Text.trim value)).mono fun page same => bound.congr same
  · obtain ⟨fate', puts'⟩ := other (by simp [Markers.directive?, hk])
    simp only [fate', puts']
    exact .nothing drawn bound

/-- The attributes of an element are bound one after the other. -/
theorem yields_attributes (marks : Markers) (drawn : d.From w₀) {p₀ : Page Response} {n : NodeId}
    {kids : List NodeId} (named : List (String × String)) {fate : Markers.Fate} {puts : Nat}
    (bound : Page.ElementBound (w₀.shown vm) p₀ d.world.page n kids fate puts) :
    Yields w₀ vm (named.forM fun (name, value) => compileAttribute marks vm n name value) d
      (named.flatMap fun (name, value) => marks.ofAttribute n name value)
      fun page => Page.ElementBound (w₀.shown vm) p₀ page n kids
        (named.foldl marks.fateAfter fate) (puts + marks.puts named) := by
  induction named generalizing d fate puts with
  | nil => exact .nothing drawn bound
  | cons first rest ih =>
    obtain ⟨name, value⟩ := first
    rw [List.flatMap_cons]
    refine (yields_compileAttribute drawn bound name value).bind fun d' drawn' bound' => ?_
    have total : puts + marks.puts ((name, value) :: rest) =
        puts + Page.putBy marks name + marks.puts rest := by
      simp only [Markers.puts, List.countP_cons, Page.putBy, decide_eq_true_eq]
      omega
    rw [total, List.foldl_cons]
    exact ih drawn' bound'

end Compile

/-! ## One node -/

namespace Page

/-- The children of a node, by its fate. -/
def Leaves (shown : String → String) (p : Page Response) (n : NodeId) (kids : List NodeId) :
    Markers.Fate → Prop
  | .kept => p.children n = kids
  | .emptied => p.children n = []
  | .replaced expression => p.children n = [⟨p.nodes.size - 1⟩] ∧
    p.face? ⟨p.nodes.size - 1⟩ = some (.text (shown expression), [])

theorem Stands.leaves {shown : String → String} {p : Page Response} {n : NodeId}
    {kids : List NodeId} {fate : Markers.Fate} (stands : p.Stands shown n kids fate) :
    p.Leaves shown n kids fate := by
  cases fate with
  | kept => exact HasBelow.children stands
  | emptied => exact HasBelow.children stands
  | replaced expression => exact ⟨stands.1.children, stands.2⟩

end Page

namespace Compile

variable {w₀ : World} {vm : ViewModel} {marks : Markers} {d : Draft}

/-- What a node itself asks for is bound, and its children are those that its fate leaves. -/
theorem yields_compileNode (marks : Markers) (vm : ViewModel) (drawn : d.From w₀) {n : NodeId} {content : Option Content}
    {below : List Tree} (holds : d.world.page.Holds (.node n content below))
    (high : (Tree.node n content below).height ≤ d.world.page.nodes.size) :
    Yields w₀ vm (compileNode marks vm n) d ((Tree.node n content below).own marks) fun page =>
      Page.Spares d.world.page page n ∧
      page.nodes.size = d.world.page.nodes.size + marks.puts (Tree.attributesOf content) ∧
      page.Leaves (w₀.shown vm) n (below.map Tree.id) (marks.fate (Tree.attributesOf content)) := by
  have whole := Page.textIn_of_holds holds high
  obtain ⟨hc, hk, _⟩ := holds
  rcases content with _ | ⟨tag, named, properties, markup⟩ | s | s
  · refine Yields.congr (.nothing drawn ⟨.refl _ _, rfl, hk⟩) ?_
    unfold compileNode
    rw [on_bind, on_get]
    simp only [hc]
  · have face := Page.face?_of_content? hc
    rw [hk] at face
    have fresh : Page.ElementBound (w₀.shown vm) d.world.page d.world.page n (below.map Tree.id)
        .kept 0 := ⟨.refl _ _, rfl, ⟨tag, named, properties, markup, face⟩⟩
    have bound := (yields_attributes marks drawn named fresh).mono fun page bound =>
      (⟨bound.spares, by simpa using bound.size, bound.stands.leaves⟩ :
        Page.Spares d.world.page page n ∧
        page.nodes.size = d.world.page.nodes.size + marks.puts named ∧
        page.Leaves (w₀.shown vm) n (below.map Tree.id) (marks.fate named))
    refine bound.congr ?_
    unfold compileNode
    rw [on_bind, on_get]
    simp only [hc]
  · have face := Page.face?_of_content? hc
    rw [hk] at face
    have text : d.world.page.textOf n = s ++ Tree.textOfAll below := whole
    have bound := yields_compileText vm drawn marks n
    rw [text] at bound
    refine Yields.congr (bound.mono ?_) ?_
    · rintro page (rfl | ⟨s', rfl⟩)
      · exact ⟨.refl _ _, rfl, hk⟩
      · obtain ⟨spares, face', size⟩ := Page.setText_effect_of_text face s'
        refine ⟨spares, size, ?_⟩
        show Page.children _ n = _
        rw [Page.children_eq, face']
        rfl
    · unfold compileNode
      rw [on_bind, on_get]
      simp only [hc]
  · refine Yields.congr (.nothing drawn ⟨.refl _ _, rfl, hk⟩) ?_
    unfold compileNode
    rw [on_bind, on_get]
    simp only [hc]

/-! ## Trees -/

/-- Compiles a node and everything below it. -/
def compileTree (marks : Markers) (vm : ViewModel) (fuel : Nat) (n : NodeId) : Compile Unit := do
  compileNode marks vm n
  compileBelow marks vm fuel n

theorem on_compileBelow_succ (fuel : Nat) (n : NodeId) (d : Draft) :
    (compileBelow marks vm (fuel + 1) n).on d =
      ((d.world.page.children n).forM (compileTree marks vm fuel)).on d := by
  rw [compileBelow, on_bind, on_get]
  rfl

end Compile

/-- A text without children is a tree of its own. -/
theorem Page.holds_of_face {p : Page Response} {n : NodeId} {s : String}
    (face : p.face? n = some (.text s, [])) : p.Holds (.node n (some (.text s)) []) ∧
      (Tree.node n (some (.text s)) []).height ≤ p.nodes.size := by
  refine ⟨⟨?_, ?_, trivial⟩, ?_⟩
  · rw [content?_eq, face]
    rfl
  · rw [children_eq, face]
    rfl
  · obtain ⟨node, there, _⟩ := Option.map_eq_some_iff.mp face
    exact Nat.lt_of_le_of_lt (Nat.zero_le _) (index_lt_of_node? there)

/-- Only the given nodes and so many new ones have got other faces. -/
structure Page.Within (p p' : Page Response) (ids : List NodeId) (puts : Nat) : Prop where
  others : ∀ m, m ∉ ids → m.index < p.nodes.size → p'.face? m = p.face? m
  size : p'.nodes.size = p.nodes.size + puts

namespace Compile

theorem demands_map_demand (marks : Markers) (shown : String → String) (demands : List Demand) :
    (demands.map Item.demand).flatMap (·.demands marks shown) = demands := by
  induction demands with
  | nil => rfl
  | cons d rest ih => rw [List.map_cons, List.flatMap_cons, ih]; rfl

/-- A text that was put is compiled like any other one. -/
theorem yields_echo (drawn : d.From w₀) {n : NodeId} {s : String}
    (face : d.world.page.face? n = some (.text s, [])) (fuel : Nat) :
    Yields w₀ vm (compileTree marks vm fuel n) d (marks.ofText n s)
      fun page => Page.Spares d.world.page page n ∧
        page.nodes.size = d.world.page.nodes.size := by
  obtain ⟨holds, high⟩ := Page.holds_of_face face
  have own : (Tree.node n (some (.text s)) []).own marks = marks.ofText n s := by
    rw [Tree.own, Tree.textOfAll, String.append_empty]
  have node := yields_compileNode marks vm drawn holds high
  rw [own] at node
  rw [← List.append_nil (marks.ofText n s)]
  refine node.bind fun d' drawn' h => ?_
  obtain ⟨spares, size, kids⟩ := h
  refine Yields.congr (.nothing drawn' ⟨spares, size⟩) ?_
  cases fuel with
  | zero => rfl
  | succ fuel =>
    have none : d'.world.page.children n = [] := kids
    rw [on_compileBelow_succ, none]
    rfl

mutual

/-- What a tree asks for is bound in order. -/
theorem yields_tree (marks : Markers) (vm : ViewModel) : ∀ {t : Tree} {fuel : Nat} {d : Draft},
    d.From w₀ → d.world.page.Holds t → t.ids.Nodup → (∀ m ∈ t.ids, m.index < d.world.page.nodes.size) → t.height ≤ fuel →
    t.height ≤ d.world.page.nodes.size →
    Yields w₀ vm (compileTree marks vm fuel t.id) d
      ((t.items marks d.world.page.nodes.size).flatMap (·.demands marks (w₀.shown vm)))
      fun page => d.world.page.Within page t.ids (t.puts marks)
  | .node n content below, 0, d, _, _, _, _, deep, _ => by simp [Tree.height] at deep
  | .node n content below, fuel + 1, d, drawn, holds, nodup, inside, deep, high => by
    rw [Tree.items, List.flatMap_append, demands_map_demand]
    rw [Tree.ids, List.nodup_cons] at nodup
    obtain ⟨hn, nodup'⟩ := nodup
    have belowDeep : Tree.heightOfAll below ≤ fuel := by simpa [Tree.height] using deep
    have belowHigh : Tree.heightOfAll below + 1 ≤ d.world.page.nodes.size := by
      simpa only [Tree.height] using high
    refine (yields_compileNode marks vm drawn holds high).bind fun d' drawn' h => ?_
    obtain ⟨spares, size, kids⟩ := h
    have later {m : NodeId} (hm : m ∈ Tree.idsOfAll below) :
        m.index < d.world.page.nodes.size := inside m (by simp [Tree.ids, hm])
    rcases fate : marks.fate (Tree.attributesOf content) with _ | _ | expression
    · rw [fate] at kids
      have holds' : d'.world.page.HoldsAll below := holds.2.2.keep fun m hm =>
        spares.others m (fun e => hn (e ▸ hm)) (later hm)
      have grown := spares.size
      have rest := yields_trees marks vm drawn' holds' nodup'
        (fun m hm => Nat.lt_of_lt_of_le (later hm) grown) belowDeep (by omega)
      rw [size] at rest
      simp only
      refine (rest.congr ?_).mono ?_
      · rw [Tree.id, on_compileBelow_succ, show d'.world.page.children n = _ from kids]
      · intro page within
        refine ⟨?_, ?_⟩
        · intro m hm lt
          have hm := not_or.mp (fun h => hm (by simpa only [Tree.ids, List.mem_cons] using h))
          rw [within.others m hm.2 (Nat.lt_of_lt_of_le lt spares.size), spares.others m hm.1 lt]
        · rw [within.size, size, Tree.puts, fate, Nat.add_assoc]
    · rw [fate] at kids
      simp only [List.flatMap_nil]
      refine Yields.congr (.nothing drawn' ?_) ?_
      · refine ⟨?_, ?_⟩
        · intro m hm lt
          exact spares.others m (fun e => hm (by simp [Tree.ids, e])) lt
        · simp only [size, Tree.puts, fate, Nat.add_zero]
      · rw [Tree.id, on_compileBelow_succ, show d'.world.page.children n = [] from kids]
        rfl
    · rw [fate] at kids
      obtain ⟨child, face⟩ := kids
      rw [size] at child face
      have fresh : d.world.page.nodes.size ≤
          d.world.page.nodes.size + marks.puts (Tree.attributesOf content) - 1 := by
        have := Markers.puts_pos fate
        omega
      rw [List.flatMap_singleton, Item.demands]
      refine ((yields_echo drawn' face fuel).congr ?_).mono ?_
      · rw [Tree.id, on_compileBelow_succ, child, on_forM_singleton]
      · rintro page ⟨spares', size'⟩
        refine ⟨?_, ?_⟩
        · intro m hm lt
          have ne : m ≠ ⟨_⟩ := fun e => by
            rw [e] at lt
            exact Nat.lt_irrefl _ (Nat.lt_of_lt_of_le lt fresh)
          rw [spares'.others m ne (Nat.lt_of_lt_of_le lt spares.size)]
          exact spares.others m (fun e => hm (by simp [Tree.ids, e])) lt
        · simp only [size', size, Tree.puts, fate, Nat.add_zero]

theorem yields_trees (marks : Markers) (vm : ViewModel) : ∀ {ts : List Tree} {fuel : Nat}
    {d : Draft}, d.From w₀ → d.world.page.HoldsAll ts → (Tree.idsOfAll ts).Nodup →
    (∀ m ∈ Tree.idsOfAll ts, m.index < d.world.page.nodes.size) → Tree.heightOfAll ts ≤ fuel →
    Tree.heightOfAll ts ≤ d.world.page.nodes.size →
    Yields w₀ vm ((ts.map Tree.id).forM (compileTree marks vm fuel)) d
      ((Tree.itemsOfAll marks d.world.page.nodes.size ts).flatMap
        (·.demands marks (w₀.shown vm)))
      fun page => d.world.page.Within page (Tree.idsOfAll ts) (Tree.putsOfAll marks ts)
  | [], fuel, d, drawn, _, _, _, _, _ => .nothing drawn ⟨fun _ _ _ => rfl, rfl⟩
  | t :: rest, fuel, d, drawn, holds, nodup, inside, deep, high => by
    simp only [Tree.heightOfAll, Nat.max_le] at deep high
    rw [Tree.idsOfAll, List.nodup_append] at nodup
    obtain ⟨nodup₁, nodup₂, apart⟩ := nodup
    rw [Tree.itemsOfAll, List.flatMap_append]
    have here {m : NodeId} (hm : m ∈ t.ids) : m.index < d.world.page.nodes.size :=
      inside m (by simp [Tree.idsOfAll, hm])
    have later {m : NodeId} (hm : m ∈ Tree.idsOfAll rest) : m.index < d.world.page.nodes.size :=
      inside m (by simp [Tree.idsOfAll, hm])
    have first := yields_tree marks vm drawn holds.1 nodup₁ (fun _ hm => here hm) deep.1 high.1
    refine first.bind fun d' drawn' within => ?_
    have size := within.size
    have holds' : d'.world.page.HoldsAll rest := holds.2.keep fun m hm =>
      within.others m (fun hm' => apart m hm' m hm rfl) (later hm)
    have others := yields_trees marks vm drawn' holds' nodup₂
      (fun m hm => Nat.lt_of_lt_of_le (later hm) (by omega)) deep.2 (by omega)
    rw [size] at others
    refine others.mono fun page within' => ⟨?_, ?_⟩
    · intro m hm lt
      rw [Tree.idsOfAll, List.mem_append, not_or] at hm
      rw [within'.others m hm.2 (by omega), within.others m hm.1 lt]
    · rw [within'.size, size, Tree.putsOfAll, Nat.add_assoc]

end

end Compile

/-! ## The outcome -/

namespace World

/-- The outcome of a compilation: the fault, or what is bound. -/
def outcome (w : World) (marks : Markers) (vm : ViewModel) (root : NodeId) :
    Except CompileError (List Bound) :=
  (w.compile marks vm root).2.map fun wiring =>
    wiring.map (Bound.of (w.compile marks vm root).1)

/-- What the part of a page below a node asks for, with the texts that a view model shows. -/
def demands (w : World) (marks : Markers) (vm : ViewModel) (root : NodeId) : List Demand :=
  (w.page.items marks root).flatMap (·.demands marks (w.shown vm))

/-- On a forest, compiling yields the demands of the page. -/
theorem yields_compile {w : World} (forest : w.page.Forest) (marks : Markers) (vm : ViewModel)
    (root : NodeId) :
    Compile.Yields w vm (Compile.compileBelow marks vm (w.page.nodes.size + 2) root) ⟨w, []⟩
      (w.demands marks vm root) fun page =>
        w.page.Within page (Tree.idsOfAll (w.page.below root)) (Tree.putsOfAll marks (w.page.below root)) := by
  have drawn : Draft.From w ⟨w, []⟩ := ⟨.refl, by intro b hb; cases hb⟩
  obtain ⟨holds, nodup, inside, high⟩ := forest.holds_below root
  exact (Compile.yields_trees marks vm drawn holds nodup inside (Nat.le_succ_of_le high) high).congr
    (by rw [Compile.on_compileBelow_succ, w.page.map_id_below])

/-- On a forest, compiling settles the demands of the page. -/
theorem outcome_eq {w : World} (forest : w.page.Forest) (marks : Markers) (vm : ViewModel)
    (root : NodeId) :
    w.outcome marks vm root = Demand.settleAll (w.defines vm) (w.demands marks vm root) := by
  have bound := yields_compile forest marks vm root
  rw [outcome, compile_eq]
  rcases hs : Demand.settleAll (w.defines vm) (w.demands marks vm root) with e | bounds
  · rw [bound.fails e hs]
    rfl
  · obtain ⟨d', hd', _, hb, _⟩ := bound.binds bounds hs
    rw [hd']
    exact congrArg Except.ok hb

end World

end DataBinding
