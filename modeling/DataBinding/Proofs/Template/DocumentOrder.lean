-- Templates in document order. Compiling walks a page that it changes on the way: it puts texts below
-- elements, takes children away and sets attributes. The reading of a template does none of this. It goes
-- over the page as it was before, in preorder, and passes over what stands below an element with a
-- `text` or `html` directive. Unless a text that is put holds a marker, compiling binds what is read.
import DataBinding.Proofs.Template.Echoes

namespace DataBinding

/-! ## The reading -/

/-- An element whose children give way to a text or to raw markup. -/
def Markers.hides (marks : Markers) (named : List (String × String)) : Bool :=
  named.any fun named =>
    marks.directive? named.1 = some .text || marks.directive? named.1 = some .html

namespace Tree

variable (marks : Markers)

mutual

/-- What a tree asks for, node by node in preorder. -/
def asks : Tree → List Demand
  | .node n content below => (Tree.node n content below).own marks ++
    if marks.hides (attributesOf content) then [] else asksAll below

def asksAll : List Tree → List Demand
  | [] => []
  | t :: rest => asks t ++ asksAll rest

end

end Tree

/-- What is asked for below a node, in document order. -/
def Page.asks {ρ : Type} (p : Page ρ) (marks : Markers) (root : NodeId) : List Demand :=
  Tree.asksAll marks (p.below root)

namespace Demand

/-- An event needs its method, and a value needs a key path. -/
def isMet (defines : String → Bool) : Demand → Bool
  | .value _ _ expression _ =>
    match KeyPath.parse expression with
    | .ok _ => true
    | .error _ => false
  | .event _ _ method => defines method

/-- The text that a demand puts below its element, if it is that of a `text` directive. -/
def put? (shown : String → String) : Demand → Option String
  | .value _ (.directive .text) expression _ => some (shown expression)
  | _ => none

end Demand

/-- The texts that are put below elements while a template is compiled: those of the demands before the
first one that cannot be met. -/
def World.putTexts (w : World) (marks : Markers) (vm : ViewModel) (root : NodeId) : List String :=
  ((w.page.asks marks root).takeWhile (·.isMet (w.defines vm))).filterMap (·.put? (w.shown vm))

/-- A binding is what a demand asks for: a value has a watcher of its path, an event has none. -/
def Binding.Meets (w : World) (b : Binding) : Demand → Prop
  | .value n kind expression _ => b.node = n ∧ b.kind = kind ∧
    ∃ id watcher path, b.watcher = some id ∧ w.watcher? id = some watcher ∧
      KeyPath.parse expression = .ok path ∧ watcher.path.text = path.text
  | .event n event method => b = ⟨n, .event event method, none⟩

/-! ## Fates and readings -/

theorem Markers.foldl_fateAfter_eq_kept_iff {marks : Markers} {fate : Markers.Fate}
    {named : List (String × String)} :
    named.foldl marks.fateAfter fate = .kept ↔ fate = .kept ∧ marks.hides named = false := by
  induction named generalizing fate with
  | nil => simp [hides]
  | cons first rest ih =>
    rw [List.foldl_cons, ih]
    rcases h : marks.directive? first.1 with _ | (_ | _ | _ | _) <;> simp [fateAfter, hides, h]

/-- The children of an element stay exactly if no directive hides them. -/
theorem Markers.fate_eq_kept_iff {marks : Markers} {named : List (String × String)} :
    marks.fate named = .kept ↔ marks.hides named = false := by
  simp [fate, foldl_fateAfter_eq_kept_iff]

/-- The text that stands below an element in the end is that of one of its directives. -/
theorem Markers.mem_of_foldl_fateAfter {marks : Markers} {fate : Markers.Fate}
    {named : List (String × String)} {expression : String}
    (h : named.foldl marks.fateAfter fate = .replaced expression) :
    fate = .replaced expression ∨
      ∃ name, (name, expression) ∈ named ∧ marks.directive? name = some .text := by
  induction named generalizing fate with
  | nil => exact .inl h
  | cons first rest ih =>
    rcases ih h with e | ⟨name, mem, text⟩
    · rcases hd : marks.directive? first.1 with _ | (_ | _ | _ | _)
      case some.text =>
        simp only [fateAfter, hd, Fate.replaced.injEq] at e
        exact .inr ⟨first.1, by simp [← e], hd⟩
      all_goals simp_all [fateAfter]
    · exact .inr ⟨name, List.mem_cons_of_mem _ mem, text⟩

namespace Item

/-- The demands among items. -/
def asked (items : List Item) : List Demand :=
  items.flatMap fun
    | .demand d => [d]
    | .echo _ _ => []

theorem asked_append (a b : List Item) : asked (a ++ b) = asked a ++ asked b :=
  List.flatMap_append

theorem asked_map_demand (demands : List Demand) : asked (demands.map .demand) = demands := by
  induction demands with
  | nil => rfl
  | cons d rest ih => exact congrArg (d :: ·) ih

/-- Every echo comes after the directive that puts its text. -/
def Announced (items : List Item) : Prop :=
  ∀ before n expression later, items = before ++ .echo n expression :: later →
    ∃ m origin, .demand (.value m (.directive .text) expression origin) ∈ before

theorem announced_map_demand (demands : List Demand) : Announced (demands.map .demand) := by
  intro before n expression later e
  have mem : Item.echo n expression ∈ demands.map Item.demand := e ▸ by simp
  obtain ⟨_, _, e⟩ := List.mem_map.mp mem
  cases e

theorem Announced.append {a b : List Item} (ha : Announced a) (hb : Announced b) :
    Announced (a ++ b) := by
  intro before n expression later split
  rcases List.append_eq_append_iff.mp split with ⟨more, rfl, eb⟩ | ⟨more, ea, eb⟩
  · obtain ⟨m, origin, mem⟩ := hb more n expression later eb
    exact ⟨m, origin, List.mem_append_right _ mem⟩
  · cases more with
    | nil =>
      obtain ⟨m, origin, mem⟩ := hb [] n expression later (by simpa using eb.symm)
      cases mem
    | cons first more =>
      rw [List.cons_append, List.cons.injEq] at eb
      obtain ⟨rfl, rfl⟩ := eb
      exact ha before n expression more ea

/-- An echo may come last if its directive is there. -/
theorem Announced.snoc {a : List Item} (ha : Announced a) {m n : NodeId}
    {expression origin : String}
    (mem : .demand (.value m (.directive .text) expression origin) ∈ a) :
    Announced (a ++ [.echo n expression]) := by
  intro before n' expression' later split
  rcases List.eq_nil_or_concat later with rfl | ⟨more, last, rfl⟩
  · obtain ⟨rfl, e⟩ := List.append_inj' split rfl
    cases e
    exact ⟨m, origin, mem⟩
  · rw [List.concat_eq_append, ← List.cons_append, ← List.append_assoc] at split
    obtain ⟨rfl, -⟩ := List.append_inj' split rfl
    exact ha before n' expression' more rfl

end Item

namespace Tree

variable {marks : Markers}

/-- The `text` directive of an element is one of its demands. -/
theorem mem_own_of_fate (n : NodeId) (below : List Tree) {content : Option Content}
    {expression : String} (fate : marks.fate (attributesOf content) = .replaced expression) :
    ∃ origin, .value n (.directive .text) expression origin ∈
      (Tree.node n content below).own marks := by
  rcases Markers.mem_of_foldl_fateAfter fate with e | ⟨name, mem, text⟩
  · cases e
  rcases content with _ | ⟨tag, named, properties, markup⟩ | s | s
  case some.element =>
    refine ⟨name, List.mem_flatMap.mpr ⟨(name, expression), mem, ?_⟩⟩
    unfold Markers.directive? at text
    unfold Markers.ofAttribute
    split at text
    · rename_i kind argument classified
      simp [classified, text]
    · cases text
  all_goals cases mem

mutual

/-- The items of a tree ask for what is read, and each echo among them is announced. -/
theorem asked_items : ∀ (t : Tree) (size : Nat),
    Item.asked (t.items marks size) = t.asks marks ∧ Item.Announced (t.items marks size)
  | .node n content below, size => by
    rw [items, asks, Item.asked_append, Item.asked_map_demand]
    have own := Item.announced_map_demand ((Tree.node n content below).own marks)
    rcases fate : marks.fate (attributesOf content) with _ | _ | expression
    · obtain ⟨asked, announced⟩ := asked_itemsAll below (size + marks.puts (attributesOf content))
      simp only [Markers.fate_eq_kept_iff.mp fate, Bool.false_eq_true, if_false, asked, true_and]
      exact own.append announced
    · have hides : marks.hides (attributesOf content) = true := by
        rw [← Bool.not_eq_false, ← Markers.fate_eq_kept_iff, fate]
        nofun
      simp only [hides, if_true, List.append_nil]
      exact ⟨List.append_nil _, own⟩
    · have hides : marks.hides (attributesOf content) = true := by
        rw [← Bool.not_eq_false, ← Markers.fate_eq_kept_iff, fate]
        nofun
      simp only [hides, if_true]
      obtain ⟨origin, mem⟩ := mem_own_of_fate n below fate
      exact ⟨rfl, own.snoc (List.mem_map_of_mem mem)⟩

theorem asked_itemsAll : ∀ (ts : List Tree) (size : Nat),
    Item.asked (itemsOfAll marks size ts) = asksAll marks ts ∧
      Item.Announced (itemsOfAll marks size ts)
  | [], size => ⟨rfl, fun before _ _ _ e => by cases before <;> cases e⟩
  | t :: rest, size => by
    obtain ⟨asked, announced⟩ := asked_items t size
    obtain ⟨asked', announced'⟩ := asked_itemsAll rest (size + t.puts marks)
    rw [itemsOfAll, asksAll, Item.asked_append, asked, asked']
    exact ⟨rfl, announced.append announced'⟩

end

end Tree

/-! ## Settling what is read -/

namespace Demand

variable {defines : String → Bool}

theorem isMet_iff {d : Demand} : d.isMet defines = true ↔ ∃ b, d.settle defines = .ok b := by
  cases d with
  | value n kind expression origin =>
    rcases h : KeyPath.parse expression with cause | path <;> simp [isMet, settle, h]
  | event n name method =>
    rcases h : defines method with _ | _ <;> simp [isMet, settle, h]

/-- All demands are settled exactly if each of them can be met. -/
theorem settleAll_ok_iff {demands : List Demand} :
    (∃ bounds, settleAll defines demands = .ok bounds) ↔ ∀ d ∈ demands, d.isMet defines = true := by
  induction demands with
  | nil => exact ⟨fun _ _ h => (by cases h), fun _ => ⟨[], rfl⟩⟩
  | cons d rest ih =>
    rw [settleAll_cons, List.forall_mem_cons, isMet_iff, ← ih]
    rcases d.settle defines with e | b
    · simp
    · rcases settleAll defines rest with e | bounds <;> simp [Except.map]

/-- What cannot be settled fails with the fault of the first demand that cannot be met. -/
theorem exists_of_settleAll_error {demands : List Demand} {e : CompileError}
    (h : settleAll defines demands = .error e) : ∃ before d later, demands = before ++ d :: later ∧
      (∀ b ∈ before, b.isMet defines = true) ∧ d.settle defines = .error e := by
  induction demands with
  | nil => cases h
  | cons d rest ih =>
    rw [settleAll_cons] at h
    rcases hd : d.settle defines with e' | b
    · rw [hd] at h
      cases h
      exact ⟨[], d, rest, rfl, nofun, hd⟩
    · rw [hd] at h
      rcases hr : settleAll defines rest with e' | bounds
      · rw [hr] at h
        cases h
        obtain ⟨before, d', later, rfl, met, fault⟩ := ih hr
        exact ⟨d :: before, d', later, rfl, List.forall_mem_cons.mpr ⟨isMet_iff.mpr ⟨b, hd⟩, met⟩,
          fault⟩
      · rw [hr] at h
        cases h

end Demand

namespace Item

variable {marks : Markers} {defines : String → Bool} {shown : String → String}

/-- Where no echo that is reached holds a marker, items come to what they ask for. -/
theorem settleAll_of_silent {items : List Item}
    (silent : ∀ before n expression later, items = before ++ .echo n expression :: later →
      (∀ d ∈ asked before, d.isMet defines = true) → marks.interpolation (shown expression) = none) :
    Demand.settleAll defines (items.flatMap (·.demands marks shown)) =
      Demand.settleAll defines (asked items) := by
  induction items with
  | nil => rfl
  | cons first rest ih =>
    cases first with
    | demand d =>
      change Demand.settleAll defines (d :: rest.flatMap _) = Demand.settleAll defines (d :: asked rest)
      rw [Demand.settleAll_cons, Demand.settleAll_cons]
      rcases hd : d.settle defines with e | b
      · rfl
      · have met : d.isMet defines = true := Demand.isMet_iff.mpr ⟨b, hd⟩
        rw [ih fun before n expression later split all =>
          silent (.demand d :: before) n expression later (congrArg _ split)
            (List.forall_mem_cons.mpr ⟨met, all⟩)]
    | echo n expression =>
      have none := silent [] n expression rest rfl nofun
      have nothing : marks.ofText n (shown expression) = [] := by simp only [Markers.ofText, none]
      change Demand.settleAll defines (marks.ofText n (shown expression) ++ rest.flatMap _) =
        Demand.settleAll defines (asked rest)
      rw [nothing, List.nil_append]
      exact ih fun before n' expression' later split =>
        silent (.echo n expression :: before) n' expression' later (congrArg _ split)

end Item

namespace World

variable {w : World} {marks : Markers} {vm : ViewModel} {root : NodeId}

/-- Without a marker in the texts that are put, a template comes to what is read. -/
theorem outcome_eq_of_silent (forest : w.page.Forest)
    (silent : ∀ text ∈ w.putTexts marks vm root, marks.interpolation text = none) :
    w.outcome marks vm root = Demand.settleAll (w.defines vm) (w.page.asks marks root) := by
  obtain ⟨asked, announced⟩ := @Tree.asked_itemsAll marks (w.page.below root) w.page.nodes.size
  rw [outcome_eq forest, demands, Page.items, Item.settleAll_of_silent, asked, Page.asks]
  intro before n expression later split met
  obtain ⟨m, origin, mem⟩ := announced before n expression later split
  have put : Demand.value m (.directive .text) expression origin ∈ Item.asked before :=
    List.mem_flatMap.mpr ⟨_, mem, List.mem_singleton_self _⟩
  refine silent _ (List.mem_filterMap.mpr ⟨.value m (.directive .text) expression origin, ?_, rfl⟩)
  rw [Page.asks, ← asked, split, Item.asked_append, List.takeWhile_append_of_pos met]
  exact List.mem_append_left _ put

end World

/-! ## The walk -/

namespace Compile

variable {marks : Markers} {vm : ViewModel} {w₀ : World}

/-- The walk over a list of nodes, with no bound on its depth: each node is compiled, then all that
stands below it by then. The first fault ends the walk. -/
inductive Walks (marks : Markers) (vm : ViewModel) :
    List NodeId → Draft → Except CompileError Unit × Draft → Prop
  | done {d : Draft} : Walks marks vm [] d (.ok (), d)
  | fault {n : NodeId} {rest : List NodeId} {d d' : Draft} {e : CompileError}
      (here : (compileNode marks vm n).on d = (.error e, d')) :
      Walks marks vm (n :: rest) d (.error e, d')
  | faultBelow {n : NodeId} {rest : List NodeId} {d d' d'' : Draft} {e : CompileError}
      (here : (compileNode marks vm n).on d = (.ok (), d'))
      (below : Walks marks vm (d'.world.page.children n) d' (.error e, d'')) :
      Walks marks vm (n :: rest) d (.error e, d'')
  | next {n : NodeId} {rest : List NodeId} {d d' d'' : Draft} {r : Except CompileError Unit × Draft}
      (here : (compileNode marks vm n).on d = (.ok (), d'))
      (below : Walks marks vm (d'.world.page.children n) d' (.ok (), d''))
      (later : Walks marks vm rest d'' r) : Walks marks vm (n :: rest) d r

/-- A part that succeeds leaves what its demands bind. -/
theorem Yields.of_run {a : Compile Unit} {d d' : Draft} {demands : List Demand}
    {Q : Page Response → Prop} (yields : Yields w₀ vm a d demands Q) (run : a.on d = (.ok (), d')) :
    d'.From w₀ ∧ Q d'.world.page := by
  rcases settled : Demand.settleAll (w₀.defines vm) demands with e | bounds
  · have failed := yields.fails e settled
    rw [run] at failed
    cases failed
  · obtain ⟨d'', run', drawn, _, page⟩ := yields.binds bounds settled
    rw [run] at run'
    cases run'
    exact ⟨drawn, page⟩

theorem on_compileBelow_of_leaf {n : NodeId} {d : Draft} (leaf : d.world.page.children n = [])
    (fuel : Nat) : (compileBelow marks vm fuel n).on d = (.ok (), d) := by
  cases fuel with
  | zero => rfl
  | succ fuel =>
    rw [on_compileBelow_succ, leaf]
    rfl

/-- A walk goes on from node to node. -/
theorem Walks.cons {n : NodeId} {rest : List NodeId} {d : Draft} {fuel : Nat}
    (below : ∀ d', (compileNode marks vm n).on d = (.ok (), d') →
      Walks marks vm (d'.world.page.children n) d' ((compileBelow marks vm fuel n).on d'))
    (later : ∀ d', (compileTree marks vm fuel n).on d = (.ok (), d') →
      Walks marks vm rest d' ((rest.forM (compileTree marks vm fuel)).on d')) :
    Walks marks vm (n :: rest) d (((n :: rest).forM (compileTree marks vm fuel)).on d) := by
  rw [on_forM_cons]
  rcases here : (compileNode marks vm n).on d with ⟨e | ⟨⟩, d'⟩
  · have tree : (compileTree marks vm fuel n).on d = (.error e, d') := by
      rw [compileTree, on_bind, here]
    rw [tree]
    exact .fault here
  · have tree : (compileTree marks vm fuel n).on d = (compileBelow marks vm fuel n).on d' := by
      rw [compileTree, on_bind, here]
    have down := below d' here
    rcases run : (compileBelow marks vm fuel n).on d' with ⟨e | ⟨⟩, d''⟩
    · rw [run] at tree down
      rw [tree]
      exact .faultBelow here down
    · rw [run] at tree down
      have rest := later d'' tree
      rw [tree]
      exact .next here down rest

mutual

/-- If it is deep enough, the walk below a node is over before it comes to its bound. -/
theorem walks_below (marks : Markers) (vm : ViewModel) : ∀ {t : Tree} {fuel : Nat} {d d' : Draft},
    d.From w₀ → d.world.page.Holds t → t.ids.Nodup →
    (∀ m ∈ t.ids, m.index < d.world.page.nodes.size) → t.height ≤ fuel →
    t.height ≤ d.world.page.nodes.size → (compileNode marks vm t.id).on d = (.ok (), d') →
    Walks marks vm (d'.world.page.children t.id) d' ((compileBelow marks vm fuel t.id).on d')
  | .node n content below, 0, d, d', _, _, _, _, deep, _, _ => by simp [Tree.height] at deep
  | .node n content below, fuel + 1, d, d', drawn, holds, nodup, inside, deep, high, here => by
    rw [Tree.ids, List.nodup_cons] at nodup
    obtain ⟨hn, nodup'⟩ := nodup
    have belowDeep : Tree.heightOfAll below ≤ fuel := by simpa [Tree.height] using deep
    have belowHigh : Tree.heightOfAll below + 1 ≤ d.world.page.nodes.size := by
      simpa only [Tree.height] using high
    have later {m : NodeId} (hm : m ∈ Tree.idsOfAll below) :
        m.index < d.world.page.nodes.size := inside m (by simp [Tree.ids, hm])
    obtain ⟨drawn', spares, size, kids⟩ := (yields_compileNode marks vm drawn holds high).of_run here
    have grown := spares.size
    rw [Tree.id, on_compileBelow_succ]
    rcases fate : marks.fate (Tree.attributesOf content) with _ | _ | expression
    · rw [fate] at kids
      rw [show d'.world.page.children n = below.map Tree.id from kids]
      have holds' : d'.world.page.HoldsAll below := holds.2.2.keep fun m hm =>
        spares.others m (fun e => hn (e ▸ hm)) (later hm)
      exact walks_trees marks vm drawn' holds' nodup'
        (fun m hm => Nat.lt_of_lt_of_le (later hm) grown) belowDeep (by omega)
    · rw [fate] at kids
      rw [show d'.world.page.children n = [] from kids]
      exact .done
    · rw [fate] at kids
      obtain ⟨child, face⟩ := kids
      rw [child]
      have leaf := Page.holds_of_face face
      refine .cons (fun d'' echo => ?_) fun d'' _ => .done
      have none := ((yields_compileNode marks vm drawn' leaf.1 leaf.2).of_run echo).2.2.2
      rw [on_compileBelow_of_leaf none, show d''.world.page.children _ = [] from none]
      exact .done

theorem walks_trees (marks : Markers) (vm : ViewModel) : ∀ {ts : List Tree} {fuel : Nat}
    {d : Draft}, d.From w₀ → d.world.page.HoldsAll ts → (Tree.idsOfAll ts).Nodup →
    (∀ m ∈ Tree.idsOfAll ts, m.index < d.world.page.nodes.size) → Tree.heightOfAll ts ≤ fuel →
    Tree.heightOfAll ts ≤ d.world.page.nodes.size →
    Walks marks vm (ts.map Tree.id) d (((ts.map Tree.id).forM (compileTree marks vm fuel)).on d)
  | [], fuel, d, _, _, _, _, _, _ => .done
  | t :: rest, fuel, d, drawn, holds, nodup, inside, deep, high => by
    simp only [Tree.heightOfAll, Nat.max_le] at deep high
    rw [Tree.idsOfAll, List.nodup_append] at nodup
    obtain ⟨nodup₁, nodup₂, apart⟩ := nodup
    have here {m : NodeId} (hm : m ∈ t.ids) : m.index < d.world.page.nodes.size :=
      inside m (by simp [Tree.idsOfAll, hm])
    have later {m : NodeId} (hm : m ∈ Tree.idsOfAll rest) : m.index < d.world.page.nodes.size :=
      inside m (by simp [Tree.idsOfAll, hm])
    refine .cons (fun d' run => walks_below marks vm drawn holds.1 nodup₁ (fun _ hm => here hm)
      deep.1 high.1 run) fun d' run => ?_
    obtain ⟨drawn', within⟩ := (yields_tree marks vm drawn holds.1 nodup₁ (fun _ hm => here hm)
      deep.1 high.1).of_run run
    have size := within.size
    have holds' : d'.world.page.HoldsAll rest := holds.2.keep fun m hm =>
      within.others m (fun hm' => apart m hm' m hm rfl) (later hm)
    exact walks_trees marks vm drawn' holds' nodup₂
      (fun m hm => Nat.lt_of_lt_of_le (later hm) (by omega)) deep.2 (by omega)

end

end Compile

/-! ## The order of the bindings -/

namespace World

variable {w : World} {marks : Markers} {vm : ViewModel} {root : NodeId}

/-- The draft that a compilation ends with. -/
def draft (w : World) (marks : Markers) (vm : ViewModel) (root : NodeId) :
    Except CompileError Unit × Draft :=
  (Compile.compileBelow marks vm (w.page.nodes.size + 2) root).on ⟨w, []⟩

theorem compile_eq_draft : w.compile marks vm root = ((w.draft marks vm root).2.world,
    (w.draft marks vm root).1.map fun _ => (w.draft marks vm root).2.wiring) :=
  compile_eq w marks vm root

/-- The walk of a compilation ends, and never for want of depth. -/
theorem walks_draft (forest : w.page.Forest) (marks : Markers) (vm : ViewModel) (root : NodeId) :
    Compile.Walks marks vm (w.page.children root) ⟨w, []⟩ (w.draft marks vm root) := by
  have drawn : Draft.From w ⟨w, []⟩ := ⟨.refl, nofun⟩
  obtain ⟨holds, nodup, inside, high⟩ := forest.holds_below root
  have walks := Compile.walks_trees marks vm drawn holds nodup inside (Nat.le_succ_of_le high) high
  rw [w.page.map_id_below] at walks
  rwa [draft, Compile.on_compileBelow_succ]

/-- What is bound is bound as it was asked for. -/
theorem meets_of_settle {d : Draft} (drawn : d.From w) {b : Binding} (hb : b ∈ d.wiring)
    {defines : String → Bool} {demand : Demand}
    (settled : demand.settle defines = .ok (Bound.of d.world b)) : b.Meets d.world demand := by
  obtain ⟨n, kind, watcher⟩ := b
  have there {id : WatcherId} (hw : watcher = some id) :
      ∃ found, d.world.watcher? id = some found := by
    obtain ⟨pos, le⟩ := drawn.watchers ⟨n, kind, watcher⟩ hb id hw
    have lt : id.index - 1 < d.world.watchers.size := by omega
    exact ⟨d.world.watchers[id.index - 1], Array.getElem?_eq_getElem lt⟩
  cases demand with
  | value m kind' expression origin =>
    rcases parsed : KeyPath.parse expression with cause | path
    · simp [Demand.settle, parsed] at settled
    · simp only [Demand.settle, parsed, Bound.of, Except.ok.injEq, Bound.mk.injEq] at settled
      obtain ⟨rfl, rfl, text⟩ := settled
      obtain ⟨found, hf, text⟩ := Option.map_eq_some_iff.mp text.symm
      obtain ⟨id, hw, hf⟩ := Option.bind_eq_some_iff.mp hf
      exact ⟨rfl, rfl, id, found, path, hw, hf, parsed, text⟩
  | event m event method =>
    simp only [Demand.settle] at settled
    split at settled
    · simp only [Bound.of, Except.ok.injEq, Bound.mk.injEq] at settled
      obtain ⟨rfl, rfl, nobody⟩ := settled
      rcases watcher with _ | id
      · rfl
      · obtain ⟨found, hf⟩ := there rfl
        simp [hf] at nobody
    · cases settled

/-- Bindings that come of settling meet the demands one by one. -/
theorem forall₂_meets {d : Draft} (drawn : d.From w) {defines : String → Bool}
    {wiring : List Binding} (sub : ∀ b ∈ wiring, b ∈ d.wiring) {demands : List Demand}
    (settled : Demand.settleAll defines demands = .ok (wiring.map (Bound.of d.world))) :
    List.Forall₂ (·.Meets d.world) wiring demands := by
  induction demands generalizing wiring with
  | nil =>
    have nothing : wiring = [] := List.map_eq_nil_iff.mp (Except.ok.inj settled).symm
    exact nothing ▸ .nil
  | cons demand rest ih =>
    rw [Demand.settleAll_cons] at settled
    rcases first : demand.settle defines with e | bound
    · simp [first] at settled
    rcases others : Demand.settleAll defines rest with e | bounds
    · simp [first, others, Except.map] at settled
    simp only [first, others, Except.map, Except.ok.injEq] at settled
    obtain ⟨b, later, rfl, rfl, rfl⟩ := List.map_eq_cons_iff.mp settled.symm
    rw [List.forall_mem_cons] at sub
    exact .cons (meets_of_settle drawn sub.1 first) (ih sub.2 others)

/-- A template is bound in document order. Unless a text that is put below an element holds a marker, the
walk over a forest ends, with or without a fault. It has none exactly if every demand that is read can be
met; then there is one binding for each demand, in this order. Otherwise the fault is that of the first
demand that cannot be met. -/
theorem template_is_bound_in_document_order (forest : w.page.Forest) (marks : Markers)
    (vm : ViewModel) (root : NodeId)
    (silent : ∀ text ∈ w.putTexts marks vm root, marks.interpolation text = none) :
    (∃ draft, Compile.Walks marks vm (w.page.children root) ⟨w, []⟩ draft ∧
      w.compile marks vm root = (draft.2.world, draft.1.map fun _ => draft.2.wiring)) ∧
    ((∃ wiring, (w.compile marks vm root).2 = .ok wiring) ↔
      ∀ d ∈ w.page.asks marks root, d.isMet (w.defines vm) = true) ∧
    (∀ wiring, (w.compile marks vm root).2 = .ok wiring →
      List.Forall₂ (·.Meets (w.compile marks vm root).1) wiring (w.page.asks marks root)) ∧
    ∀ e, (w.compile marks vm root).2 = .error e →
      ∃ before d later, w.page.asks marks root = before ++ d :: later ∧
        (∀ b ∈ before, b.isMet (w.defines vm) = true) ∧ d.settle (w.defines vm) = .error e := by
  have settles := outcome_eq_of_silent forest silent
  unfold outcome at settles
  refine ⟨⟨_, walks_draft forest marks vm root, compile_eq_draft⟩, ?_, ?_, ?_⟩
  · rw [← Demand.settleAll_ok_iff, ← settles]
    rcases (w.compile marks vm root).2 with e | wiring <;> simp [Except.map]
  · intro wiring ok
    rw [ok] at settles
    rcases run : w.draft marks vm root with ⟨e | ⟨⟩, d⟩
    · simp [compile_eq_draft, run, Except.map] at ok
    · have drawn := ((yields_compile forest marks vm root).of_run run).1
      simp only [compile_eq_draft, run, Except.map, Except.ok.injEq] at ok settles ⊢
      exact forall₂_meets drawn (fun b hb => ok ▸ hb) settles.symm
  · intro e failed
    rw [failed] at settles
    exact Demand.exists_of_settleAll_error settles.symm

theorem asks_note (message : String) : (note message).page.asks .standard ⟨1⟩ =
    [.value ⟨0⟩ (.directive .text) "msg" "v-text"] := by
  change (note "").page.asks .standard ⟨1⟩ = _
  cbv

theorem putTexts_note (message : String) :
    (note message).putTexts .standard ⟨⟨0⟩, ⟨0⟩⟩ ⟨1⟩ = [message] := by
  have met : Demand.isMet ((note message).defines ⟨⟨0⟩, ⟨0⟩⟩)
      (.value ⟨0⟩ (.directive .text) "msg" "v-text") = true := rfl
  simp [putTexts, asks_note, met, Demand.put?, shown_note]

/-- The paragraph of a plain note is bound as it was asked for. -/
theorem plain_note_is_bound :
    (∀ text ∈ (note "plain").putTexts .standard ⟨⟨0⟩, ⟨0⟩⟩ ⟨1⟩,
      Markers.standard.interpolation text = none) ∧
    ∃ wiring, ((note "plain").compile .standard ⟨⟨0⟩, ⟨0⟩⟩ ⟨1⟩).2 = .ok wiring ∧
      List.Forall₂ (·.Meets ((note "plain").compile .standard ⟨⟨0⟩, ⟨0⟩⟩ ⟨1⟩).1) wiring
        [.value ⟨0⟩ (.directive .text) "msg" "v-text"] := by
  have silent : ∀ text ∈ (note "plain").putTexts .standard ⟨⟨0⟩, ⟨0⟩⟩ ⟨1⟩,
      Markers.standard.interpolation text = none := by
    rw [putTexts_note]
    exact List.forall_mem_singleton.mpr rfl
  obtain ⟨-, binds, meets, -⟩ :=
    template_is_bound_in_document_order (forest_note "plain") .standard ⟨⟨0⟩, ⟨0⟩⟩ ⟨1⟩ silent
  rw [asks_note] at binds meets
  obtain ⟨wiring, ok⟩ := binds.mpr (List.forall_mem_singleton.mpr rfl)
  exact ⟨silent, wiring, ok, meets wiring ok⟩

end World

end DataBinding
