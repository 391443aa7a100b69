-- Echoes: the texts that are put below elements while a template is compiled, and are compiled in turn.
-- They are the only way from the model to what is bound. Without a marker in any of them a template binds
-- what it asks for by itself; two models bind alike exactly where their echoes are bound alike.
import DataBinding.Proofs.Template.Outcomes
import Mathlib

namespace DataBinding

/-! ## Items and nodes -/

namespace Item

def isEcho : Item → Bool
  | .demand _ => false
  | .echo _ _ => true

theorem node_of_mem_ofText {marks : Markers} {n : NodeId} {text : String} {d : Demand}
    (hd : d ∈ marks.ofText n text) : d.node = n := by
  unfold Markers.ofText at hd
  split at hd
  · cases hd
  · rw [List.mem_singleton.mp hd]
    rfl

theorem node_of_mem_ofAttribute {marks : Markers} {n : NodeId} {name value : String} {d : Demand}
    (hd : d ∈ marks.ofAttribute n name value) : d.node = n := by
  unfold Markers.ofAttribute at hd
  split at hd
  · cases hd
  · rw [List.mem_singleton.mp hd]
    rfl
  · split at hd
    · cases hd
    · rw [List.mem_singleton.mp hd]
      rfl

/-- All that an item asks for is asked for at its node. -/
theorem node_of_mem_demands {marks : Markers} {shown : String → String} {i : Item} {d : Demand}
    (hd : d ∈ i.demands marks shown) : d.node = i.node := by
  cases i with
  | demand d' =>
    rw [List.mem_singleton.mp hd]
    rfl
  | echo n expression => exact node_of_mem_ofText hd

/-- If one of two items is an echo, they are about different nodes. -/
def Apart (a b : Item) : Prop := a.isEcho ∨ b.isEcho → a.node ≠ b.node

end Item

namespace Tree

variable {marks : Markers}

theorem node_of_mem_own {t : Tree} {d : Demand} (hd : d ∈ t.own marks) : d.node = t.id := by
  obtain ⟨n, content, below⟩ := t
  rcases content with _ | ⟨tag, named, properties, markup⟩ | s | s
  · cases hd
  · obtain ⟨⟨name, value⟩, _, hd⟩ := List.mem_flatMap.mp hd
    exact Item.node_of_mem_ofAttribute hd
  · exact Item.node_of_mem_ofText hd
  · cases hd

mutual

/-- Demands are about the nodes of the tree, and echoes about the new ones. -/
theorem node_of_mem_items : ∀ {t : Tree} {size : Nat} {i : Item}, i ∈ t.items marks size →
    (i.isEcho = false → i.node ∈ t.ids) ∧
      (i.isEcho = true → size ≤ i.node.index ∧ i.node.index < size + t.puts marks)
  | .node n content below, size, i, hi => by
    rw [items, List.mem_append] at hi
    rcases hi with hi | hi
    · obtain ⟨d, hd, rfl⟩ := List.mem_map.mp hi
      refine ⟨fun _ => ?_, nofun⟩
      rw [ids]
      exact List.mem_cons.mpr (.inl (node_of_mem_own hd))
    · rcases fate : marks.fate (attributesOf content) with _ | _ | expression
      · rw [fate] at hi
        obtain ⟨old, new⟩ := node_of_mem_itemsOfAll hi
        refine ⟨fun h => ?_, fun h => ?_⟩
        · rw [ids]
          exact List.mem_cons_of_mem _ (old h)
        · have := new h
          simp only [puts, fate]
          omega
      · rw [fate] at hi
        cases hi
      · rw [fate] at hi
        rw [List.mem_singleton.mp hi]
        refine ⟨nofun, fun _ => ?_⟩
        have := Markers.puts_pos fate
        simp only [puts, fate, Item.node]
        omega

theorem node_of_mem_itemsOfAll : ∀ {ts : List Tree} {size : Nat} {i : Item},
    i ∈ itemsOfAll marks size ts →
    (i.isEcho = false → i.node ∈ idsOfAll ts) ∧
      (i.isEcho = true → size ≤ i.node.index ∧ i.node.index < size + putsOfAll marks ts)
  | [], _, _, hi => by cases hi
  | t :: rest, size, i, hi => by
    rw [itemsOfAll, List.mem_append] at hi
    rcases hi with hi | hi
    · obtain ⟨old, new⟩ := node_of_mem_items hi
      refine ⟨fun h => ?_, fun h => ?_⟩
      · rw [idsOfAll]
        exact List.mem_append_left _ (old h)
      · have := new h
        simp only [putsOfAll]
        omega
    · obtain ⟨old, new⟩ := node_of_mem_itemsOfAll hi
      refine ⟨fun h => ?_, fun h => ?_⟩
      · rw [idsOfAll]
        exact List.mem_append_right _ (old h)
      · have := new h
        simp only [putsOfAll]
        omega

end

/-- Items of different parts of a page are apart: the nodes that are there are among the first so many,
and new ones are counted on. -/
theorem apart_of_parts (count middle : Nat) {a b : Item}
    (ha : (a.isEcho = false → a.node.index < count) ∧
      (a.isEcho = true → count ≤ a.node.index ∧ a.node.index < middle))
    (hb : (b.isEcho = false → b.node.index < count) ∧ (b.isEcho = true → middle ≤ b.node.index))
    (le : count ≤ middle) : a.Apart b := by
  rintro echo e
  rw [← e] at hb
  rcases hae : a.isEcho with _ | _
  · rcases hbe : b.isEcho with _ | _
    · simp [hae, hbe] at echo
    · have := ha.1 hae
      have := hb.2 hbe
      omega
  · have := ha.2 hae
    rcases hbe : b.isEcho with _ | _
    · have := hb.1 hbe
      omega
    · have := hb.2 hbe
      omega

mutual

theorem pairwise_items {count : Nat} : ∀ {t : Tree} {size : Nat},
    (∀ m ∈ t.ids, m.index < count) → count ≤ size → (t.items marks size).Pairwise Item.Apart
  | .node n content below, size, inside, le => by
    rw [items, List.pairwise_append]
    have here : n.index < count := inside n (by simp [ids])
    have later (m : NodeId) (hm : m ∈ idsOfAll below) : m.index < count :=
      inside m (by simp [ids, hm])
    refine ⟨?_, ?_, ?_⟩
    · rw [List.pairwise_map]
      exact List.pairwise_of_forall fun _ _ echo => by rcases echo with echo | echo <;> cases echo
    · rcases marks.fate (attributesOf content) with _ | _ | expression
      · exact pairwise_itemsOfAll later (Nat.le_add_right_of_le le)
      · exact .nil
      · exact List.pairwise_singleton ..
    · intro a ha b hb
      obtain ⟨d, hd, rfl⟩ := List.mem_map.mp ha
      refine apart_of_parts count size ⟨fun _ => ?_, nofun⟩ ?_ le
      · exact (congrArg NodeId.index (node_of_mem_own hd)).trans_lt here
      · rcases fate : marks.fate (attributesOf content) with _ | _ | expression
        · rw [fate] at hb
          obtain ⟨old, new⟩ := node_of_mem_itemsOfAll hb
          exact ⟨fun h => later _ (old h), fun h => by have := new h; omega⟩
        · rw [fate] at hb
          cases hb
        · rw [fate] at hb
          rw [List.mem_singleton.mp hb]
          have := Markers.puts_pos fate
          exact ⟨nofun, fun _ => by simp only [Item.node]; omega⟩

theorem pairwise_itemsOfAll {count : Nat} : ∀ {ts : List Tree} {size : Nat},
    (∀ m ∈ idsOfAll ts, m.index < count) → count ≤ size →
    (itemsOfAll marks size ts).Pairwise Item.Apart
  | [], _, _, _ => .nil
  | t :: rest, size, inside, le => by
    rw [itemsOfAll, List.pairwise_append]
    have here (m : NodeId) (hm : m ∈ t.ids) : m.index < count := inside m (by simp [idsOfAll, hm])
    have later (m : NodeId) (hm : m ∈ idsOfAll rest) : m.index < count :=
      inside m (by simp [idsOfAll, hm])
    refine ⟨pairwise_items here le, pairwise_itemsOfAll later (Nat.le_add_right_of_le le), ?_⟩
    intro a ha b hb
    obtain ⟨old, new⟩ := node_of_mem_items ha
    obtain ⟨old', new'⟩ := node_of_mem_itemsOfAll hb
    refine apart_of_parts count (size + t.puts marks)
      ⟨fun h => here _ (old h), fun h => ?_⟩ ⟨fun h => later _ (old' h), fun h => (new' h).1⟩
      (Nat.le_add_right_of_le le)
    have := new h
    omega

end

end Tree

/-! ## Settling items -/

section Settling

variable {marks : Markers} {defines : String → Bool} {shown shown' : String → String}

/-- Items that settle alike one by one settle alike together. -/
theorem settleAll_congr {items : List Item}
    (alike : ∀ i ∈ items, Demand.settleAll defines (i.demands marks shown') =
      Demand.settleAll defines (i.demands marks shown)) :
    Demand.settleAll defines (items.flatMap (·.demands marks shown')) =
      Demand.settleAll defines (items.flatMap (·.demands marks shown)) := by
  induction items with
  | nil => rfl
  | cons first rest ih =>
    rw [List.flatMap_cons, List.flatMap_cons, Demand.settleAll_append, Demand.settleAll_append,
      alike first (List.mem_cons_self ..), ih fun i hi => alike i (List.mem_cons_of_mem _ hi)]

theorem settleAll_append_ok {a b : List Demand} {bounds : List Bound}
    (h : Demand.settleAll defines (a ++ b) = .ok bounds) :
    ∃ left right, Demand.settleAll defines a = .ok left ∧ Demand.settleAll defines b = .ok right ∧
      bounds = left ++ right := by
  rw [Demand.settleAll_append] at h
  rcases ha : Demand.settleAll defines a with e | left
  · rw [ha] at h
    cases h
  · rcases hb : Demand.settleAll defines b with e | right
    · rw [ha, hb] at h
      cases h
    · rw [ha, hb] at h
      cases h
      exact ⟨left, right, rfl, rfl, rfl⟩

/-- What an echo comes to is what is bound at its node. -/
theorem settleAll_echo {items : List Item} (apart : items.Pairwise Item.Apart)
    {bounds : List Bound}
    (settled : Demand.settleAll defines (items.flatMap (·.demands marks shown)) = .ok bounds)
    {n : NodeId} {expression : String} (hi : .echo n expression ∈ items) :
    Demand.settleAll defines (marks.ofText n (shown expression)) =
      .ok (bounds.filter (·.node = n)) := by
  induction items generalizing bounds with
  | nil => cases hi
  | cons first rest ih =>
    rw [List.pairwise_cons] at apart
    rw [List.flatMap_cons] at settled
    obtain ⟨left, right, hl, hr, rfl⟩ := settleAll_append_ok settled
    rw [List.filter_append]
    rcases List.mem_cons.mp hi with rfl | hi
    · have mine : left.filter (·.node = n) = left := by
        refine List.filter_eq_self.mpr fun b hb => ?_
        obtain ⟨d, hd, e⟩ := Demand.node_of_settleAll hl hb
        have here : d.node = n := Item.node_of_mem_demands hd
        simp [e, here]
      have others : right.filter (·.node = n) = [] := by
        refine List.filter_eq_nil_iff.mpr fun b hb => ?_
        obtain ⟨d, hd, e⟩ := Demand.node_of_settleAll hr hb
        obtain ⟨i, hi, hd⟩ := List.mem_flatMap.mp hd
        have ne : n ≠ i.node := apart.1 i hi (.inl rfl)
        simp [e, Item.node_of_mem_demands hd, ne.symm]
      rw [mine, others, List.append_nil]
      exact hl
    · have others : left.filter (·.node = n) = [] := by
        refine List.filter_eq_nil_iff.mpr fun b hb => ?_
        obtain ⟨d, hd, e⟩ := Demand.node_of_settleAll hl hb
        have ne : first.node ≠ n := apart.1 _ hi (.inr rfl)
        simp [e, Item.node_of_mem_demands hd, ne]
      rw [others, List.nil_append]
      exact ih apart.2 hr hi

end Settling

/-! ## Echoes -/

namespace Page

variable {p p' : Page Response}

/-- The echoes below a node: the new nodes with the expressions whose texts they will hold. -/
def echoes (p : Page Response) (marks : Markers) (root : NodeId) : List (NodeId × String) :=
  (p.items marks root).filterMap fun
    | .demand _ => none
    | .echo n expression => some (n, expression)

/-- What the part of a page below a node asks for by itself. -/
def template (p : Page Response) (marks : Markers) (root : NodeId) : List Demand :=
  (p.items marks root).flatMap fun
    | .demand d => [d]
    | .echo _ _ => []

theorem mem_echoes_iff {marks : Markers} {root n : NodeId} {expression : String} :
    (n, expression) ∈ p.echoes marks root ↔ .echo n expression ∈ p.items marks root := by
  rw [echoes, List.mem_filterMap]
  constructor
  · rintro ⟨i, hi, e⟩
    cases i with
    | demand d => cases e
    | echo n' expression' =>
      cases e
      exact hi
  · exact fun hi => ⟨_, hi, rfl⟩

theorem pairwise_items (forest : p.Forest) (marks : Markers) (root : NodeId) :
    (p.items marks root).Pairwise Item.Apart :=
  Tree.pairwise_itemsOfAll (forest.holds_below root).2.2.1 (Nat.le_refl _)

/-- Pages with the same nodes ask for the same. -/
theorem items_congr (nodes : p'.nodes = p.nodes) (marks : Markers) (root : NodeId) :
    p'.items marks root = p.items marks root := by
  have contents : p'.content? = p.content? := by
    funext n
    simp only [content?, node?, nodes]
  have kids : p'.children = p.children := by
    funext n
    simp only [children, node?, nodes]
  have trees (fuel : Nat) : p'.tree fuel = p.tree fuel := by
    induction fuel with
    | zero =>
      funext n
      simp only [tree, contents]
    | succ fuel ih =>
      funext n
      simp only [tree, contents, kids, ih]
  simp only [items, below, nodes, kids, trees]

end Page

namespace World

/-- What the text that an echo holds comes to, be it a fault, nothing or a binding. -/
def echoed (w : World) (marks : Markers) (vm : ViewModel) (echo : NodeId × String) :
    Except CompileError (List Bound) :=
  Demand.settleAll (w.defines vm) (marks.ofText echo.1 (w.shown vm echo.2))

/-! ## A text that holds a marker -/

/-- A paragraph that shows a message, which is the given text; beside it, the model has an `x`. -/
def note (message : String) : World :=
  let page : Page Response :=
    ⟨#[⟨.element "p" [("v-text", "msg")] [] none, some ⟨1⟩, []⟩,
      ⟨.element "div" [] [] none, none, [⟨0⟩]⟩], []⟩
  let heap := (Heap.empty.newMap [("msg", .text message), ("x", .text "X")]).1
  (World.viewModelOf { World.empty with heap, page } ⟨0⟩).1

/-- A message that holds a marker. -/
def marked : String := "\x7b\x7bx\x7d\x7d"

theorem forest_note (message : String) : (note message).page.Forest := by
  have kids (n child : NodeId) (h : child ∈ (note message).page.children n) :
      n = ⟨1⟩ ∧ child = ⟨0⟩ := by
    obtain ⟨_ | _ | _⟩ := n
    · cases h
    · exact ⟨rfl, List.mem_singleton.mp h⟩
    · cases h
  refine ⟨?_, ?_, ?_⟩
  · intro n child h
    obtain ⟨rfl, rfl⟩ := kids n child h
    rfl
  · rintro ⟨_ | _ | _⟩
    · exact List.nodup_nil
    · exact List.nodup_singleton _
    · exact List.nodup_nil
  · refine Subrelation.wf (r := fun a b => a.index < b.index) ?_ (measure NodeId.index).wf
    intro child n h
    obtain ⟨rfl, rfl⟩ := kids n child h
    exact Nat.zero_lt_one

theorem items_note (message : String) : (note message).page.items .standard ⟨1⟩ =
    [.demand (.value ⟨0⟩ (.directive .text) "msg" "v-text"), .echo ⟨2⟩ "msg"] := by
  change (note "").page.items .standard ⟨1⟩ = _
  cbv

theorem shown_note (message : String) : (note message).shown ⟨⟨0⟩, ⟨0⟩⟩ "msg" = message := by
  have parsed : KeyPath.parse "msg" = .ok ⟨"msg", "msg", []⟩ := rfl
  simp only [shown, parsed]
  rfl

theorem outcome_note (message : String) : (note message).outcome .standard ⟨⟨0⟩, ⟨0⟩⟩ ⟨1⟩ =
    ((note message).echoed .standard ⟨⟨0⟩, ⟨0⟩⟩ (⟨2⟩, "msg")).map
      (⟨⟨0⟩, .directive .text, some "msg"⟩ :: ·) := by
  have parsed : KeyPath.parse "msg" = .ok ⟨"msg", "msg", []⟩ := rfl
  rw [outcome_eq (forest_note message), demands, items_note]
  simp only [List.flatMap_cons, List.flatMap_nil, List.append_nil, Item.demands, List.cons_append,
    List.nil_append, Demand.settleAll_cons, Demand.settle, parsed, echoed]

theorem echoed_note_plain : (note "plain").echoed .standard ⟨⟨0⟩, ⟨0⟩⟩ (⟨2⟩, "msg") = .ok [] := by
  rw [echoed, shown_note]
  rfl

theorem echoed_note_marked : (note marked).echoed .standard ⟨⟨0⟩, ⟨0⟩⟩ (⟨2⟩, "msg") =
    .ok [⟨⟨2⟩, .interpolation, some "x"⟩] := by
  rw [echoed, shown_note]
  rfl

/-! ## Two view models -/

/-- What is bound depends on the model by the echoes only. For two view models with the same methods
before the same page: if each echo comes to the same with both, so does the template; and if the
template can be bound with one, then it comes to the same with the other one exactly if each echo does. -/
theorem outcome_iff_echoes {w w' : World} {vm vm' : ViewModel} (forest : w.page.Forest)
    (nodes : w'.page.nodes = w.page.nodes)
    (methods : ∀ name, w'.defines vm' name = w.defines vm name) (marks : Markers)
    (root : NodeId) :
    ((∀ echo ∈ w.page.echoes marks root, w'.echoed marks vm' echo = w.echoed marks vm echo) →
      w'.outcome marks vm' root = w.outcome marks vm root) ∧
    ∀ bounds, w.outcome marks vm root = .ok bounds →
      (w'.outcome marks vm' root = .ok bounds ↔
        ∀ echo ∈ w.page.echoes marks root, w'.echoed marks vm' echo = w.echoed marks vm echo) := by
  have forest' := forest.congr nodes
  have defines : w'.defines vm' = w.defines vm := funext methods
  have items := Page.items_congr nodes marks root
  have eq := outcome_eq forest marks vm root
  have eq' := outcome_eq forest' marks vm' root
  rw [demands, items, defines] at eq'
  have alike (agree : ∀ echo ∈ w.page.echoes marks root,
      w'.echoed marks vm' echo = w.echoed marks vm echo) :
      w'.outcome marks vm' root = w.outcome marks vm root := by
    rw [eq, eq']
    refine settleAll_congr fun i hi => ?_
    cases i with
    | demand d => rfl
    | echo n expression =>
      have same := agree (n, expression) (Page.mem_echoes_iff.mpr hi)
      rwa [echoed, echoed, defines] at same
  refine ⟨alike, fun bounds ok => ⟨fun ok' => ?_, fun agree => (alike agree).trans ok⟩⟩
  rintro ⟨n, expression⟩ he
  have hi := Page.mem_echoes_iff.mp he
  have apart := Page.pairwise_items forest marks root
  rw [echoed, echoed, defines, settleAll_echo apart (eq'.symm.trans ok') hi,
    settleAll_echo apart (eq.symm.trans ok) hi]

/-- A marker in a text of the model is bound, so the two messages are not bound alike. -/
theorem notes_are_bound_unlike :
    (note "plain").outcome .standard ⟨⟨0⟩, ⟨0⟩⟩ ⟨1⟩ =
      .ok [⟨⟨0⟩, .directive .text, some "msg"⟩] ∧
    (note marked).outcome .standard ⟨⟨0⟩, ⟨0⟩⟩ ⟨1⟩ ≠
      .ok [⟨⟨0⟩, .directive .text, some "msg"⟩] := by
  have plain : (note "plain").outcome .standard ⟨⟨0⟩, ⟨0⟩⟩ ⟨1⟩ =
      .ok [⟨⟨0⟩, .directive .text, some "msg"⟩] := by
    rw [outcome_note, echoed_note_plain]
    rfl
  refine ⟨plain, fun same => ?_⟩
  have there : (⟨2⟩, "msg") ∈ (note "plain").page.echoes .standard ⟨1⟩ := by
    simp [Page.mem_echoes_iff, items_note]
  have nodes : (note marked).page.nodes = (note "plain").page.nodes := rfl
  have methods (name : String) : (note marked).defines ⟨⟨0⟩, ⟨0⟩⟩ name =
      (note "plain").defines ⟨⟨0⟩, ⟨0⟩⟩ name := rfl
  have exact' := outcome_iff_echoes (forest_note "plain") nodes methods .standard ⟨1⟩
  have alike := (exact'.2 _ plain).mp same (⟨2⟩, "msg") there
  rw [echoed_note_plain, echoed_note_marked] at alike
  cases alike

end World

end DataBinding
