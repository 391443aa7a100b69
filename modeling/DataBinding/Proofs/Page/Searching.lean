-- The search by a selector. It ends on every page that came about by edits, it finds a node whenever any
-- node of the page matches, under whatever root it stands, and what it finds is the first match in
-- document order.
import DataBinding.Proofs.Page.Order
import Mathlib

namespace DataBinding.Page

variable {ρ : Type} {p : Page ρ} {selector : String}

/-! ## Selectors -/

/-- What a selector asks of a node: to be an element with the id after `#`, which the first of its
`id` attributes gives, or to be an element with the tag. -/
inductive Matches (p : Page ρ) : String → NodeId → Prop where
  | ofId {n : NodeId} {id tag : String} {attributes properties : List (String × String)}
      {markup : Option String} (content : p.content? n = some (.element tag attributes properties markup))
      (first : attributes.lookup "id" = some id) : Matches p ("#" ++ id) n
  | ofTag {n : NodeId} {tag : String} {attributes properties : List (String × String)}
      {markup : Option String} (content : p.content? n = some (.element tag attributes properties markup))
      (plain : ∀ id, tag ≠ "#" ++ id) : Matches p tag n

theorem attribute?_eq_some_iff {n : NodeId} {name value : String} : p.attribute? n name = some value ↔
    ∃ tag attributes properties markup,
      p.content? n = some (.element tag attributes properties markup) ∧
        attributes.lookup name = some value := by
  rw [attribute?, attributes]
  rcases p.content? n with _ | (⟨tag, attributes, properties, markup⟩ | _ | _) <;> simp

theorem tag?_eq_some_iff {n : NodeId} {tag : String} : p.tag? n = some tag ↔
    ∃ attributes properties markup,
      p.content? n = some (.element tag attributes properties markup) := by
  rw [tag?]
  rcases p.content? n with _ | (⟨tag, attributes, properties, markup⟩ | _ | _) <;> simp

theorem fits_iff {n : NodeId} : p.fits selector n = true ↔ p.Matches selector n := by
  rw [fits]
  split
  · next id h =>
    have hash : selector = "#" ++ String.ofList id := String.toList_inj.mp (by simp [h])
    rw [decide_eq_true_iff, attribute?_eq_some_iff, hash]
    constructor
    · rintro ⟨tag, attributes, properties, markup, content, first⟩
      exact .ofId content first
    · generalize e : "#" ++ String.ofList id = s
      intro m
      cases m with
      | ofId content first =>
        have same := String.toList_inj.mpr e
        simp only [String.toList_append] at same
        obtain rfl := String.toList_inj.mp (List.append_cancel_left same)
        exact ⟨_, _, _, _, content, first⟩
      | ofTag _ plain => exact absurd e.symm (plain _)
  · next plain =>
    have plain' : ∀ id, selector ≠ "#" ++ id := by
      rintro id rfl
      exact plain id.toList (by simp)
    rw [decide_eq_true_iff, tag?_eq_some_iff]
    constructor
    · rintro ⟨attributes, properties, markup, content⟩
      exact .ofTag content plain'
    · intro m
      cases m with
      | ofId _ _ => exact absurd rfl (plain' _)
      | ofTag content _ => exact ⟨_, _, _, content⟩

/-! ## The search -/

/-- A search through nodes and all below them that has come to an end. -/
inductive Searches (p : Page ρ) (selector : String) : List NodeId → Option NodeId → Prop where
  | done : Searches p selector [] none
  | here {n : NodeId} {rest : List NodeId} (fits : p.fits selector n) :
      Searches p selector (n :: rest) (some n)
  | within {n m : NodeId} {rest : List NodeId} (fits : ¬p.fits selector n)
      (found : Searches p selector (p.children n) (some m)) :
      Searches p selector (n :: rest) (some m)
  | past {n : NodeId} {rest : List NodeId} {result : Option NodeId} (fits : ¬p.fits selector n)
      (nothing : Searches p selector (p.children n) none) (next : Searches p selector rest result) :
      Searches p selector (n :: rest) result

/-- Two searches of the same nodes end with the same result. -/
theorem Searches.unique {nodes : List NodeId} {a b : Option NodeId}
    (first : p.Searches selector nodes a) (second : p.Searches selector nodes b) : a = b := by
  induction first generalizing b with
  | done => cases second; rfl
  | here fits =>
    cases second with
    | here => rfl
    | within no => exact absurd fits no
    | past no => exact absurd fits no
  | within no _ ih =>
    cases second with
    | here fits => exact absurd fits no
    | within _ found => exact ih found
    | past _ nothing => cases ih nothing
  | past no _ _ ih ihNext =>
    cases second with
    | here fits => exact absurd fits no
    | within _ found => cases ih found
    | past _ _ next => exact ihNext next

/-- A search through trees ends, with the first of their nodes that fits. -/
theorem searches_of_holds : ∀ {ts : List Tree}, p.HoldsAll ts →
    p.Searches selector (ts.map Tree.id) ((Tree.idsOfAll ts).find? (p.fits selector))
  | [], _ => .done
  | .node n content below :: rest, holds => by
    obtain ⟨⟨_, hk, hb⟩, others⟩ := holds
    rw [Tree.idsOfAll, Tree.ids, List.cons_append, List.find?_cons, List.map_cons, Tree.id]
    by_cases fits : p.fits selector n
    · rw [fits]
      exact .here fits
    have inside : p.Searches selector (p.children n) _ := hk ▸ searches_of_holds hb
    rw [Bool.eq_false_iff.mpr fits, List.find?_append]
    rcases h : (Tree.idsOfAll below).find? (p.fits selector) with _ | m
    · exact .past fits (h ▸ inside) (searches_of_holds others)
    · exact .within fits (h ▸ inside)

mutual

/-- The search of a tree finds the first of its nodes that fits, if it goes deep enough. -/
theorem findIn_of_holds : ∀ {t : Tree} {fuel : Nat}, p.Holds t → t.height ≤ fuel →
    p.findIn selector fuel t.id = t.ids.find? (p.fits selector)
  | .node n content below, 0, _, deep => by simp [Tree.height] at deep
  | .node n content below, fuel + 1, holds, deep => by
    obtain ⟨hc, hk, hb⟩ := holds
    have others := findInAll_of_holds hb (show Tree.heightOfAll below ≤ fuel by
      simpa [Tree.height] using deep)
    rw [findIn, Tree.id, Tree.ids, hk, others, List.find?_cons]
    cases p.fits selector n <;> rfl

theorem findInAll_of_holds : ∀ {ts : List Tree} {fuel : Nat}, p.HoldsAll ts →
    Tree.heightOfAll ts ≤ fuel → (ts.map Tree.id).findSome? (p.findIn selector fuel) =
      (Tree.idsOfAll ts).find? (p.fits selector)
  | [], _, _, _ => rfl
  | t :: rest, fuel, holds, deep => by
    simp only [Tree.heightOfAll, Nat.max_le] at deep
    have first := findIn_of_holds holds.1 deep.1
    have others := findInAll_of_holds holds.2 deep.2
    rw [List.map_cons, List.findSome?_cons, first, others, Tree.idsOfAll, List.find?_append]
    cases t.ids.find? (p.fits selector) <;> rfl

end

namespace Forest

/-- The trees of the page, in the order of their creation. -/
theorem trees_of_roots (forest : p.Forest) :
    let ts := p.roots.map (p.tree p.nodes.size)
    p.HoldsAll ts ∧ Tree.heightOfAll ts ≤ p.nodes.size ∧ ts.map Tree.id = p.roots ∧
      Tree.idsOfAll ts = p.order := by
  have each (t : Tree) (ht : t ∈ p.roots.map (p.tree p.nodes.size)) :
      p.Holds t ∧ t.height ≤ p.nodes.size := by
    obtain ⟨root, hr, rfl⟩ := List.mem_map.mp ht
    exact forest.holds_tree ((p.mem_roots_iff root).mp hr).1
  refine ⟨holdsAll_iff.mpr fun t ht => (each t ht).1, Tree.heightOfAll_le fun t ht => (each t ht).2,
    ?_, ?_⟩
  · rw [List.map_map]
    exact (List.map_congr_left fun root _ => p.id_tree _ root).trans (List.map_id _)
  · rw [Tree.idsOfAll_eq_flatMap, List.flatMap_map]
    rfl

theorem query_eq_find? (forest : p.Forest) (selector : String) :
    p.query selector = p.order.find? (p.fits selector) := by
  obtain ⟨holds, deep, ids, order⟩ := forest.trees_of_roots
  rw [query, ← order, ← findInAll_of_holds holds deep, ids]

theorem searches_query (forest : p.Forest) (selector : String) :
    p.Searches selector p.roots (p.query selector) := by
  obtain ⟨holds, _, ids, order⟩ := forest.trees_of_roots
  have ends : p.Searches selector _ _ := searches_of_holds holds
  rwa [ids, order, ← forest.query_eq_find?] at ends

end Forest

/-! ## What is found -/

/-- On a page that came about by edits the search through the roots ends. The order of the page has every
node once: the roots in the order of their creation, and after each node what stands below it, child by
child. Nothing is found if and only if no node of the page matches, and what is found matches
and has no match before it. -/
theorem query_finds_first_match (edits : List (Edit ρ)) (admits : (empty : Page ρ).AdmitsAll edits)
    (selector : String) :
    let p := (empty : Page ρ).editAll edits
    (∀ found, p.Searches selector p.roots found ↔ found = p.query selector) ∧
      (p.order.Nodup ∧ (∀ n, n ∈ p.order ↔ n.index < p.nodes.size) ∧
        p.order = p.roots.flatMap p.orderOf ∧
        (p.roots.Pairwise (·.index < ·.index) ∧
          ∀ n, n ∈ p.roots ↔ n.index < p.nodes.size ∧ p.parent? n = none) ∧
        ∀ n, p.orderOf n = n :: (p.children n).flatMap p.orderOf) ∧
      (p.query selector = none ↔ ∀ n, n.index < p.nodes.size → ¬p.Matches selector n) ∧
      ∀ n, p.query selector = some n ↔ p.Matches selector n ∧
        ∃ before after, p.order = before ++ n :: after ∧ ∀ m ∈ before, ¬p.Matches selector m := by
  intro p
  have linked : p.Linked := linked_empty.editAll admits
  have forest := linked.forest
  have ends := forest.searches_query selector
  refine ⟨fun found => ⟨fun search => search.unique ends, fun e => e ▸ ends⟩,
    ⟨linked.nodup_order, linked.mem_order_iff, rfl, ⟨p.roots_ascending, p.mem_roots_iff⟩,
      forest.orderOf_eq⟩, ?_, fun n => ?_⟩
  · rw [forest.query_eq_find?, List.find?_eq_none]
    simp only [fits_iff, linked.mem_order_iff]
  · rw [forest.query_eq_find?, List.find?_eq_some_iff_append]
    simp only [Bool.not_eq_true', ← Bool.not_eq_true, fits_iff]

/-- The first of two paragraphs is moved behind the second one, below a root that is newer than both. -/
def reordered : List (Edit Unit) :=
  [.element "p" [("id", "a"), ("id", "b")] [], .element "b" [] [], .element "p" [("id", "b")] [],
    .element "div" [] [⟨2⟩], .append ⟨3⟩ ⟨0⟩]

theorem query_finds_first_match_in_reordered :
    let p := empty.editAll reordered
    (empty.AdmitsAll reordered ∧ p.order = [⟨1⟩, ⟨3⟩, ⟨2⟩, ⟨0⟩]) ∧
      (p.query "p" = some ⟨2⟩ ∧ p.query "#a" = some ⟨0⟩ ∧ p.query "#b" = some ⟨2⟩) ∧
      ∀ n, n.index < p.nodes.size → ¬p.Matches "i" n := by
  have admits : empty.AdmitsAll reordered := by
    refine ⟨by unfold Admits; decide, by unfold Admits; decide, by unfold Admits; decide,
      by unfold Admits; decide, ⟨by decide, by decide, fun under => ?_⟩, trivial⟩
    exact absurd (under.mem_of_closed [⟨0⟩] (by decide) (by decide)) (by decide)
  have nothing := (query_finds_first_match reordered admits "i").2.2.1
  exact ⟨⟨admits, by cbv⟩, ⟨by cbv, by cbv, by cbv⟩, nothing.mp (by cbv)⟩

end DataBinding.Page
