-- What a text or raw markup that is put into a node does to the page. The node reads as what was put, every
-- node above it has exchanged the node's own stretch of its text, and all others read as before,
-- those too that stood below the node and have become roots.
import DataBinding.Proofs.Page.Order
import Mathlib

namespace DataBinding.Page

variable {ρ : Type} {p p' : Page ρ} {n : NodeId}

/-! ## What is put into a node -/

/-- One node of a page has got a new text. Above it stands the same text around the new one; what
does not stand above it reads as before. -/
structure Rewrites (p p' : Page ρ) (n : NodeId) (s : String) : Prop where
  here : p'.textOf n = s
  above : ∀ a, p.Under n a → a ≠ n → ∃ before after,
    p.orderOf a = before ++ p.orderOf n ++ after ∧
    p'.orderOf a = before ++ p'.orderOf n ++ after ∧
    p.textOf a = String.join (before.map p.ownText) ++ p.textOf n ++
      String.join (after.map p.ownText) ∧
    p'.textOf a = String.join (before.map p.ownText) ++ s ++ String.join (after.map p.ownText)
  elsewhere : ∀ x, x.index < p.nodes.size → ¬p.Under n x →
    p'.textOf x = p.textOf x ∧ p'.markupOf x = p.markupOf x

theorem Spares.ownText_eq (spares : Spares p p' n) {x : NodeId} (ne : x ≠ n)
    (lt : x.index < p.nodes.size) : p'.ownText x = p.ownText x := by
  rw [ownText, ownText, content?_eq, spares.others x ne lt, ← content?_eq]

/-- A change at one node exchanges its text for what it reads now. -/
theorem Spares.rewrites (spares : Spares p p' n) (forest : p.Forest) (forest' : p'.Forest)
    (lt : n.index < p.nodes.size) {s : String} (here : p'.textOf n = s) : Rewrites p p' n s := by
  refine ⟨here, fun a under _ => ?_, fun x ltX aside => spares.reads_eq forest ltX aside⟩
  have ltA := lt_of_above lt under
  obtain ⟨before, after, old, new⟩ := spares.orderOf_above forest forest' ltA under
  refine ⟨before, after, old, new, ?_, ?_⟩
  · rw [forest.textOf_eq ltA, old, forest.textOf_eq lt]
    simp only [List.map_append, String.join_append]
  -- around the stretch of the node stand other nodes only, and they have kept their texts
  have nodup := old ▸ forest.nodup_orderOf a
  rw [List.nodup_append, List.nodup_append] at nodup
  have self : n ∈ p.orderOf n := forest.mem_orderOf_iff.mpr .refl
  have same {x : NodeId} (hx : x ∈ before ∨ x ∈ after) : p'.ownText x = p.ownText x := by
    have inside : x ∈ p.orderOf a := by
      rw [old]
      simp only [List.mem_append]
      tauto
    refine spares.ownText_eq ?_ (forest.lt_of_under ltA (forest.mem_orderOf_iff.mp inside))
    rcases hx with hx | hx
    · exact nodup.1.2.2 x hx n self
    · exact (nodup.2.2 n (List.mem_append_right _ self) x hx).symm
  have befores : before.map p'.ownText = before.map p.ownText :=
    List.map_congr_left fun x hx => same (.inl hx)
  have afters : after.map p'.ownText = after.map p.ownText :=
    List.map_congr_left fun x hx => same (.inr hx)
  have lt' := Nat.lt_of_lt_of_le lt spares.size
  have ltA' := Nat.lt_of_lt_of_le ltA spares.size
  rw [forest'.textOf_eq ltA', new]
  simp only [List.map_append, String.join_append, befores, afters]
  rw [← forest'.textOf_eq lt', here]

/-! ## Texts and markup -/

/-- A node without children reads as what it adds itself. -/
theorem Forest.textOf_of_childless (forest : p.Forest) (lt : n.index < p.nodes.size)
    (childless : p.children n = []) : p.textOf n = p.ownText n := by
  rw [forest.textOf_eq lt, forest.orderOf_eq, childless]
  simp [String.join_cons]

theorem children_of_face {content : Content} {kids : List NodeId}
    (h : p.face? n = some (content, kids)) : p.children n = kids := by
  rw [children_eq, h]
  rfl

theorem lt_of_content? {content : Content} (h : p.content? n = some content) :
    n.index < p.nodes.size := by
  obtain ⟨d, hd, _⟩ := Option.map_eq_some_iff.mp h
  exact index_lt_of_node? hd

theorem Linked.rewrites_of_element (linked : p.Linked) {tag : String}
    {attributes properties : List (String × String)} {markup : Option String}
    (h : p.content? n = some (.element tag attributes properties markup)) (s : String) :
    Rewrites p (p.setText n s) n s := by
  obtain ⟨spares, face, fresh, _⟩ := setText_effect_of_element (face?_of_content? h) s
  have lt := lt_of_content? h
  have forest' := (linked.setText n s).forest
  refine spares.rewrites linked.forest forest' lt ?_
  -- the element itself adds nothing now, and the new text below it adds all
  have here : (p.setText n s).ownText n = "" := by
    rw [ownText, content?_of_face face]
  have below : (p.setText n s).ownText ⟨p.nodes.size⟩ = s := by
    rw [ownText, content?_of_face fresh]
  have order : (p.setText n s).orderOf n = [n, ⟨p.nodes.size⟩] := by
    rw [forest'.orderOf_eq, children_of_face face, List.flatMap_singleton, forest'.orderOf_eq,
      children_of_face fresh, List.flatMap_nil]
  rw [forest'.textOf_eq (Nat.lt_of_lt_of_le lt spares.size), order]
  simp [String.join_cons, here, below]

theorem Linked.rewrites_of_text (linked : p.Linked) {old : String}
    (h : p.content? n = some (.text old)) (childless : p.children n = []) (s : String) :
    Rewrites p (p.setText n s) n s := by
  obtain ⟨spares, face, _⟩ := setText_effect_of_text (face?_of_content? h) s
  have lt := lt_of_content? h
  have forest' := (linked.setText n s).forest
  refine spares.rewrites linked.forest forest' lt ?_
  rw [forest'.textOf_of_childless (Nat.lt_of_lt_of_le lt spares.size)
    ((children_of_face face).trans childless), ownText, content?_of_face face]

theorem Linked.rewrites_of_markup (linked : p.Linked) {tag : String}
    {attributes properties : List (String × String)} {markup : Option String}
    (h : p.content? n = some (.element tag attributes properties markup)) (s : String) :
    Rewrites p (p.setMarkup n s) n s ∧
      (p.setMarkup n s).markupOf n = startTag tag attributes ++ s ++ endTag tag := by
  have kids := face?_of_content? h
  obtain ⟨spares, _, _⟩ := setMarkup_effect ⟨_, _, _, _, kids⟩ s
  have face := face?_setMarkup_self kids s
  have lt := lt_of_content? h
  have lt' := Nat.lt_of_lt_of_le lt spares.size
  have forest' := (linked.setMarkup n s).forest
  have childless := children_of_face face
  refine ⟨spares.rewrites linked.forest forest' lt ?_, ?_⟩
  · rw [forest'.textOf_of_childless lt' childless, ownText, content?_of_face face]
  · rw [markupOf]
    obtain ⟨fuel, deep⟩ := Nat.exists_eq_succ_of_ne_zero (Nat.ne_zero_of_lt lt')
    rw [deep, markupIn, content?_of_face face, childless]
    simp

/-- A text that is put into an element, or into a text without children, is what the node reads as then,
and so is raw markup that is put into an element, which is written between its tags. Nothing else
changes: what stands above the node reads the same around it, and what does not reads as before,
also what stood below it until then. -/
theorem writing_is_local (linked : p.Linked) {content : Content} (h : p.content? n = some content)
    (s : String) :
    (∀ old, content = .text old → p.children n = [] → Rewrites p (p.setText n s) n s) ∧
      ∀ tag attributes properties markup, content = .element tag attributes properties markup →
        Rewrites p (p.setText n s) n s ∧ Rewrites p (p.setMarkup n s) n s ∧
          (p.setMarkup n s).markupOf n = startTag tag attributes ++ s ++ endTag tag := by
  refine ⟨?_, ?_⟩
  · rintro old rfl childless
    exact linked.rewrites_of_text h childless s
  · rintro tag attributes properties markup rfl
    exact ⟨linked.rewrites_of_element h s, linked.rewrites_of_markup h s⟩

/-- A paragraph with a word set off between two texts. -/
def greeting : List (Edit Unit) :=
  [.text "Dear ", .text "you", .element "b" [] [⟨1⟩], .text "!", .element "p" [] [⟨0⟩, ⟨2⟩, ⟨3⟩]]

theorem writing_is_local_in_greeting :
    let p := empty.editAll greeting
    (p.Linked ∧ p.content? ⟨2⟩ = some (.element "b" [] [] none) ∧ p.textOf ⟨4⟩ = "Dear you!") ∧
      Rewrites p (p.setText ⟨2⟩ "all") ⟨2⟩ "all" ∧ (p.setText ⟨2⟩ "all").textOf ⟨4⟩ = "Dear all!" ∧
      (p.setMarkup ⟨2⟩ "<i>all</i>").markupOf ⟨2⟩ = "<b><i>all</i></b>" := by
  have admits : empty.AdmitsAll greeting := by
    refine ⟨trivial, trivial, ?_, trivial, ?_, trivial⟩ <;> (unfold Admits; decide)
  have linked := linked_empty.editAll admits
  have element : (empty.editAll greeting).content? ⟨2⟩ = some (.element "b" [] [] none) := by decide
  obtain ⟨texts, _⟩ := (writing_is_local linked element "all").2 _ _ _ _ rfl
  obtain ⟨_, _, markup⟩ := (writing_is_local linked element "<i>all</i>").2 _ _ _ _ rfl
  exact ⟨⟨linked, element, by cbv⟩, texts, by cbv, markup⟩

end DataBinding.Page
