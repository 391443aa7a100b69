-- What a page keeps while values are shown on it. To show a value changes one place, and what the place
-- holds: the children of an element give way to a text or to raw markup and become roots, with all
-- that stands below them. Everything else stays, in every node that was there.
import DataBinding.Proofs.Page.Edits

namespace DataBinding

/-- The node that a place is part of. -/
def Place.node : Place → NodeId
  | .attribute n _ | .value n | .content n => n

@[simp]
theorem Directive.node_place (directive : Directive) (n : NodeId) : (directive.place n).node = n := by
  cases directive <;> rfl

/-! ## Entries -/

/-- Entries have changed under some names only; the others are the same, in the same order. -/
def KeepsEntries (changed : String → Prop) (before after : List (String × String)) : Prop :=
  ∀ keep : String → Bool, (∀ name, keep name = true → ¬changed name) →
    after.filter (fun entry => keep entry.1) = before.filter (fun entry => keep entry.1)

theorem filter_putEntry {keep : String → Bool} {name : String} (dropped : keep name = false)
    (s : String) (entries : List (String × String)) :
    (putEntry name s entries).filter (fun entry => keep entry.1) =
      entries.filter (fun entry => keep entry.1) := by
  induction entries with
  | nil => simp [putEntry, dropped]
  | cons entry rest ih =>
    by_cases here : entry.1 = name
    · simp [putEntry, here, dropped]
    · simp [putEntry, here, List.filter_cons, ih]

theorem keepsEntries_putEntry {changed : String → Prop} {name : String} (allowed : changed name)
    (s : String) (entries : List (String × String)) :
    KeepsEntries changed entries (putEntry name s entries) := by
  intro keep others
  refine filter_putEntry ?_ s entries
  rw [← Bool.not_eq_true]
  exact fun kept => others name kept allowed

theorem KeepsEntries.refl (changed : String → Prop) (entries : List (String × String)) :
    KeepsEntries changed entries entries := fun _ _ => rfl

theorem KeepsEntries.trans {changed : String → Prop} {a b c : List (String × String)}
    (ab : KeepsEntries changed a b) (bc : KeepsEntries changed b c) : KeepsEntries changed a c :=
  fun keep others => (bc keep others).trans (ab keep others)

theorem KeepsEntries.mono {changed changed' : String → Prop} {a b : List (String × String)}
    (keeps : KeepsEntries changed a b) (wider : ∀ name, changed name → changed' name) :
    KeepsEntries changed' a b :=
  fun keep others => keeps keep fun name kept changed => others name kept (wider name changed)

/-- Entries that have changed under no name are the same. -/
theorem KeepsEntries.eq {changed : String → Prop} {a b : List (String × String)}
    (keeps : KeepsEntries changed a b) (none : ∀ name, ¬changed name) : b = a := by
  simpa using keeps (fun _ => true) fun name _ => none name

/-! ## Content -/

/-- What a node is has changed in the given places only. -/
inductive Content.Spared (touched : Place → Prop) (n : NodeId) : Content → Content → Prop
  | element {tag : String} {named named' fields fields' : List (String × String)}
      {raw raw' : Option String}
      (attributes : KeepsEntries (fun name => touched (.attribute n name)) named named')
      (properties : KeepsEntries (fun name => name = "value" ∧ touched (.value n)) fields fields')
      (markup : ¬touched (.content n) → raw' = raw) :
      Spared touched n (.element tag named fields raw) (.element tag named' fields' raw')
  | text {s s' : String} (same : ¬touched (.content n) → s' = s) :
      Spared touched n (.text s) (.text s')
  | comment {s s' : String} (same : ¬touched (.content n) → s' = s) :
      Spared touched n (.comment s) (.comment s')

namespace Content.Spared

variable {touched touched' : Place → Prop} {n : NodeId} {a b c : Content}

theorem refl (touched : Place → Prop) (n : NodeId) (a : Content) : a.Spared touched n a := by
  cases a with
  | element => exact .element (.refl _ _) (.refl _ _) fun _ => rfl
  | text => exact .text fun _ => rfl
  | comment => exact .comment fun _ => rfl

theorem trans (ab : a.Spared touched n b) (bc : b.Spared touched n c) : a.Spared touched n c := by
  cases ab with
  | element attributes properties markup =>
    cases bc with
    | element attributes' properties' markup' =>
      exact .element (attributes.trans attributes') (properties.trans properties')
        fun apart => (markup' apart).trans (markup apart)
  | text same =>
    cases bc with
    | text same' => exact .text fun apart => (same' apart).trans (same apart)
  | comment same =>
    cases bc with
    | comment same' => exact .comment fun apart => (same' apart).trans (same apart)

/-- Only the places of the node itself matter. -/
theorem mono (spared : a.Spared touched n b)
    (wider : ∀ place, place.node = n → touched place → touched' place) : a.Spared touched' n b := by
  cases spared with
  | element attributes properties markup =>
    exact .element (attributes.mono fun name => wider (.attribute n name) rfl)
      (properties.mono fun _ => And.imp_right (wider (.value n) rfl))
      fun apart => markup fun here => apart (wider _ rfl here)
  | text same => exact .text fun apart => same fun here => apart (wider _ rfl here)
  | comment same => exact .comment fun apart => same fun here => apart (wider _ rfl here)

/-- A node without a place that is touched is what it was. -/
theorem eq (spared : a.Spared touched n b) (none : ∀ place, place.node = n → ¬touched place) :
    b = a := by
  cases spared with
  | element attributes properties markup =>
    rw [attributes.eq fun name => none (.attribute n name) rfl,
      properties.eq fun _ here => none (.value n) rfl here.2, markup (none (.content n) rfl)]
  | text same => rw [same (none (.content n) rfl)]
  | comment same => rw [same (none (.content n) rfl)]

end Content.Spared

/-! ## Pages -/

namespace Page

variable {ρ : Type} {p p' p₁ p₂ : Page ρ} {n : NodeId} {touched touched' : Place → Prop}

/-- A page has changed in the given places only. Of what stood in the content of an element, the children
may have lost their parent; no node has got another parent. -/
structure Spared (touched : Place → Prop) (p p' : Page ρ) : Prop where
  size : p.nodes.size ≤ p'.nodes.size
  face : ∀ n content kids, p.face? n = some (content, kids) → ∃ content' kids',
    p'.face? n = some (content', kids') ∧ content.Spared touched n content' ∧
      (kids' = kids ∨ touched (.content n) ∧ p.IsElement n)
  parent : ∀ n, n.index < p.nodes.size → p'.parent? n = p.parent? n ∨
    p'.parent? n = none ∧ ∃ above, p.parent? n = some above ∧ touched (.content above)

namespace Spared

theorem refl (touched : Place → Prop) (p : Page ρ) : Spared touched p p :=
  ⟨Nat.le_refl _, fun _ content kids h => ⟨content, kids, h, .refl _ _ _, .inl rfl⟩,
    fun _ _ => .inl rfl⟩

theorem of_nodes (touched : Place → Prop) (same : p'.nodes = p.nodes) : Spared touched p p' := by
  have node (n : NodeId) : p'.node? n = p.node? n := by simp only [node?, same]
  refine ⟨Nat.le_of_eq (same ▸ rfl), fun n content kids h => ?_, fun n _ => .inl ?_⟩
  · exact ⟨content, kids, by rwa [face?, node], .refl _ _ _, .inl rfl⟩
  · rw [parent?, parent?, node]

/-- An element stays one, and nothing becomes one. -/
theorem isElement_iff (spared : Spared touched p p') (lt : n.index < p.nodes.size) :
    p'.IsElement n ↔ p.IsElement n := by
  obtain ⟨⟨content, kids⟩, face⟩ : ∃ face, p.face? n = some face :=
    ⟨_, congrArg (Option.map _) (Array.getElem?_eq_getElem lt)⟩
  obtain ⟨content', kids', face', same, _⟩ := spared.face n content kids face
  simp only [IsElement, HasBelow, face, face']
  cases same <;> simp

theorem trans (a : Spared touched p p₁) (b : Spared touched p₁ p₂) : Spared touched p p₂ := by
  refine ⟨Nat.le_trans a.size b.size, fun n content kids h => ?_, fun n lt => ?_⟩
  · obtain ⟨content₁, kids₁, h₁, same₁, below₁⟩ := a.face n content kids h
    obtain ⟨content₂, kids₂, h₂, same₂, below₂⟩ := b.face n content₁ kids₁ h₁
    refine ⟨content₂, kids₂, h₂, same₁.trans same₂, ?_⟩
    rcases below₂ with rfl | ⟨here, element⟩
    · exact below₁
    · exact .inr ⟨here, (a.isElement_iff (index_lt_of_face? h)).mp element⟩
  · rcases a.parent n lt with same₁ | ⟨gone, above, h, here⟩
    · rcases b.parent n (Nat.lt_of_lt_of_le lt a.size) with same₂ | ⟨gone, above, h, here⟩
      · exact .inl (same₂.trans same₁)
      · exact .inr ⟨gone, above, same₁ ▸ h, here⟩
    · refine .inr ⟨?_, above, h, here⟩
      rcases b.parent n (Nat.lt_of_lt_of_le lt a.size) with same₂ | ⟨gone', _⟩
      · exact same₂.trans gone
      · exact gone'

/-- Only the places of nodes of the page matter. -/
theorem mono (spared : Spared touched p p') (linked : p.Linked)
    (wider : ∀ place, place.node.index < p.nodes.size → touched place → touched' place) :
    Spared touched' p p' := by
  refine ⟨spared.size, fun n content kids h => ?_, fun n lt => ?_⟩
  · have lt := index_lt_of_face? h
    obtain ⟨content', kids', h', same, below⟩ := spared.face n content kids h
    refine ⟨content', kids', h', same.mono fun place e => wider place (e ▸ lt), ?_⟩
    exact below.imp_right (And.imp_left (wider _ lt))
  · refine (spared.parent n lt).imp_right fun ⟨gone, above, h, here⟩ => ⟨gone, above, h, ?_⟩
    exact wider _ (lt_of_mem_children (linked.mem_children_iff.mpr h)) here

/-- A node looks as before if none of its places is touched. -/
theorem face?_eq (spared : Spared touched p p') (lt : n.index < p.nodes.size)
    (none : ∀ place, place.node = n → ¬touched place) : p'.face? n = p.face? n := by
  obtain ⟨⟨content, kids⟩, face⟩ : ∃ face, p.face? n = some face :=
    ⟨_, congrArg (Option.map _) (Array.getElem?_eq_getElem lt)⟩
  obtain ⟨content', kids', face', same, below⟩ := spared.face n content kids face
  rw [face, face', same.eq none, below.resolve_right fun here => none (.content n) rfl here.1]

/-- A node that has lost its parent stays a root. -/
theorem parent?_of_none (spared : Spared touched p p') (lt : n.index < p.nodes.size)
    (root : p.parent? n = none) : p'.parent? n = none := by
  rcases spared.parent n lt with same | ⟨gone, _⟩
  · exact same.trans root
  · exact gone

/-- A node is as before if none of its places is touched, nor the content of its parent. -/
theorem node?_eq (spared : Spared touched p p') (lt : n.index < p.nodes.size)
    (none : ∀ place, place.node = n → ¬touched place)
    (above : ∀ parent, p.parent? n = some parent → ¬touched (.content parent)) :
    p'.node? n = p.node? n := by
  have face := spared.face?_eq lt none
  have parent : p'.parent? n = p.parent? n := (spared.parent n lt).resolve_right
    fun ⟨_, parent, h, here⟩ => above parent h here
  obtain ⟨d, hd⟩ : ∃ d, p.node? n = some d := ⟨_, Array.getElem?_eq_getElem lt⟩
  obtain ⟨d', hd'⟩ : ∃ d', p'.node? n = some d' :=
    ⟨_, Array.getElem?_eq_getElem (Nat.lt_of_lt_of_le lt spared.size)⟩
  simp only [face?, Page.parent?, hd, hd', Option.map_some, Option.bind_some, Node.face,
    Option.some.injEq, Prod.mk.injEq] at face parent
  rw [hd, hd']
  obtain ⟨content, above', kids⟩ := d
  obtain ⟨content', above'', kids'⟩ := d'
  simp_all

end Spared

/-! ## Values that are shown -/

theorem parent?_dropChildren (p : Page ρ) (n m : NodeId) :
    (p.dropChildren n).parent? m = if m ∈ p.children n then none else p.parent? m := by
  refine (parent?_foldl_orphan _ _ m).trans ?_
  congr 1
  refine parent?_change p n ?_ m
  exact fun _ => rfl

/-- The parents of the nodes of a page when a value is shown: the children of an element become roots where a
text or raw markup takes their place. -/
theorem parent?_showing (p : Page ρ) (directive : Directive) (n : NodeId) (s : String) {m : NodeId}
    (lt : m.index < p.nodes.size) : (p.showing directive n s).parent? m = p.parent? m ∨
      (p.showing directive n s).parent? m = none ∧ m ∈ p.children n ∧
        directive.place n = .content n := by
  have dropped {q : Page ρ} (parents : q.parent? m = p.parent? m) (kids : q.children n = p.children n) :
      (q.dropChildren n).parent? m = p.parent? m ∨
        (q.dropChildren n).parent? m = none ∧ m ∈ p.children n := by
    rw [parent?_dropChildren, kids]
    split
    · exact .inr ⟨rfl, ‹_›⟩
    · exact .inl parents
  have content (content : Content) :=
    p.sameLinks_content n content
  cases directive with
  | model => exact .inl ((p.sameLinks_setProperty n _ s).parent? m)
  | bind name => exact .inl ((p.sameLinks_setAttribute n name s).parent? m)
  | html =>
    simp only [showing, setMarkup]
    split
    · exact (dropped ((content _).parent? m) ((content _).children n)).imp_right
        fun gone => ⟨gone.1, gone.2, rfl⟩
    · exact .inl rfl
  | text =>
    simp only [showing, setText]
    split
    · exact .inl ((content _).parent? m)
    · exact .inl ((content _).parent? m)
    · rename_i tag attributes properties markup _
      -- the new text is none of the nodes that were there
      let q := (p.change n fun d =>
        { d with content := .element tag attributes properties none }).dropChildren n
      have size : q.nodes.size = p.nodes.size := (size_dropChildren _ n).trans (size_change ..)
      have fresh : m ≠ (q.text s).2 := fun e =>
        Nat.ne_of_lt (size ▸ lt : m.index < q.nodes.size) (congrArg NodeId.index e)
      have new : (q.text s).2.index < (q.text s).1.nodes.size := by
        rw [show (q.text s).1.nodes.size = q.nodes.size + 1 from size_create q _]
        exact Nat.lt_succ_self _
      have same : ((q.text s).1.append n (q.text s).2).parent? m = q.parent? m := by
        rw [parent?_append n new, if_neg fresh]
        exact (sameLinks_create q (.text s)).parent? m
      show ((q.text s).1.append n (q.text s).2).parent? m = _ ∨
        ((q.text s).1.append n (q.text s).2).parent? m = none ∧ _
      rw [same]
      exact (dropped ((content _).parent? m) ((content _).children n)).imp_right
        fun gone => ⟨gone.1, gone.2, rfl⟩
    · exact .inl rfl

/-- The face of a comment on which something is shown. -/
theorem face?_showing_comment {old : String} {kids : List NodeId}
    (h : p.face? n = some (.comment old, kids)) (directive : Directive) (s : String) :
    (p.showing directive n s).face? n = match directive with
      | .text => some (.comment s, kids)
      | _ => some (.comment old, kids) := by
  obtain ⟨d, hd, face⟩ := Option.map_eq_some_iff.mp h
  simp only [Node.face, Prod.mk.injEq] at face
  cases directive with
  | model | bind _ =>
    refine (face?_change_self p n _).trans ?_
    simp only [hd, Option.map_some, Node.face, face.1, face.2]
  | html =>
    simp only [showing, setMarkup, content?_of_face h]
    exact h
  | text =>
    simp only [showing, setText, content?_of_face h]
    refine (face?_change_self p n _).trans ?_
    simp only [hd, Option.map_some, Node.face, face.2]

theorem Linked.showing (linked : p.Linked) (directive : Directive) (n : NodeId) (s : String) :
    (p.showing directive n s).Linked := by
  cases directive with
  | model => exact linked.congr (p.sameLinks_setProperty n _ s)
  | bind name => exact linked.congr (p.sameLinks_setAttribute n name s)
  | text => exact linked.setText n s
  | html => exact linked.setMarkup n s

/-- To show a value changes the place of its directive. -/
theorem Linked.spared_showing (linked : p.Linked) {directive : Directive}
    (here : touched (directive.place n)) (s : String) :
    Spared touched p (p.showing directive n s) := by
  refine ⟨(repaints_showing p directive n s).size, fun m content kids h => ?_, fun m lt => ?_⟩
  · by_cases e : m = n
    · subst e
      rcases content with ⟨tag, attributes, properties, markup⟩ | old | old
      · have face := face?_showing_element h directive s
        have element : p.IsElement m := ⟨_, _, _, _, _, h⟩
        cases directive with
        | model =>
          refine ⟨_, _, face, .element (.refl _ _) ?_ fun _ => rfl, .inl rfl⟩
          exact keepsEntries_putEntry ⟨rfl, here⟩ s properties
        | bind name =>
          refine ⟨_, _, face, .element ?_ (.refl _ _) fun _ => rfl, .inl rfl⟩
          exact keepsEntries_putEntry here s attributes
        | html | text =>
          exact ⟨_, _, face, .element (.refl _ _) (.refl _ _) fun apart => absurd here apart,
            .inr ⟨here, element⟩⟩
      · have face := face?_showing_text h directive s
        cases directive with
        | text => exact ⟨_, _, face, .text fun apart => absurd here apart, .inl rfl⟩
        | _ => exact ⟨_, _, face, .refl _ _ _, .inl rfl⟩
      · have face := face?_showing_comment h directive s
        cases directive with
        | text => exact ⟨_, _, face, .comment fun apart => absurd here apart, .inl rfl⟩
        | _ => exact ⟨_, _, face, .refl _ _ _, .inl rfl⟩
    · refine ⟨content, kids, ?_, .refl _ _ _, .inl rfl⟩
      rw [(p.spares_showing directive n s).others m e (index_lt_of_face? h), h]
  · refine (p.parent?_showing directive n s lt).imp_right fun ⟨gone, mem, place⟩ => ?_
    exact ⟨gone, n, linked.mem_children_iff.mp mem, place ▸ here⟩

/-- What stood in an element is a root when the element shows a text or raw markup. -/
theorem Linked.parent?_of_emptied (linked : p.Linked) {directive : Directive}
    (element : p.IsElement n) (place : directive.place n = .content n) (s : String) {child : NodeId}
    (mem : child ∈ p.children n) : (p.showing directive n s).parent? child = none := by
  have lt := linked.forest.lt_of_child mem
  refine (p.parent?_showing directive n s lt).elim (fun same => ?_) (·.1)
  -- else it were still a child, but the element has none that is not new
  have still : child ∈ (p.showing directive n s).children n := by
    rw [(linked.showing directive n s).mem_children_iff, same]
    exact linked.mem_children_iff.mp mem
  obtain ⟨kids, tag, attributes, properties, markup, face⟩ := element
  have face := face?_showing_element face directive s
  rw [children_eq, face] at still
  cases directive with
  | model | bind _ => cases place
  | html => cases still
  | text =>
    rw [List.mem_singleton.mp still] at lt
    exact absurd lt (Nat.lt_irrefl _)

end Page

end DataBinding
