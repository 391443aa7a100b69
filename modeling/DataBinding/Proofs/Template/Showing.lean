-- What a template shows. Compiling shows a value on a node and then watches it, so each value binding
-- fills its place from the start. What is bound later leaves the place filled, unless it shows on the same
-- place, or on the text that the place is filled with: such a text is compiled if a marker stands in it.
import DataBinding.Proofs.World.Compiling
import DataBinding.Proofs.Heap.Rendering

namespace DataBinding

/-! ## Who shows where -/

/-- The place in which a reaction shows a value. -/
def Reaction.place? : Reaction → Option Place
  | .render directive n => some (directive.place n)
  | .script _ => none

namespace World

/-- A watcher shows its value on a node. -/
def Renders (w : World) (n : NodeId) : Prop :=
  ∃ watcher ∈ w.watchers, ∃ directive, watcher.reaction = .render directive n

/-- Watchers show their values on nodes of the page. -/
def Housed (w : World) : Prop := ∀ n, w.Renders n → n.index < w.page.nodes.size

/-- No other watcher shows its value in a place. -/
def Sole (w : World) (id : WatcherId) (place : Place) : Prop :=
  ∀ other watcher, other.Among w.watchers.size → w.watcher? other = some watcher →
    watcher.reaction.place? = some place → other = id

/-- A watcher shows its value on a node, and what is put into a field is written back. -/
structure Serves (w : World) (id : WatcherId) (watcher : Watcher) (directive : Directive)
    (n : NodeId) : Prop where
  there : w.watcher? id = some watcher
  reaction : watcher.reaction = .render directive n
  suits : w.page.Suits n directive
  echo : directive = .model →
    ⟨n, Compile.inputEvent, .writeBack watcher.link watcher.path⟩ ∈ w.page.listeners

/-- Nothing is shown on the text that fills an element. -/
def Apart (w : World) (directive : Directive) (n : NodeId) : Prop :=
  directive = .text → w.page.IsElement n → ∀ child ∈ w.page.children n, ¬w.Renders child

/-- A watcher's place is filled with its value. -/
structure Displays (w : World) (watcher : Watcher) (directive : Directive) (n : NodeId) : Prop where
  shows : w.page.Shows n (w.heap.render (w.valueOf watcher)) directive
  apart : w.Apart directive n

/-- Shows the value of a path on a node and watches it. -/
def display (w : World) (vm : ViewModel) (n : NodeId) (path : KeyPath) (directive : Directive) :
    World :=
  ((w.render directive n (w.readPath vm.table path).value).watch vm.link path
    (.render directive n)).1

variable {w : World} {vm : ViewModel} {n : NodeId} {path : KeyPath} {directive : Directive}

theorem wires_display (w : World) (vm : ViewModel) (n : NodeId) (path : KeyPath)
    (directive : Directive) : w.Wires (w.display vm n path directive) :=
  (Wires.refl.page _).watch vm.link path (.render directive n)

theorem page_display (w : World) (vm : ViewModel) (n : NodeId) (path : KeyPath)
    (directive : Directive) : (w.display vm n path directive).page =
      w.page.showing directive n (w.heap.render (w.readPath vm.table path).value) := by
  rw [display, render_eq]
  rfl

theorem size_display (w : World) (vm : ViewModel) (n : NodeId) (path : KeyPath)
    (directive : Directive) :
    (w.display vm n path directive).watchers.size = w.watchers.size + 1 := Array.size_push ..

/-- The newest watcher. -/
theorem watcher?_display (w : World) (vm : ViewModel) (n : NodeId) (path : KeyPath)
    (directive : Directive) : (w.display vm n path directive).watcher? ⟨w.watchers.size + 1⟩ =
      some ⟨vm.link, path, .render directive n⟩ := by
  rw [display, render_eq, watch_eq, watcher?]
  simp

theorem renders_display {m : NodeId} (h : (w.display vm n path directive).Renders m) :
    w.Renders m ∨ m = n := by
  obtain ⟨watcher, mem, other, e⟩ := h
  rw [display, render_eq, watch_eq] at mem
  rcases Array.mem_push.mp mem with mem | rfl
  · exact .inl ⟨watcher, mem, other, e⟩
  · cases e
    exact .inr rfl

theorem Housed.display (housed : w.Housed) (there : n.index < w.page.nodes.size) :
    (w.display vm n path directive).Housed := by
  intro m hm
  rw [page_display]
  refine Nat.lt_of_lt_of_le ?_ (Page.repaints_showing _ directive n _).size
  rcases renders_display hm with old | rfl
  · exact housed m old
  · exact there

/-! ## Later bindings -/

section

variable {id : WatcherId} {watcher : Watcher} {other : Directive} {m : NodeId}

theorem Serves.among (serves : w.Serves id watcher other m) {count : Nat} (hid : count < id.index) :
    id.Among w.watchers.size := by
  have lt := (Array.getElem?_eq_some_iff.mp serves.there).1
  unfold WatcherId.Among
  omega

theorem Serves.display (serves : w.Serves id watcher other m) (among : id.Among w.watchers.size) :
    (w.display vm n path directive).Serves id watcher other m := by
  refine ⟨((w.wires_display vm n path directive).watcher? among).trans serves.there,
    serves.reaction, ?_, fun model => ?_⟩
  · rw [page_display]
    exact serves.suits.showing directive n _
  · rw [page_display, (Page.repaints_showing _ directive n _).listeners]
    exact serves.echo model

theorem Sole.of_display (among : id.Among w.watchers.size) {place : Place}
    (sole : (w.display vm n path directive).Sole id place) :
    w.Sole id place ∧ directive.place n ≠ place := by
  have wires := w.wires_display vm n path directive
  refine ⟨fun other watcher hother there shows => ?_, fun e => ?_⟩
  · exact sole other watcher (hother.mono wires.size_le) ((wires.watcher? hother).trans there) shows
  · have newest := sole ⟨w.watchers.size + 1⟩ _ ⟨Nat.succ_pos _, Nat.le_of_eq (size_display ..).symm⟩
      (w.watcher?_display vm n path directive) (congrArg some e)
    have le := among.2
    rw [← newest] at le
    exact Nat.not_succ_le_self _ le

/-- When something is shown on a page, the text that fills an element stays apart, or it is new and nobody
knows it. -/
theorem Apart.showing {w' : World} {s : String} (apart : w.Apart other m)
    (suits : w.page.Suits m other) (page : w'.page = w.page.showing directive n s)
    (old : other = .text → w.page.IsElement m → ∀ child ∈ w.page.children m, w'.Renders child →
      w.Renders child) (known : ∀ k, w'.Renders k → k.index < w.page.nodes.size) :
    w'.Apart other m := by
  intro text element child hc renders
  rw [page] at element hc
  have before : w.page.IsElement m := suits.resolve_right fun only =>
    element.not_isText (Page.isText_showing only.1 directive n s)
  rcases Page.mem_children_showing before hc with there | fresh
  · exact apart text before child there (old text before child there renders)
  · exact Nat.ne_of_lt (known child renders) fresh

/-- What is shown elsewhere leaves a watcher's place filled. A text that fills an element is no place for
a binding, because no marker stands in it. -/
theorem Displays.display (displays : w.Displays watcher other m) (housed : w.Housed)
    (suits : w.page.Suits m other) (there : n.index < w.page.nodes.size)
    (elsewhere : directive.place n ≠ other.place m)
    (speaks : other = .text → w.page.IsElement m →
      w.page.face? n ≠ some (.text (w.heap.render (w.valueOf watcher)), [])) :
    (w.display vm n path directive).Displays watcher other m := by
  have wires := w.wires_display vm n path directive
  have outside (text : other = .text) (element : w.page.IsElement m) : n ∉ w.page.children m := by
    subst text
    exact fun hn => speaks rfl element (displays.shows.child element hn)
  constructor
  · rw [page_display, wires.valueOf, wires.sameFaces.render]
    exact displays.shows.showing suits directive _ elsewhere outside
  · refine displays.apart.showing suits (page_display ..) ?_ fun k renders => ?_
    · intro text element child hc renders
      exact (renders_display renders).resolve_right fun e => outside text element (e ▸ hc)
    · rcases renders_display renders with shown | rfl
      · exact housed k shown
      · exact there

/-- A place is filled when it is bound. -/
theorem displays_display (housed : w.Housed) (suits : w.page.Suits n directive) :
    (w.display vm n path directive).Displays ⟨vm.link, path, .render directive n⟩ directive n := by
  have wires := w.wires_display vm n path directive
  constructor
  · rw [page_display, wires.valueOf, wires.sameFaces.render]
    exact Page.shows_showing suits _
  · intro text element child hc rendered
    subst text
    rw [page_display] at element hc
    obtain ⟨kids, tag, attributes, properties, markup, hf⟩ := suits.resolve_right fun only =>
      element.not_isText (Page.isText_showing only.1 .text n _)
    rw [Page.children_eq, Page.face?_showing_element hf .text] at hc
    have fresh : child = ⟨w.page.nodes.size⟩ := List.mem_singleton.mp hc
    have old : child.index < w.page.nodes.size := by
      rcases renders_display rendered with shown | rfl
      · exact housed child shown
      · exact suits.lt
    rw [fresh] at old
    exact Nat.lt_irrefl _ old

end

end World

/-! ## The bindings of a draft -/

namespace BindingKind

/-- How a binding shows its value. -/
def directive? : BindingKind → Option Directive
  | .interpolation => some .text
  | .directive shown => some shown
  | .event _ _ => none

/-- A marker stands in a text, and a directive on an element. -/
def Fits (p : Page Response) (n : NodeId) : BindingKind → Prop
  | .interpolation => p.IsText n
  | .directive _ | .event _ _ => p.IsElement n

variable {p : Page Response} {n : NodeId} {kind : BindingKind} {directive : Directive}

theorem Fits.suits (fits : kind.Fits p n) (shows : kind.directive? = some directive) :
    p.Suits n directive := by
  cases kind with
  | interpolation =>
    cases shows
    exact .inr ⟨fits, rfl⟩
  | directive _ => exact .inl fits
  | event _ _ => cases shows

theorem Fits.showing (fits : kind.Fits p n) (directive : Directive) (m : NodeId) (s : String) :
    kind.Fits (p.showing directive m s) n := by
  cases kind with
  | interpolation => exact Page.isText_showing fits directive m s
  | directive _ | event _ _ => exact Page.isElement_showing fits directive m s

end BindingKind

/-- A text that a binding puts into an element holds no marker. -/
def World.Silent (w : World) (marks : Markers) (b : Binding) : Prop :=
  b.kind = .directive .text → ∀ watcher, b.watcher.bind w.watcher? = some watcher →
    marks.interpolation (w.heap.render (w.valueOf watcher)) = none

/-- A value binding has a watcher of its own, younger than the first so many, that serves it. If the
binding is silent, and no other one shows in its place, the place is filled. -/
structure World.Binds (w : World) (count : Nat) (marks : Markers) (b : Binding) (id : WatcherId)
    (watcher : Watcher) (directive : Directive) : Prop where
  watched : b.watcher = some id
  shows : b.kind.directive? = some directive
  fits : b.kind.Fits w.page b.node
  born : count < id.index
  serves : w.Serves id watcher directive b.node
  displays : w.Silent marks b → w.Sole id (directive.place b.node) →
    w.Displays watcher directive b.node

/-- All value bindings of a draft are served and displayed. -/
structure Draft.Faithful (count : Nat) (marks : Markers) (d : Draft) : Prop where
  housed : d.world.Housed
  counted : count ≤ d.world.watchers.size
  bindings : ∀ b ∈ d.wiring, ∀ directive, b.kind.directive? = some directive →
    ∃ id watcher, d.world.Binds count marks b id watcher directive

section

variable {count : Nat} {marks : Markers} {w : World} {b : Binding} {id : WatcherId}
  {watcher : Watcher} {other directive : Directive} {vm : ViewModel} {n : NodeId} {path : KeyPath}

theorem World.Silent.interpolation (silent : w.Silent marks b)
    (binds : w.Binds count marks b id watcher .text) (element : w.page.IsElement b.node) :
    marks.interpolation (w.heap.render (w.valueOf watcher)) = none := by
  refine silent ?_ watcher (by rw [binds.watched]; exact binds.serves.there)
  have shows := binds.shows
  have fits := binds.fits
  rcases hk : b.kind with _ | _ | _ <;> rw [hk] at shows fits
  · exact absurd fits element.not_isText
  · cases shows
    rfl
  · cases shows

theorem World.Silent.of_display (among : id.Among w.watchers.size) (hb : b.watcher = some id)
    (silent : (w.display vm n path directive).Silent marks b) : w.Silent marks b := by
  have wires := w.wires_display vm n path directive
  intro text watcher there
  rw [hb, Option.bind_some, ← wires.watcher? among] at there
  have same := silent text watcher (by rw [hb]; exact there)
  rwa [wires.valueOf, wires.sameFaces.render] at same

/-- A binding stays one when another place is bound. -/
theorem World.Binds.display (binds : w.Binds count marks b id watcher other) (housed : w.Housed)
    (there : n.index < w.page.nodes.size)
    (speaks : ∀ s, w.page.face? n = some (.text s, []) → marks.interpolation s ≠ none) :
    (w.display vm n path directive).Binds count marks b id watcher other := by
  have among := binds.serves.among binds.born
  refine ⟨binds.watched, binds.shows, ?_, binds.born, binds.serves.display among,
    fun silent sole => ?_⟩
  · rw [page_display]
    exact binds.fits.showing directive n _
  · have silent := World.Silent.of_display among binds.watched silent
    obtain ⟨sole, elsewhere⟩ := sole.of_display among
    refine (binds.displays silent sole).display housed binds.serves.suits there elsewhere ?_
    intro text element face
    subst text
    exact speaks _ face (silent.interpolation binds element)

/-- No node of the page is different, and no listener went away. -/
theorem World.Binds.listen (binds : w.Binds count marks b id watcher other) (m : NodeId)
    (event : String) (response : Response) :
    World.Binds { w with page := w.page.listen m event response } count marks b id watcher other :=
  ⟨binds.watched, binds.shows, binds.fits, binds.born,
    ⟨binds.serves.there, binds.serves.reaction, binds.serves.suits,
      fun model => List.mem_append_left _ (binds.serves.echo model)⟩,
    fun silent sole => ⟨(binds.displays silent sole).shows, (binds.displays silent sole).apart⟩⟩

/-- A new binding is served by a new watcher. -/
theorem World.binds_display (housed : w.Housed) (counted : count ≤ w.watchers.size)
    {kind : BindingKind} (shows : kind.directive? = some directive) (fits : kind.Fits w.page n)
    (echo : directive = .model →
      ⟨n, Compile.inputEvent, .writeBack vm.link path⟩ ∈ w.page.listeners) :
    (w.display vm n path directive).Binds count marks ⟨n, kind, some ⟨w.watchers.size + 1⟩⟩
      ⟨w.watchers.size + 1⟩ ⟨vm.link, path, .render directive n⟩ directive := by
  have suits := fits.suits shows
  refine ⟨rfl, shows, ?_, Nat.lt_succ_of_le counted, ⟨w.watcher?_display vm n path directive, rfl, ?_,
    fun model => ?_⟩, fun _ _ => w.displays_display housed suits⟩
  · rw [page_display]
    exact fits.showing directive n _
  · rw [page_display]
    exact suits.showing directive n _
  · rw [page_display, (Page.repaints_showing _ directive n _).listeners]
    exact echo model

end

namespace Draft.Faithful

variable {count : Nat} {marks : Markers} {d : Draft}

/-- Nothing is bound at the start. -/
theorem nothing {w : World} (housed : w.Housed) : Faithful w.watchers.size marks ⟨w, []⟩ :=
  ⟨housed, Nat.le_refl _, fun _ hb => absurd hb List.not_mem_nil⟩

theorem display (faithful : d.Faithful count marks) {vm : ViewModel} {n : NodeId} {path : KeyPath}
    {directive : Directive} {kind : BindingKind} (shows : kind.directive? = some directive)
    (fits : kind.Fits d.world.page n)
    (echo : directive = .model →
      ⟨n, Compile.inputEvent, .writeBack vm.link path⟩ ∈ d.world.page.listeners)
    (speaks : ∀ s, d.world.page.face? n = some (.text s, []) → marks.interpolation s ≠ none) :
    Faithful count marks ⟨d.world.display vm n path directive,
      d.wiring ++ [⟨n, kind, some ⟨d.world.watchers.size + 1⟩⟩]⟩ := by
  have there := (fits.suits shows).lt
  refine ⟨faithful.housed.display there, ?_, fun b mem other hb => ?_⟩
  · exact Nat.le_trans faithful.counted (d.world.wires_display vm n path directive).size_le
  · rcases List.mem_append.mp mem with mem | mem
    · obtain ⟨id, watcher, binds⟩ := faithful.bindings b mem other hb
      exact ⟨id, watcher, binds.display faithful.housed there speaks⟩
    · obtain rfl := List.mem_singleton.mp mem
      obtain rfl : other = directive := Option.some.inj (hb.symm.trans shows)
      exact ⟨_, _, World.binds_display faithful.housed faithful.counted shows fits echo⟩

theorem listen (faithful : d.Faithful count marks) (n : NodeId) (event : String)
    (response : Response) : Faithful count marks
      { d with world := { d.world with page := d.world.page.listen n event response } } := by
  refine ⟨faithful.housed, faithful.counted, fun b mem other hb => ?_⟩
  obtain ⟨id, watcher, binds⟩ := faithful.bindings b mem other hb
  exact ⟨id, watcher, binds.listen n event response⟩

/-- The binding of an event shows no value. -/
theorem hold (faithful : d.Faithful count marks) {b : Binding} (event : b.kind.directive? = none) :
    Faithful count marks { d with wiring := d.wiring ++ [b] } := by
  refine ⟨faithful.housed, faithful.counted, fun b' mem other hb => ?_⟩
  rcases List.mem_append.mp mem with mem | mem
  · exact faithful.bindings b' mem other hb
  · rw [List.mem_singleton.mp mem, event] at hb
    cases hb

end Draft.Faithful

/-! ## Compiling -/

namespace Compile

variable {α β : Type} {P : Draft → Prop}

/-- A part of a compilation keeps what holds of the draft, also if it fails. -/
def Keeps (P : Draft → Prop) (a : Compile α) : Prop := ∀ d, P d → P (a.on d).2

theorem Keeps.pure (x : α) : Keeps P (pure x : Compile α) := fun _ h => h

theorem Keeps.throw (e : CompileError) : Keeps P (throw e : Compile α) := fun _ h => h

theorem Keeps.bind {a : Compile α} {f : α → Compile β} (ha : Keeps P a) (hf : ∀ x, Keeps P (f x)) :
    Keeps P (a >>= f) := by
  intro d h
  have first := ha d h
  rw [on_bind]
  rcases hr : a.on d with ⟨_ | x, d'⟩
  · simpa only [hr] using first
  · simp only [hr] at first ⊢
    exact hf x d' first

theorem Keeps.forM (xs : List α) {f : α → Compile Unit} (hf : ∀ x, Keeps P (f x)) :
    Keeps P (xs.forM f) := by
  induction xs with
  | nil => exact .pure ()
  | cons x rest ih => exact (hf x).bind fun _ => ih

theorem keeps_path (expression origin : String) : Keeps P (path expression origin) := by
  unfold path
  split
  · exact .pure _
  · exact .throw _

theorem on_bindValue (vm : ViewModel) (n : NodeId) (path : KeyPath) (directive : Directive)
    (kind : BindingKind) (d : Draft) : (bindValue vm n path directive kind).on d =
      (.ok (), ⟨d.world.display vm n path directive,
        d.wiring ++ [⟨n, kind, some ⟨d.world.watchers.size + 1⟩⟩]⟩) := rfl

variable {count : Nat} {marks : Markers}

/-- A draft that is compiled at an element. -/
def At (count : Nat) (marks : Markers) (n : NodeId) (d : Draft) : Prop :=
  d.Faithful count marks ∧ d.world.page.IsElement n

theorem keeps_bindDirective (vm : ViewModel) (n : NodeId) (directive : Directive)
    (name value : String) : Keeps (At count marks n) (bindDirective vm n directive name value) := by
  unfold bindDirective
  refine (keeps_path value name).bind fun path => ?_
  rintro d ⟨faithful, element⟩
  have speaks (s : String) (face : d.world.page.face? n = some (.text s, [])) :
      marks.interpolation s ≠ none := absurd ⟨s, [], face⟩ element.not_isText
  dsimp only
  split
  · rename_i model
    rw [on_bind, on_onWorld]
    simp only [on_bindValue]
    refine ⟨(faithful.listen n inputEvent (.writeBack vm.link path)).display rfl element ?_ speaks,
      ?_⟩
    · exact fun _ => List.mem_append_right _ (List.mem_singleton_self _)
    · rw [World.page_display]
      refine Page.isElement_showing ?_ directive n _
      exact element
  · rename_i other
    rw [on_bindValue]
    refine ⟨faithful.display rfl element (fun model => absurd model other) speaks, ?_⟩
    rw [World.page_display]
    exact Page.isElement_showing element directive n _

theorem keeps_bindEvent (vm : ViewModel) (n : NodeId) (event method : String) :
    Keeps (At count marks n) (bindEvent vm n event method) := by
  rintro d ⟨faithful, element⟩
  unfold bindEvent
  rw [on_bind, on_onWorld]
  dsimp only
  split
  · exact ⟨faithful, element⟩
  · exact ⟨(faithful.listen n event _).hold rfl, element⟩

theorem keeps_compileAttribute (vm : ViewModel) (n : NodeId) (name value : String) :
    Keeps (At count marks n) (compileAttribute marks vm n name value) := by
  unfold compileAttribute
  split
  · exact .pure _
  · exact keeps_bindEvent vm n _ _
  · split
    · exact .pure _
    · exact keeps_bindDirective vm n _ name value

theorem keeps_compileText (vm : ViewModel) {n : NodeId} {d : Draft}
    (faithful : d.Faithful count marks) (text : d.world.page.IsText n) :
    ((compileText marks vm n).on d).2.Faithful count marks := by
  unfold compileText
  rw [on_bind, on_get]
  dsimp only
  split
  · exact faithful
  · rename_i expression marked
    have speaks (s : String) (face : d.world.page.face? n = some (.text s, [])) :
        marks.interpolation s ≠ none := by
      intro silent
      rw [Page.textOf_of_leaf face, silent] at marked
      cases marked
    rcases parsed : KeyPath.parse expression with cause | path
    · rw [on_bind, nothing_of_path parsed]
      exact faithful
    · rw [on_bind, on_path parsed]
      simp only [on_bindValue]
      exact faithful.display rfl text nofun speaks

theorem keeps_compileNode (vm : ViewModel) (n : NodeId) :
    Keeps (Draft.Faithful count marks) (compileNode marks vm n) := by
  intro d faithful
  unfold compileNode
  rw [on_bind, on_get]
  dsimp only
  split
  · rename_i tag attributes properties markup content
    have element : d.world.page.IsElement n :=
      ⟨_, _, _, _, _, Page.face?_of_content? content⟩
    have each : Keeps (At count marks n) _ := Keeps.forM attributes fun named =>
      keeps_compileAttribute vm n named.1 named.2
    exact (each d ⟨faithful, element⟩).1
  · rename_i s content
    exact keeps_compileText vm faithful ⟨s, _, Page.face?_of_content? content⟩
  · exact faithful

theorem keeps_compileBelow (vm : ViewModel) (fuel : Nat) (n : NodeId) :
    Keeps (Draft.Faithful count marks) (compileBelow marks vm fuel n) := by
  induction fuel generalizing n with
  | zero => exact .pure _
  | succ fuel ih =>
    unfold compileBelow
    apply Keeps.bind
    · exact fun _ faithful => faithful
    · intro d
      exact .forM _ fun child => (keeps_compileNode vm child).bind fun _ => ih child

/-! ## Worlds that are compiled -/

section

variable {S : World → Prop}
  (display : ∀ w vm n path directive, S w → S (World.display w vm n path directive))
  (listen : ∀ (w : World) n event response, S w →
    S { w with page := w.page.listen n event response })

include display in
theorem stays_bindValue (vm : ViewModel) (n : NodeId) (path : KeyPath) (directive : Directive)
    (kind : BindingKind) : Keeps (fun d => S d.world) (bindValue vm n path directive kind) := by
  intro d h
  rw [on_bindValue]
  exact display _ vm n path directive h

include display listen

theorem stays_compileAttribute (marks : Markers) (vm : ViewModel) (n : NodeId)
    (name value : String) : Keeps (fun d => S d.world) (compileAttribute marks vm n name value) := by
  unfold compileAttribute
  split
  · exact .pure _
  · rename_i event _
    unfold bindEvent
    refine Keeps.bind (fun _ h => h) fun found => ?_
    split
    · exact .throw _
    · exact Keeps.bind (fun _ h => listen _ n event _ h) fun _ _ h => h
  · split
    · exact .pure _
    · rename_i directive _
      unfold bindDirective
      refine (keeps_path value name).bind fun path => ?_
      dsimp only
      split
      · refine Keeps.bind (fun _ h => listen _ n inputEvent _ h) fun _ => ?_
        exact stays_bindValue display vm n path directive _
      · exact stays_bindValue display vm n path directive _

theorem stays_compileNode (marks : Markers) (vm : ViewModel) (n : NodeId) :
    Keeps (fun d => S d.world) (compileNode marks vm n) := by
  unfold compileNode
  refine Keeps.bind (fun _ h => h) fun d => ?_
  split
  · exact .forM _ fun named => stays_compileAttribute display listen marks vm n named.1 named.2
  · unfold compileText
    refine Keeps.bind (fun _ h => h) fun d => ?_
    dsimp only
    split
    · exact .pure _
    · exact (keeps_path _ _).bind fun path => stays_bindValue display vm n path .text _
  · exact .pure _

/-- What lasts when a value is shown and watched, and when a listener is added, lasts when a page is
compiled, also if that fails. -/
theorem stays_compileBelow (marks : Markers) (vm : ViewModel) (fuel : Nat) (n : NodeId) :
    Keeps (fun d => S d.world) (compileBelow marks vm fuel n) := by
  induction fuel generalizing n with
  | zero => exact .pure _
  | succ fuel ih =>
    unfold compileBelow
    refine Keeps.bind (fun _ h => h) fun d => ?_
    exact .forM _ fun child =>
      (stays_compileNode display listen marks vm child).bind fun _ => ih child

end

end Compile

namespace World

variable {w : World}

/-- Compiling removes no listener. -/
theorem mem_listeners_compile {l : Listener Response} (there : l ∈ w.page.listeners)
    (marks : Markers) (vm : ViewModel) (root : NodeId) :
    l ∈ (w.compile marks vm root).1.page.listeners := by
  rw [compile_eq]
  refine Compile.stays_compileBelow (S := fun w => l ∈ w.page.listeners) ?_ ?_ marks vm _ root
    ⟨w, []⟩ there
  · intro w vm n path directive h
    rwa [page_display, (Page.repaints_showing _ directive n _).listeners]
  · exact fun w n event response h => List.mem_append_left _ h

/-- The watchers of a page that was compiled, be it to the end or not. -/
theorem Housed.compile (housed : w.Housed) (marks : Markers) (vm : ViewModel) (root : NodeId) :
    (w.compile marks vm root).1.Housed := by
  rw [compile_eq]
  have start : Draft.Faithful w.watchers.size marks ⟨w, []⟩ := .nothing housed
  exact (Compile.keeps_compileBelow vm (w.page.nodes.size + 2) root _ start).housed

/-- The bindings of a page that was compiled. -/
theorem binds_compile (housed : w.Housed) {marks : Markers} {vm : ViewModel} {root : NodeId}
    {wiring : Wiring} (ok : (w.compile marks vm root).2 = .ok wiring) {b : Binding}
    (hb : b ∈ wiring) {directive : Directive} (shows : b.kind.directive? = some directive) :
    ∃ id watcher,
      (w.compile marks vm root).1.Binds w.watchers.size marks b id watcher directive := by
  have start : Draft.Faithful w.watchers.size marks ⟨w, []⟩ := .nothing housed
  have all := Compile.keeps_compileBelow vm (w.page.nodes.size + 2) root _ start
  rw [compile_eq] at ok ⊢
  rcases hr : (Compile.compileBelow marks vm (w.page.nodes.size + 2) root).on ⟨w, []⟩
    with ⟨_ | _, d⟩
  · rw [hr] at ok
    cases ok
  · rw [hr] at ok all
    cases ok
    exact all.bindings b hb directive shows

end World

end DataBinding
