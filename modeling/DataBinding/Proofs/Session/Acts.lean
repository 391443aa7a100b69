-- Actions and what they keep. An action of a sound session leaves a sound one: its handles name what was
-- made before, nobody collects dependencies, and the heap has changed by licensed edits only. The rules
-- below follow the way an action is put together, so the effect of a step is read off its text.
import DataBinding.Proofs.Heap.Histories
import DataBinding.Proofs.World.Births
import DataBinding.Session.Perform

namespace DataBinding

/-! ## Worlds -/

structure World.Sound (w : World) : Prop where
  closed : w.heap.Closed
  enrolled : w.heap.Enrolled w.watchers.size
  collector : w.collector = none

/-- A world has all containers and watchers of another one. -/
structure World.Extends (w' w : World) : Prop where
  heap : w'.heap.Extends w.heap
  watchers : w.watchers.size ≤ w'.watchers.size

theorem World.Extends.refl (w : World) : w.Extends w := ⟨.refl _, Nat.le_refl _⟩

theorem World.Extends.trans {w₁ w₂ w₃ : World} (b : w₃.Extends w₂) (a : w₂.Extends w₁) :
    w₃.Extends w₁ := ⟨b.heap.trans a.heap, Nat.le_trans a.watchers b.watchers⟩

/-- The heap changes by licensed edits; the watchers stay, and nobody starts to collect. -/
structure World.Changes (licence : Licence) (owed : List WatcherId) (w w' : World) : Prop where
  heap : Heap.Edited w.watchers.size licence w.heap owed w'.heap
  watchers : w'.watchers = w.watchers
  collector : w'.collector = w.collector

namespace World.Changes

variable {licence : Licence} {owed later : List WatcherId} {w w₁ w₂ : World}

theorem refl (w : World) : w.Changes licence [] w := ⟨.nil, rfl, rfl⟩

theorem trans (a : w.Changes licence owed w₁) (b : w₁.Changes licence later w₂) :
    w.Changes licence (owed ++ later) w₂ := by
  refine ⟨?_, b.watchers.trans a.watchers, b.collector.trans a.collector⟩
  have count : w₁.watchers.size = w.watchers.size := congrArg Array.size a.watchers
  exact a.heap.trans (count ▸ b.heap)

theorem extend (a : w.Changes licence owed w₁) : w₁.Extends w :=
  ⟨a.heap.extend, Nat.le_of_eq (congrArg Array.size a.watchers).symm⟩

theorem sound (a : w.Changes licence owed w₁) (sound : w.Sound) : w₁.Sound := by
  refine ⟨a.heap.closed sound.closed, ?_, a.collector.trans sound.collector⟩
  rw [a.watchers]
  exact a.heap.enrolled sound.enrolled

/-- A change of what is not in the heap. -/
theorem aside {w' : World} (heap : w'.heap = w.heap) (watchers : w'.watchers = w.watchers)
    (collector : w'.collector = w.collector) : w.Changes licence [] w' :=
  ⟨heap ▸ .nil, watchers, collector⟩

end World.Changes

theorem World.Wires.extend {w w' : World} (wires : w.Wires w') : w'.Extends w :=
  ⟨wires.sameFaces.extends, wires.size_le⟩

theorem World.Wires.sound {w w' : World} (wires : w.Wires w') (sound : w.Sound) : w'.Sound :=
  ⟨wires.closed sound.closed, wires.enrolled sound.enrolled,
    wires.collector.trans sound.collector⟩

/-! ## Sessions -/

structure Session.Sound (s : Session) : Prop where
  world : s.world.Sound
  values : ∀ entry ∈ s.values, s.world.heap.Knows entry.2
  views : ∀ entry ∈ s.views, s.world.heap.Knows (.map entry.2.model)
  watchers : ∀ entry ∈ s.watchers, entry.2.Among s.world.watchers.size

/-- The argument of a script is known. -/
def Context.Known (c : Context) (w : World) : Prop := ∀ v, c.argument = some v → w.heap.Knows v

theorem Context.Known.mono {c : Context} {w w' : World} (known : c.Known w) (ext : w'.Extends w) :
    c.Known w' := fun v hv => ext.heap.knows (known v hv)

/-- The handles of a session outlast every change of the world. -/
theorem Session.Sound.onWorld {s : Session} (sound : s.Sound) {w : World} (hw : w.Sound)
    (ext : w.Extends s.world) : { s with world := w }.Sound :=
  ⟨hw, fun entry h => ext.heap.knows (sound.values entry h),
    fun entry h => ext.heap.knows (sound.views entry h),
    fun entry h => (sound.watchers entry h).mono ext.watchers⟩

theorem mem_of_lookup {α : Type} {name : String} {entries : List (String × α)} {a : α}
    (h : entries.lookup name = some a) : (name, a) ∈ entries := by
  induction entries with
  | nil => cases h
  | cons entry rest ih =>
    obtain ⟨other, b⟩ := entry
    rw [List.lookup_cons] at h
    split at h
    · rename_i e
      cases h
      exact List.mem_cons.mpr (.inl (by rw [beq_iff_eq.mp e]))
    · exact List.mem_cons_of_mem _ (ih h)

theorem mem_putEntry {α : Type} {name : String} {a : α} {entries : List (String × α)}
    {entry : String × α} (h : entry ∈ putEntry name a entries) :
    entry = (name, a) ∨ entry ∈ entries := by
  induction entries with
  | nil => exact .inl (by simpa [putEntry] using h)
  | cons first rest ih =>
    obtain ⟨other, b⟩ := first
    unfold putEntry at h
    split at h
    · rcases List.mem_cons.mp h with h | h
      · exact .inl h
      · exact .inr (List.mem_cons_of_mem _ h)
    · rcases List.mem_cons.mp h with h | h
      · exact .inr (List.mem_cons.mpr (.inl h))
      · exact (ih h).imp_right (List.mem_cons_of_mem _)

theorem Session.Sound.value? {s : Session} (sound : s.Sound) {name : String} {v : Value}
    (h : s.value? name = some v) : s.world.heap.Knows v := by
  unfold Session.value? at h
  rcases hv : s.values.lookup name with _ | v'
  · rw [hv, Option.none_or] at h
    obtain ⟨view, hview, rfl⟩ := Option.map_eq_some_iff.mp h
    exact sound.views _ (mem_of_lookup hview)
  · rw [hv, Option.some_or] at h
    cases h
    exact sound.values _ (mem_of_lookup hv)

/-! ## Running an action -/

namespace Act

variable {α β : Type}

/-- The outcome of an action and the session after it. -/
def on (a : Act α) (c : Context) (s : Session) : Except Fault α × Session := (a.run c).run.run s

theorem on_pure (x : α) (c : Context) (s : Session) : (pure x : Act α).on c s = (.ok x, s) := rfl

theorem on_bind (a : Act α) (f : α → Act β) (c : Context) (s : Session) :
    (a >>= f).on c s = match a.on c s with
      | (.ok x, s') => (f x).on c s'
      | (.error e, s') => (.error e, s') := by
  unfold on
  simp only [ReaderT.run_bind, ExceptT.run_bind, StateT.run_bind]
  rcases (a.run c).run.run s with ⟨_ | x, s'⟩ <;> rfl

theorem on_onWorld (f : World → World × α) (c : Context) (s : Session) :
    (onWorld f).on c s = (.ok (f s.world).2, { s with world := (f s.world).1 }) := rfl

/-! ## What an action keeps -/

variable {licence : Licence} {w₀ : World} {Q : World → α → Prop} {R : World → β → Prop}

/-- In every world that has all of `w₀`, a sound session stays sound, the edits of the action are
licensed and owe nobody a turn, and its value is as `Q` says. -/
def Keeps (licence : Licence) (w₀ : World) (a : Act α) (Q : World → α → Prop) : Prop :=
  ∀ c s, s.Sound → c.Known s.world → s.world.Extends w₀ →
    (a.on c s).2.Sound ∧ s.world.Changes licence [] (a.on c s).2.world ∧
      ∀ x, (a.on c s).1 = .ok x → Q (a.on c s).2.world x

theorem Keeps.pure {x : α} (hx : ∀ w, w.Sound → w.Extends w₀ → Q w x) :
    Keeps licence w₀ (pure x) Q := by
  intro c s sound _ ext
  refine ⟨sound, .refl _, ?_⟩
  intro y hy
  cases hy
  exact hx s.world sound.world ext

theorem Keeps.fail {f : Fault} : Keeps licence w₀ (fail f : Act α) Q := by
  intro c s sound _ _
  refine ⟨sound, .refl _, ?_⟩
  intro y hy
  cases hy

theorem Keeps.bind {a : Act α} {f : α → Act β} (ha : Keeps licence w₀ a Q)
    (hf : ∀ x w, w.Sound → w.Extends w₀ → Q w x → Keeps licence w (f x) R) :
    Keeps licence w₀ (a >>= f) R := by
  intro c s sound known ext
  obtain ⟨sound₁, changes₁, value⟩ := ha c s sound known ext
  rw [on_bind]
  rcases hr : a.on c s with ⟨_ | x, s₁⟩
  · simp only [hr] at sound₁ changes₁ ⊢
    refine ⟨sound₁, changes₁, ?_⟩
    intro y hy
    cases hy
  · simp only [hr] at sound₁ changes₁ value ⊢
    have ext₁ := changes₁.extend
    obtain ⟨sound₂, changes₂, value₂⟩ := hf x s₁.world sound₁.world (ext₁.trans ext) (value x rfl)
      c s₁ sound₁ (known.mono ext₁) (.refl _)
    exact ⟨sound₂, changes₁.trans changes₂, value₂⟩

theorem Keeps.imp {a : Act α} {Q' : World → α → Prop} (ha : Keeps licence w₀ a Q)
    (imp : ∀ w x, w.Sound → w.Extends w₀ → Q w x → Q' w x) : Keeps licence w₀ a Q' := by
  intro c s sound known ext
  obtain ⟨sound₁, changes, value⟩ := ha c s sound known ext
  exact ⟨sound₁, changes, fun x hx =>
    imp _ x sound₁.world (changes.extend.trans ext) (value x hx)⟩

/-- The session, the context and the world, as they are. -/
theorem keeps_get : Keeps licence w₀ get fun w s => s.Sound ∧ s.world = w := by
  intro c s sound _ _
  refine ⟨sound, .refl _, ?_⟩
  intro y hy
  cases hy
  exact ⟨sound, rfl⟩

theorem keeps_read : Keeps licence w₀ read fun w c => c.Known w := by
  intro c s sound known _
  refine ⟨sound, .refl _, ?_⟩
  intro y hy
  cases hy
  exact known

theorem keeps_world : Keeps licence w₀ world fun w x => x = w := by
  intro c s sound _ _
  refine ⟨sound, .refl _, ?_⟩
  intro y hy
  cases hy
  rfl

theorem keeps_heap : Keeps licence w₀ heap fun w x => x = w.heap := by
  intro c s sound _ _
  refine ⟨sound, .refl _, ?_⟩
  intro y hy
  cases hy
  rfl

theorem keeps_page : Keeps licence w₀ page fun _ _ => True := by
  intro c s sound _ _
  exact ⟨sound, .refl _, fun _ _ => trivial⟩

/-- A change of the handles. -/
theorem keeps_modify {f : Session → Session}
    (hf : ∀ s, s.Sound → s.world.Extends w₀ → (f s).Sound ∧ (f s).world = s.world) :
    Keeps licence w₀ (modify f) fun _ _ => True := by
  intro c s sound _ ext
  obtain ⟨sound', same⟩ := hf s sound ext
  exact ⟨sound', .aside (congrArg World.heap same) (congrArg World.watchers same)
    (congrArg World.collector same), fun _ _ => trivial⟩

theorem keeps_onWorld {f : World → World × α} (hf : ∀ w, w.Sound → w.Extends w₀ →
    w.Changes licence [] (f w).1 ∧ Q (f w).1 (f w).2) : Keeps licence w₀ (onWorld f) Q := by
  intro c s sound _ ext
  obtain ⟨changes, value⟩ := hf s.world sound.world ext
  refine ⟨sound.onWorld (changes.sound sound.world) changes.extend, changes, ?_⟩
  intro y hy
  cases hy
  exact value

theorem keeps_found {what name : String} {x : Option α} {P : α → Prop}
    (hx : ∀ a, x = some a → P a) : Keeps licence w₀ (found what name x) fun _ a => P a := by
  cases x with
  | none => exact .fail
  | some a => exact .pure fun _ _ _ => hx a rfl

theorem keeps_ofPath {x : Except PathError α} : Keeps licence w₀ (ofPath x) fun _ _ => True := by
  cases x with
  | ok a => exact .pure fun _ _ _ => trivial
  | error cause => exact .fail

theorem keeps_parse {expression : String} :
    Keeps licence w₀ (parse expression) fun _ _ => True := keeps_ofPath

theorem keeps_viewModel {name : String} :
    Keeps licence w₀ (viewModel name) fun _ _ => True := by
  unfold viewModel
  split
  · exact keeps_read.bind fun _ _ _ _ _ => keeps_found fun _ _ => trivial
  · exact keeps_get.bind fun _ _ _ _ _ => keeps_found fun _ _ => trivial

theorem keeps_watcher {name : String} :
    Keeps licence w₀ (watcher name) fun w id => id.Among w.watchers.size := by
  unfold watcher
  apply keeps_get.bind
  rintro s w₁ _ _ ⟨sound, rfl⟩
  have among : ∀ id, s.watchers.lookup name = some id → id.Among s.world.watchers.size :=
    fun id hid => sound.watchers _ (mem_of_lookup hid)
  exact (keeps_found among).imp fun w id _ ext hid => hid.mono ext.watchers

theorem keeps_link {name : String} : Keeps licence w₀ (link name) fun _ _ => True := by
  unfold link
  exact keeps_get.bind fun _ _ _ _ _ => keeps_found fun _ _ => trivial

theorem keeps_node {name : String} : Keeps licence w₀ (node name) fun _ _ => True := by
  unfold node
  exact keeps_get.bind fun _ _ _ _ _ => keeps_found fun _ _ => trivial

theorem keeps_wiring {name : String} : Keeps licence w₀ (wiring name) fun _ _ => True := by
  unfold wiring
  exact keeps_get.bind fun _ _ _ _ _ => keeps_found fun _ _ => trivial

theorem keeps_marks {term : MarksTerm} : Keeps licence w₀ (marks term) fun _ _ => True := by
  unfold marks
  split
  · exact .pure fun _ _ _ => trivial
  · split
    · exact .pure fun _ _ _ => trivial
    · exact .fail

theorem keeps_newScript {caller : Caller} {tag : String} {steps : List Step}
    {limit : Option Nat} :
    Keeps licence w₀ (newScript caller tag steps limit) fun _ _ => True := by
  intro c s sound _ _
  exact ⟨⟨sound.world, sound.values, sound.views, sound.watchers⟩, .refl _, fun _ _ => trivial⟩

theorem keeps_onPage {f : Page Response → Page Response × α} :
    Keeps licence w₀ (onPage f) fun _ _ => True :=
  keeps_onWorld fun _ _ _ => ⟨.aside rfl rfl rfl, trivial⟩

theorem keeps_nameNode {name : Option String} {n : NodeId} :
    Keeps licence w₀ (nameNode name n) fun _ _ => True := by
  unfold nameNode
  split
  · exact .pure fun _ _ _ => trivial
  · exact keeps_modify fun s sound _ =>
      ⟨⟨sound.world, sound.values, sound.views, sound.watchers⟩, rfl⟩

end Act

end DataBinding
