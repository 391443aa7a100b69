-- Observation in sessions. To observe a value marks what it leads to, and calls nobody. In every state of a
-- session the slots hold observed values; and as long as nothing writes to a key of an observed map
-- that is no slot, or to a position of an observed list, its heap is deep.
import DataBinding.Proofs.Heap.Attaching
import DataBinding.Proofs.Heap.Depth
import DataBinding.Proofs.Session.Deeds.Moves
import DataBinding.Proofs.Session.Runs

namespace DataBinding

/-! ## One observation -/

theorem Act.perform_observe {c : Context} {s s' : Session} {t : Term} {v : Value}
    (arg : t.eval.on c s = (.ok v, s')) : s.perform c (.observe t) =
      ({ s' with world := { s'.world with heap := s'.world.heap.observe v } },
        .ofReply (.observed (v.same v) v)) := by
  refine Session.perform_of_ok ?_
  dsimp only [Step.perform]
  rw [Act.on_bind, arg]
  rfl

/-- To observe a value is exact: of every heap, whatever circles there are in it, it marks the containers
that the value leads to through containers that are not observed, makes slots of their keys, and
leaves the rest as it is. To observe twice is to observe once, and the order of two observations does
not matter. A step that observes a value leaves no turn and no call to be done. -/
theorem observation_is_exact (h : Heap) (v : Value) :
    h.Observes v (h.observe v) ∧ (h.observe v).observe v = h.observe v ∧
    (∀ other, (h.observe v).observe other = (h.observe other).observe v) ∧
    ∀ (c : Context) (s s' : Session) (t : Term), t.eval.on c s = (.ok v, s') →
      s'.world.heap = h → (s.perform c (.observe t)).1.world.heap = h.observe v ∧
        (s.perform c (.observe t)).2.work = .nothing := by
  refine ⟨h.observes_observe v, Heap.observe_of_isObserved (h.isObserved_observe v),
    h.observe_comm v, ?_⟩
  rintro c s s' t arg rfl
  rw [Act.perform_observe arg]
  exact ⟨rfl, rfl⟩

/-- A session that holds a map in a list that the map holds. -/
def inCircle : Session :=
  { Session.empty with
    world := { World.empty with heap := .circle }
    values := [("x", .map ⟨0⟩)] }

theorem observation_in_circle :
    (Term.handle "x" []).eval.on .outside inCircle = (.ok (.map ⟨0⟩), inCircle) ∧
    Heap.circle.Leads (.map ⟨0⟩) (.list ⟨0⟩) ∧ Heap.circle.Leads (.list ⟨0⟩) (.map ⟨0⟩) ∧
    (inCircle.perform .outside (.observe (.handle "x" []))).1.world.heap =
      Heap.circle.observe (.map ⟨0⟩) ∧
    (inCircle.perform .outside (.observe (.handle "x" []))).2.work = .nothing ∧
    (Heap.circle.observe (.map ⟨0⟩)).mark? (.list ⟨0⟩) = some true ∧
    (Heap.circle.observe (.map ⟨0⟩)).watchers? (.slot ⟨0⟩ "a") = some [] := by
  obtain ⟨observes, -, -, performed⟩ := observation_is_exact Heap.circle (.map ⟨0⟩)
  have arg : (Term.handle "x" []).eval.on .outside inCircle = (.ok (.map ⟨0⟩), inCircle) := by cbv
  obtain ⟨heap, work⟩ := performed .outside inCircle inCircle (.handle "x" []) arg rfl
  have leads : Heap.circle.OpenTo (.map ⟨0⟩) (.list ⟨0⟩) :=
    .through rfl rfl (List.mem_singleton_self _) (.here rfl rfl)
  have forth : Heap.circle.Leads (.map ⟨0⟩) (.list ⟨0⟩) :=
    .step .refl (List.mem_singleton_self _) rfl
  have back : Heap.circle.Leads (.list ⟨0⟩) (.map ⟨0⟩) :=
    .step .refl (List.mem_singleton_self _) rfl
  refine ⟨arg, forth, back, heap, work, ((observes.marked _).mpr leads).2, ?_⟩
  exact observes.slots _ (.here rfl rfl) _ (List.mem_singleton_self _)

/-! ## What the edits of a step put in -/

variable {c : Context} {s s' : Session} {call : Call}

/-- The value of an action is as its effect says. -/
theorem Act.Keeps.value_after {α : Type} {Q : World → α → Prop} {a : Act α} {x : α}
    (keeps : Act.Keeps .none s.world a Q) (sound : s.Sound) (known : c.Known s.world)
    (h : a.on c s = (.ok x, s')) : Q s'.world x := by
  obtain ⟨_, _, value⟩ := keeps c s sound known (.refl _)
  rw [h] at value
  exact value x rfl

theorem World.Assigns.fits {w : World} {t : TableId} {path : KeyPath} {v : Value}
    (assigns : w.Assigns t path v call) (known : w.heap.Knows v) : call.edit.Fits w.heap := by
  cases assigns <;> exact ⟨by simpa [Call.edit, Edit.values] using known, trivial⟩

theorem MapOp.Calls.fits {m : MapId} {op : MapOp} (calls : op.Calls c m s call s')
    (sound : s.Sound) (known : c.Known s.world) : call.edit.Fits s'.world.heap := by
  cases calls with
  | set arg | attach arg _ =>
    have hv := (Term.keeps_eval _ _).value_after sound known arg
    exact ⟨by simpa [Call.edit, Edit.values] using hv, trivial⟩

/-- Items that are drawn from a list and from known values. -/
theorem Heap.Closed.fits_mutate {h : Heap} (closed : h.Closed) {l : ListId}
    {items inserted : List Value} (known : ∀ v ∈ inserted, h.Knows v)
    (drawn : ∀ v ∈ items, v ∈ h.items l ∨ v ∈ inserted) :
    (Edit.mutate l items inserted).Fits h := by
  refine ⟨fun v hv => ?_, drawn⟩
  rcases drawn v hv with old | new
  · exact closed.items old
  · exact known v new

theorem ListOp.Calls.fits {l : ListId} {op : ListOp} (calls : op.Calls c l s call s')
    (sound : s.Sound) (known : c.Known s.world) : call.edit.Fits s'.world.heap := by
  have closed := (calls.sound sound known).world.closed
  cases calls with
  | push arg =>
    have hv := (Term.keeps_eval _ _).value_after sound known arg
    refine closed.fits_mutate (by simpa using hv) fun v hv => ?_
    exact List.mem_append.mp hv
  | unshift arg =>
    have hv := (Term.keeps_eval _ _).value_after sound known arg
    refine closed.fits_mutate (by simpa using hv) fun v hv => ?_
    rcases List.mem_cons.mp hv with rfl | hv
    · exact .inr (List.mem_singleton_self _)
    · exact .inl hv
  | pop => exact closed.fits_mutate (by simp) fun v hv => .inl (List.mem_of_mem_dropLast hv)
  | shift => exact closed.fits_mutate (by simp) fun v hv => .inl (List.mem_of_mem_tail hv)
  | sort | sortBy => exact closed.fits_mutate (by simp) fun v hv => .inl (List.mem_mergeSort.mp hv)
  | reverse => exact closed.fits_mutate (by simp) fun v hv => .inl (List.mem_reverse.mp hv)
  | splice args =>
    have hvs := (Term.keeps_evalAll _ _).value_after sound known args
    refine closed.fits_mutate hvs fun v hv => ?_
    rcases List.mem_append.mp hv with hv | hv
    · exact (List.mem_append.mp hv).imp_left List.mem_of_mem_take
    · exact .inl (List.mem_of_mem_drop hv)
  | set arg =>
    have hv := (Term.keeps_eval _ _).value_after sound known arg
    exact ⟨by simpa [Call.edit, Edit.values] using hv, trivial⟩

theorem ViewModelOp.Calls.fits {vm : ViewModel} {op : ViewModelOp}
    (calls : op.Calls c vm s call s') (sound : s.Sound) (known : c.Known s.world) :
    call.edit.Fits s'.world.heap := by
  cases calls with
  | set arg _ =>
    have hv := (Term.keeps_eval _ _).value_after sound known arg
    exact ⟨by simpa [Call.edit, Edit.values] using hv, trivial⟩
  | assign _ arg assigns => exact assigns.fits ((Term.keeps_eval _ _).value_after sound known arg)

theorem Step.Calls.fits {step : Step} (calls : step.Calls c s call s') (sound : s.Sound)
    (known : c.Known s.world) : call.edit.Fits s'.world.heap := by
  cases calls with
  | map on calls =>
    obtain ⟨sound, known, _⟩ := (Term.keeps_evalMap _).sound_after sound known on
    exact calls.fits sound known
  | list on calls =>
    obtain ⟨sound, known, _⟩ := (Term.keeps_evalList _).sound_after sound known on
    exact calls.fits sound known
  | viewModel on calls =>
    obtain ⟨sound, known, _⟩ := Act.keeps_viewModel.sound_after sound known on
    exact calls.fits sound known

/-- The edit of a step is made in a sound session and puts in known values. Unless it is the edit of a
call, it is no bare write. -/
theorem Step.Touches.fits {step : Step} {e : Edit} (touches : step.Touches c s e s')
    (sound : s.Sound) (known : c.Known s.world) :
    s'.Sound ∧ e.Fits s'.world.heap ∧
      ((∃ call, step.Calls c s call s' ∧ e = call.edit) ∨ ¬e.Bares s'.world.heap) := by
  cases touches with
  | call calls =>
    exact ⟨(calls.carried sound known).1, calls.fits sound known, .inl ⟨_, calls, rfl⟩⟩
  | map on touches =>
    obtain ⟨sound₁, known₁, _⟩ := (Term.keeps_evalMap _).sound_after sound known on
    cases touches with
    | call calls =>
      exact ⟨calls.sound sound₁ known₁, calls.fits sound₁ known₁, .inl ⟨_, .map on calls, rfl⟩⟩
    | define arg | attach arg _ =>
      have hv := (Term.keeps_eval _ _).value_after sound₁ known₁ arg
      exact ⟨((Term.keeps_eval _ _).sound_after sound₁ known₁ arg).1,
        ⟨by simpa [Edit.values] using hv, trivial⟩, .inr fun no => no⟩
  | observe arg =>
    exact ⟨((Term.keeps_eval _ _).sound_after sound known arg).1, ⟨by simp [Edit.values], trivial⟩,
      .inr fun no => no⟩
  | origin arg =>
    exact ⟨((Term.keeps_evalMap _).sound_after sound known arg).1, ⟨by simp [Edit.values], trivial⟩,
      .inr fun no => no⟩
  | view arg read made =>
    obtain ⟨sound₁, known₁, _⟩ := (Term.keeps_eval _ _).sound_after sound known arg
    obtain ⟨sound₂, known₂, _⟩ := Act.keeps_marks.sound_after sound₁ known₁ read
    obtain ⟨sound₃, _, _⟩ := (keeps_newMethods _ _).sound_after sound₂ known₂ made
    exact ⟨sound₃, ⟨by simp [Edit.values], trivial⟩, .inr fun no => no⟩

/-! ## Deep sessions -/

/-- What touches no container leaves all marked ones as they are. -/
theorem Deed.rests {d : Deed} (w : World) (plain : d.touch? = none) :
    Heap.Rests w.heap (d.apply w).heap := by
  cases d with
  | edit e =>
    cases e with
    | newMap entries => exact Heap.rests_newMap _ entries
    | newList items => exact Heap.rests_newList _ items
    | newRegistry => exact Heap.rests_newRegistry _
    | register id r => exact Heap.rests_register _ id r
    | observe _ | set _ _ _ | define _ _ _ | mutate _ _ _ | place _ _ _ => cases plain
  | depend crossed => exact (w.sameFaces_depend crossed).rests
  | watch link path script =>
    rw [apply, World.watch_eq]
    exact (Heap.sameFaces_foldl_register _ _ _).rests
  | compile marks vm root => exact (w.wires_compile marks vm root).sameFaces.rests
  | tables _ _ | listen _ _ _ | page _ => exact (Heap.SameFaces.refl _).rests

namespace Machine

variable {m : Machine}

/-- The next move makes a bare write: to a key of an observed map that is no slot, or to a position of an
observed list. -/
def Bares (m : Machine) : Prop := ∃ call w, m.Makes call w ∧ call.edit.Bares w.heap

theorem Touches.fits {e : Edit} {w : World} (touches : m.Touches e w) (sound : m.Sound)
    (covered : ¬m.Bares) : w.Sound ∧ e.Fits w.heap ∧ ¬e.Bares w.heap := by
  cases touches with
  | @call call _ makes =>
    have bare : ¬call.edit.Bares w.heap := fun bare => covered ⟨call, w, makes, bare⟩
    refine ⟨(makes_effect sound makes).1, ?_, bare⟩
    cases makes with
    | @step context tag step remaining rest _ _ top calls =>
      exact calls.fits sound.session (sound.frames (.steps context tag (step :: remaining))
        (by simp [top]))
    | writeBack _ _ assigns => exact assigns.fits trivial
  | @step context tag step remaining rest _ s top touches =>
    have known : context.Known m.world := sound.frames (.steps context tag (step :: remaining))
      (by simp [top])
    obtain ⟨sound', fits, ⟨call, calls, rfl⟩ | plain⟩ := touches.fits sound.session known
    · exact ⟨sound'.world, fits, fun bare => covered ⟨call, _, .step top calls, bare⟩⟩
    · exact ⟨sound'.world, fits, plain⟩

/-- A move that makes no bare write leaves a deep heap. -/
theorem deep_next (sound : m.Sound) (covered : ¬m.Bares) (deep : m.world.heap.Deep) :
    m.next.world.heap.Deep := by
  have each (w : World) (d : Deed) (may : m.May w d)
      (now : w.collector = none ∧ w.heap.Deep) :
      (d.apply w).collector = none ∧ (d.apply w).heap.Deep := by
    refine ⟨(d.collector_apply w).trans now.1, ?_⟩
    rcases ht : d.touch? with _ | e
    · exact (d.rests w ht).deep now.2
    · obtain ⟨w', touches, same⟩ := may.touches e ht
      obtain ⟨sound', fits, bare⟩ := touches.fits sound covered
      obtain rfl : w = w' := same sound'.collector
      rw [Deed.apply_of_touch? ht]
      exact Heap.deep_apply sound'.closed now.2 fits bare
  have moved : m.moved.world.heap.Deep :=
    (m.does.keeps (P := fun w => w.collector = none ∧ w.heap.Deep) each
      ⟨sound.session.world.collector, deep⟩).2
  exact m.next_effect.2.2.2.2.rests.deep moved

theorem slotsObserved_next (sound : m.Sound) (slots : m.world.heap.SlotsObserved) :
    m.next.world.heap.SlotsObserved := by
  obtain ⟨owed, mid, moves⟩ := moves sound
  have edited := moves.changes.heap.slotsObserved sound.session.world.closed slots
  have wired := moves.wires.sameFaces.slotsObserved edited
  exact m.next_effect.2.2.2.2.slotsObserved wired

theorem Run.slotsObserved {may : Machine → Prop} {m₀ : Machine} {events : List Event}
    (run : Run may m₀ events m) (sound : m₀.Sound) (slots : m₀.world.heap.SlotsObserved) :
    m.world.heap.SlotsObserved := by
  induction run with
  | start => exact slots
  | move before _ ih => exact slotsObserved_next (before.sound sound) ih

theorem Run.deep {m₀ : Machine} {events : List Event} (run : Run (fun m => ¬m.Bares) m₀ events m)
    (sound : m₀.Sound) (deep : m₀.world.heap.Deep) : m.world.heap.Deep := by
  induction run with
  | start => exact deep
  | move before covered ih => exact deep_next (before.sound sound) covered ih

/-- Observation is deep. In every state of a session the slots hold observed values. If no move made a
bare write, whatever an observed container leads to is observed, and every key of an observed map is
a slot. -/
theorem observation_is_deep {steps : List Step} {shows : List Show} {events : List Event}
    (run : Run (fun _ => True) (start steps shows) events m) :
    m.world.heap.SlotsObserved ∧
    (Run (fun m => ¬m.Bares) (start steps shows) events m →
      (∀ c d, m.world.heap.mark? c = some true → m.world.heap.Leads c d →
        m.world.heap.mark? d ≠ some false) ∧
      ∀ map key, m.world.heap.mark? (.map map) = some true → key ∈ m.world.heap.keys map →
        m.world.heap.isSlot map key = true) := by
  have sound := sound_start steps shows
  have nothing (map : MapId) (key : String) : (start steps shows).world.heap.lookup? map key = none := by
    simp [start, world, Session.empty, World.empty, Heap.empty, Heap.lookup?, Heap.map?]
  refine ⟨run.slotsObserved sound fun map key e he => ?_, fun covered => ?_⟩
  · rw [nothing] at he
    cases he
  · have deep := covered.deep sound Heap.deep_empty
    exact ⟨fun _ _ => deep.unmarked_of_leads, fun _ _ marked there => deep.isSlot marked there⟩

/-- A session that observes a map with a map in it. -/
def nestedOrigin : List Step :=
  [.newViewModel "vm" (.observed (.document (.object [("a", .object [("b", .int 1)])])))]

theorem observation_of_nested_maps : ∃ events m,
    Run (fun m => ¬m.Bares) (start nestedOrigin []) events m ∧
    m.world.heap.mark? (.map ⟨1⟩) = some true ∧ m.world.heap.Leads (.map ⟨1⟩) (.map ⟨0⟩) ∧
    m.world.heap.mark? (.map ⟨0⟩) ≠ some false ∧ m.world.heap.isSlot ⟨1⟩ "a" = true := by
  have covered : ¬(start nestedOrigin []).Bares := by
    rintro ⟨call, w, makes, -⟩
    cases makes with
    | step top calls =>
      cases top
      cases calls
    | writeBack top _ _ => cases top
  have allowed (k : Nat) (hk : k < 1) : ¬((start nestedOrigin []).after k).Bares := by
    obtain rfl : k = 0 := by omega
    exact covered
  have run : Run (fun m => ¬m.Bares) (start nestedOrigin []) _ _ := run_after 1 allowed
  have every : Run (fun _ => True) (start nestedOrigin []) _ _ := run_after 1 fun _ _ => trivial
  obtain ⟨_, deep⟩ := observation_is_deep every
  obtain ⟨leads, slots⟩ := deep run
  have marked : ((start nestedOrigin []).after 1).world.heap.mark? (.map ⟨1⟩) = some true := by cbv
  have held : ((start nestedOrigin []).after 1).world.heap.contents (.map ⟨1⟩) = [.map ⟨0⟩] := by cbv
  have keys : ((start nestedOrigin []).after 1).world.heap.keys ⟨1⟩ = ["a"] := by cbv
  have way : ((start nestedOrigin []).after 1).world.heap.Leads (.map ⟨1⟩) (.map ⟨0⟩) :=
    .step .refl (held ▸ List.mem_singleton_self _) rfl
  exact ⟨_, _, run, marked, way, leads _ _ marked way,
    slots _ _ marked (keys ▸ List.mem_singleton_self _)⟩

end Machine

end DataBinding
