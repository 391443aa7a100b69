-- Calls that write. A key of a map is written by a step on the map, by a property or a path of a view
-- model, or by an input field that writes back; a list by one of its seven operations, or at a
-- position. All of them share one gate: only an observed slot whose value differs and an observed list
-- owe their watchers a round, and the round is opened when the value is stored.
import DataBinding.Proofs.Heap.Spreading
import DataBinding.Proofs.Session.Rounds

namespace DataBinding

/-! ## Calls -/

/-- A write to a key, the replacement of the items of a list by one of the seven operations, or a write
to a position. -/
inductive Call where
  | write (m : MapId) (key : String) (v : Value)
  | mutate (l : ListId) (items inserted : List Value)
  | place (l : ListId) (position : Nat) (v : Value)

namespace Call

def edit : Call → Edit
  | .write m key v => .set m key v
  | .mutate l items inserted => .mutate l items inserted
  | .place l position v => .place l position v

/-- The gate: the watchers of an observed slot whose value differs from the new one, or of an observed
list, in the order of their registration; nobody for every other call. -/
def round (h : Heap) : Call → List WatcherId
  | .write m key v =>
    match h.lookup? m key with
    | some ⟨_, old, some watchers⟩ => if old.same v then [] else watchers
    | _ => []
  | .mutate l _ _ =>
    match h.list? l with
    | some c => if c.observed then c.watchers else []
    | none => []
  | .place _ _ _ => []

/-- What is stored when the call is made. A slot that has the value already is left alone; for any other
slot the value is observed first, and then stored; another key gets it as it is. The items of a list are
replaced, and then what was inserted into an observed one is observed. -/
def Stored (h h' : Heap) : Call → Prop
  | .write m key v =>
    match h.lookup? m key with
    | some ⟨_, old, some _⟩ =>
      if old.same v then h' = h
      else (∃ seen, h.Observes v seen ∧ h' = seen.changeMap m (·.store key v)) ∧
        h'.peek m key = some v ∧ h'.IsObserved v
    | _ => h' = h.changeMap m (·.store key v) ∧
      (h.isLive (.map m) = true → h'.peek m key = some v ∧ h'.isSlot m key = false)
  | .mutate l items inserted => ∀ c, h.list? l = some c → h'.items l = items ∧
    if c.observed then
      (h.changeList l ({ · with items })).ObservesAll inserted h' ∧ ∀ v ∈ inserted, h'.IsObserved v
    else h' = h.changeList l ({ · with items })
  | .place l position v => h.isLive (.list l) = true → h'.item? l position = some v

theorem round_eq (h : Heap) (call : Call) : call.round h = (call.edit.apply h).2 := by
  cases call with
  | write m key v =>
    unfold round
    rcases h.set_cases m key v with ⟨old, ws, he, same, e⟩ | ⟨old, ws, he, differ, e⟩ | ⟨plain, e⟩
    · simp [edit, Edit.apply, e, he, same]
    · simp [edit, Edit.apply, e, he, differ]
    · simp only [edit, Edit.apply, e]
      split
      · rename_i he
        simp [Heap.isSlot, he] at plain
      · rfl
  | mutate l items inserted =>
    unfold round
    rcases h.mutate_cases l items inserted with ⟨hl, e⟩ | ⟨c, hl, ho, e⟩ | ⟨c, hl, ho, e⟩
    · simp [edit, Edit.apply, e, hl]
    · simp [edit, Edit.apply, e, hl, ho]
    · simp [edit, Edit.apply, e, hl, ho]
  | place l position v => rfl

theorem peek_store {h : Heap} {m : MapId} (live : h.isLive (.map m) = true) (key : String)
    (v : Value) : (h.changeMap m (·.store key v)).peek m key = some v := by
  obtain ⟨c, hc⟩ := Option.isSome_iff_exists.mp live
  simp [Heap.peek, Heap.lookup?_changeMap, hc, MapCell.lookup?_store]

theorem isSlot_store (h : Heap) (m : MapId) (key : String) (v : Value) :
    (h.changeMap m (·.store key v)).isSlot m key = h.isSlot m key := by
  unfold Heap.isSlot
  rw [Heap.lookup?_changeMap, if_pos rfl]
  rcases hm : h.map? m with _ | c
  · simp [Heap.lookup?, hm]
  · simp [Heap.lookup?, hm, MapCell.lookup?_store]

theorem isLive_of_lookup? {h : Heap} {m : MapId} {key : String} {e : Entry}
    (he : h.lookup? m key = some e) : h.isLive (.map m) = true := by
  obtain ⟨c, hc, _⟩ := Heap.lookup?_eq_some_iff.mp he
  exact Option.isSome_of_mem hc

/-- The value is stored, and observed where it has to be, when the round is opened. -/
theorem stored (h : Heap) (call : Call) : call.Stored h (call.edit.apply h).1 := by
  cases call with
  | write m key v =>
    unfold Stored
    rcases h.set_cases m key v with ⟨old, ws, he, same, e⟩ | ⟨old, ws, he, differ, e⟩ | ⟨plain, e⟩
    · simp [edit, Edit.apply, e, he, same]
    · simp only [edit, Edit.apply, e, he, differ, Bool.false_eq_true, if_false]
      have o := Heap.observedFrom_observe h v
      have live : (h.observe v).isLive (.map m) = true := by
        obtain ⟨c, hc⟩ := Option.isSome_iff_exists.mp (isLive_of_lookup? he)
        have : (h.observe v).map? m ≠ none := fun none => by
          rw [(o.map?_eq_none m).mp none] at hc
          cases hc
        exact Option.isSome_iff_ne_none.mpr this
      exact ⟨⟨_, h.observes_observe v, rfl⟩, peek_store live key v,
        Heap.isObserved_changeMap (h.isObserved_observe v) m (Heap.observed_store · key v)⟩
    · simp only [edit, Edit.apply, e]
      split
      · rename_i he
        simp [Heap.isSlot, he] at plain
      · exact ⟨trivial, fun live => ⟨peek_store live key v, (isSlot_store h m key v).trans plain⟩⟩
  | mutate l items inserted =>
    intro c hc
    have items' : (h.changeList l ({ · with items })).items l = items := by
      simp [Heap.items, Heap.list?_changeList, hc]
    rcases h.mutate_cases l items inserted with ⟨hl, e⟩ | ⟨c', hl, ho, e⟩ | ⟨c', hl, ho, e⟩
    · rw [hl] at hc
      cases hc
    · obtain rfl : c = c' := Option.some.inj (hc.symm.trans hl)
      simp only [edit, Edit.apply, e, ho, if_true]
      refine ⟨?_, Heap.observesAll_observeAll _ _, Heap.isObserved_observeAll _ _⟩
      rw [(Heap.observedFrom_observeAll _ _).items l, items']
    · obtain rfl : c = c' := Option.some.inj (hc.symm.trans hl)
      simp only [edit, Edit.apply, e, ho, Bool.false_eq_true, if_false]
      exact ⟨items', trivial⟩
  | place l position v =>
    intro live
    obtain ⟨c, hc⟩ := Option.isSome_iff_exists.mp live
    have hlt : position < (c.items ++
        List.replicate (position + 1 - c.items.length) Value.null).length := by
      simp only [List.length_append, List.length_replicate]
      omega
    simp only [edit, Edit.apply, Heap.setItem, Heap.item?, Heap.list?_changeList, if_true, hc,
      Option.map_some, Option.bind_some]
    rw [List.getElem?_set_self hlt]

end Call

/-! ## Where calls come from -/

/-- An assignment to a path writes the property that a single segment names, or the key or the
position that a longer path leads to. -/
inductive World.Assigns (w : World) (t : TableId) (path : KeyPath) (v : Value) : Call → Prop where
  | property {m : MapId} (simple : path.isSimple = true) (target : w.target? t path.head = some m) :
      Assigns w t path v (.write m path.head v)
  | key {m : MapId} {r : Reading} (long : path.isSimple = false)
      (parent : w.heap.walk? (w.readProperty t path.head) path.rest.dropLast = some r)
      (map : r.value = .map m) : Assigns w t path v (.write m path.last v)
  | position {l : ListId} {i : Nat} {r : Reading} (long : path.isSimple = false)
      (parent : w.heap.walk? (w.readProperty t path.head) path.rest.dropLast = some r)
      (list : r.value = .list l) (index : Text.position? path.last = some i) :
      Assigns w t path v (.place l i v)

/-- A step on a map calls a write once its term is evaluated; a slot is attached by a write if it is
there. -/
inductive MapOp.Calls (c : Context) (m : MapId) (s : Session) : MapOp → Call → Session → Prop where
  | set {key : String} {t : Term} {v : Value} {s' : Session} (arg : t.eval.on c s = (.ok v, s')) :
      Calls c m s (.set key t) (.write m key v) s'
  | attach {key : String} {t : Term} {v : Value} {s' : Session}
      (arg : t.eval.on c s = (.ok v, s')) (slot : s'.world.heap.isSlot m key = true) :
      Calls c m s (.attach key t) (.write m key v) s'

/-- The seven operations of a list and the write to a position. -/
inductive ListOp.Calls (c : Context) (l : ListId) (s : Session) :
    ListOp → Call → Session → Prop where
  | push {t : Term} {v : Value} {s' : Session} (arg : t.eval.on c s = (.ok v, s')) :
      Calls c l s (.push t) (.mutate l (s'.world.heap.items l ++ [v]) [v]) s'
  | unshift {t : Term} {v : Value} {s' : Session} (arg : t.eval.on c s = (.ok v, s')) :
      Calls c l s (.unshift t) (.mutate l (v :: s'.world.heap.items l) [v]) s'
  | pop : Calls c l s .pop (.mutate l (s.world.heap.items l).dropLast []) s
  | shift : Calls c l s .shift (.mutate l (s.world.heap.items l).tail []) s
  | sort : Calls c l s .sort
      (.mutate l ((s.world.heap.items l).mergeSort s.world.heap.textOrder) []) s
  | sortBy {by' : Comparator} : Calls c l s (.sortBy by')
      (.mutate l ((s.world.heap.items l).mergeSort (by'.le s.world.heap)) []) s
  | reverse : Calls c l s .reverse (.mutate l (s.world.heap.items l).reverse []) s
  | splice {start count : Nat} {ts : List Term} {vs : List Value} {s' : Session}
      (args : (Term.evalAll ts).on c s = (.ok vs, s')) :
      Calls c l s (.splice start count ts)
        (.mutate l ((s'.world.heap.items l).take (min start (s'.world.heap.items l).length) ++ vs ++
          (s'.world.heap.items l).drop (min (min start (s'.world.heap.items l).length + count)
            (s'.world.heap.items l).length)) vs) s'
  | set {position : Nat} {t : Term} {v : Value} {s' : Session}
      (arg : t.eval.on c s = (.ok v, s')) :
      Calls c l s (.set position t) (.place l position v) s'

/-- A step on a view model writes a property or assigns to a path. -/
inductive ViewModelOp.Calls (c : Context) (vm : ViewModel) (s : Session) :
    ViewModelOp → Call → Session → Prop where
  | set {key : String} {t : Term} {v : Value} {m : MapId} {s' : Session}
      (arg : t.eval.on c s = (.ok v, s')) (target : s'.world.target? vm.table key = some m) :
      Calls c vm s (.set key t) (.write m key v) s'
  | assign {expression : String} {path : KeyPath} {t : Term} {v : Value} {call : Call}
      {s' : Session} (parsed : KeyPath.parse expression = .ok path)
      (arg : t.eval.on c s = (.ok v, s')) (assigns : s'.world.Assigns vm.table path v call) :
      Calls c vm s (.assign expression t) call s'

/-- The call that a step makes, and the session in which it is made. -/
inductive Step.Calls (c : Context) (s : Session) : Step → Call → Session → Prop where
  | map {t : Term} {op : MapOp} {m : MapId} {call : Call} {s₁ s₂ : Session}
      (on : t.evalMap.on c s = (.ok m, s₁)) (calls : op.Calls c m s₁ call s₂) :
      Calls c s (.map t op) call s₂
  | list {t : Term} {op : ListOp} {l : ListId} {call : Call} {s₁ s₂ : Session}
      (on : t.evalList.on c s = (.ok l, s₁)) (calls : op.Calls c l s₁ call s₂) :
      Calls c s (.list t op) call s₂
  | viewModel {name : String} {op : ViewModelOp} {vm : ViewModel} {call : Call} {s₁ s₂ : Session}
      (on : (Act.viewModel name).on c s = (.ok vm, s₁)) (calls : op.Calls c vm s₁ call s₂) :
      Calls c s (.viewModel name op) call s₂

/-- The call that the next move makes, and the world in which it is made: the call of a step, or the
assignment of an input field that writes back. -/
inductive Machine.Makes (m : Machine) : Call → World → Prop where
  | step {context : Context} {tag : Option String} {step : Step} {remaining : List Step}
      {rest : List Frame} {call : Call} {s : Session}
      (top : m.frames = .steps context tag (step :: remaining) :: rest)
      (calls : step.Calls context m.session call s) : Makes m call s.world
  | writeBack {event : PageEvent} {text : String} {link : Link} {path : KeyPath}
      {responses : List Response} {rest : List Frame} {call : Call}
      (top : m.frames = .hearing event (.writeBack link path :: responses) :: rest)
      (value : event.value = some text)
      (assigns : (m.world.follow link).1.Assigns (m.world.follow link).2.table path (.text text)
        call) : Makes m call (m.world.follow link).1

/-! ## What a call does -/

/-- The action makes the call in the given world and leaves its round as work. -/
def Call.Carried (call : Call) (w : World) (result : Except Fault Outcome × Session) : Prop :=
  ∃ outcome, result.1 = .ok outcome ∧ result.2.world.heap = (call.edit.apply w.heap).1 ∧
    (outcome.work = .turns (call.round w.heap) ∨
      call.round w.heap = [] ∧ outcome.work = .nothing)

namespace World

/-- An assignment that makes a call is the call. -/
theorem assign_of_assigns {w : World} (sound : w.Sound) {t : TableId} {path : KeyPath} {v : Value}
    {call : Call} (assigns : w.Assigns t path v call) :
    (w.assign t path v).1.heap = (call.edit.apply w.heap).1 ∧
      (w.assign t path v).2 = .ok (call.round w.heap) := by
  rw [call.round_eq]
  unfold assign
  cases assigns with
  | property simple target =>
    rw [if_pos simple]
    simp only [setProperty, target]
    exact ⟨rfl, rfl⟩
  | key long parent map =>
    simp only [long, Bool.false_eq_true, if_false, depend_of_none sound.collector, parent,
      assignIn, map]
    exact ⟨rfl, rfl⟩
  | position long parent list index =>
    simp only [long, Bool.false_eq_true, if_false, depend_of_none sound.collector, parent,
      assignIn, list, index]
    exact ⟨rfl, rfl⟩

end World

variable {c : Context} {s s' : Session} {call : Call}

/-- A write that owes turns makes the call that it applies. -/
theorem Call.carried_owing {f : Heap → Heap × List WatcherId} (reply : Reply Value) (held : Held)
    (hf : f s.world.heap = call.edit.apply s.world.heap) :
    call.Carried s.world
      ((do return .owing reply (← Act.onHeap f) held : Act Outcome).on c s) := by
  refine ⟨.owing reply (f s.world.heap).2 held, rfl, ?_, .inl ?_⟩
  · show (f s.world.heap).1 = _
    rw [hf]
  · rw [Call.round_eq, ← hf]
    rfl

theorem MapOp.Calls.carried {m : MapId} {op : MapOp} (calls : op.Calls c m s call s') :
    call.Carried s'.world ((op.perform m).on c s) := by
  cases calls with
  | set arg =>
    unfold MapOp.perform
    rw [Act.on_bind, arg]
    exact Call.carried_owing _ _ rfl
  | attach arg slot =>
    unfold MapOp.perform
    rw [Act.on_bind, arg]
    refine Call.carried_owing _ _ ?_
    simp only [Heap.attach, slot, if_true]
    rfl

theorem ListOp.Calls.carried {l : ListId} {op : ListOp} (calls : op.Calls c l s call s') :
    call.Carried s'.world ((op.perform l).on c s) := by
  cases calls with
  | @push _ v _ arg =>
    unfold ListOp.perform
    rw [Act.on_bind, arg]
    exact Call.carried_owing (c := c) (f := (·.push l v)) _ _ rfl
  | @unshift _ v _ arg =>
    unfold ListOp.perform
    rw [Act.on_bind, arg]
    exact Call.carried_owing (c := c) (f := (·.unshift l v)) _ _ rfl
  | pop => exact Call.carried_owing (c := c) (f := (·.pop l)) _ _ rfl
  | shift => exact Call.carried_owing (c := c) (f := (·.shift l)) _ _ rfl
  | sort | sortBy | reverse => exact Call.carried_owing _ _ rfl
  | @splice start count _ vs _ args =>
    unfold ListOp.perform
    rw [Act.on_bind, args]
    exact Call.carried_owing (c := c) (f := (·.splice l start count vs)) _ _ rfl
  | set arg =>
    unfold ListOp.perform
    rw [Act.on_bind, arg]
    exact ⟨_, rfl, rfl, .inr ⟨rfl, rfl⟩⟩

theorem ViewModelOp.Calls.carried {vm : ViewModel} {op : ViewModelOp}
    (calls : op.Calls c vm s call s') (sound : s'.world.Sound) :
    call.Carried s'.world ((op.perform vm).on c s) := by
  cases calls with
  | @set key _ v m _ arg target =>
    unfold ViewModelOp.perform
    rw [Act.on_bind, arg]
    have e : s'.world.setProperty vm.table key v =
        ({ s'.world with heap := (s'.world.heap.set m key v).1 },
          .ok (s'.world.heap.set m key v).2) := by
      simp [World.setProperty, target, World.written]
    show Call.Carried _ _ ((ViewModelOp.writing vm _ (·.setProperty vm.table key v)).on c s')
    unfold ViewModelOp.writing
    rw [Act.on_bind, Act.on_onWorld]
    simp only [e]
    refine ⟨_, rfl, rfl, .inl ?_⟩
    rw [Call.round_eq]
    rfl
  | @assign expression path _ v _ _ parsed arg assigns =>
    obtain ⟨heap, owed⟩ := World.assign_of_assigns sound assigns
    have parse : (Act.parse expression).on c s = (.ok path, s) := by
      unfold Act.parse
      rw [parsed]
      rfl
    unfold ViewModelOp.perform
    rw [Act.on_bind, parse]
    simp only
    rw [Act.on_bind, arg]
    simp only
    rw [Act.on_bind]
    show Call.Carried _ _ ((ViewModelOp.writing vm _ (·.assign vm.table path v)).on c s')
    unfold ViewModelOp.writing
    rw [Act.on_bind, Act.on_onWorld]
    simp only [owed]
    exact ⟨_, rfl, heap, .inl rfl⟩

/-! ## Sound arguments -/

theorem Act.Keeps.sound_after {α : Type} {Q : World → α → Prop} {a : Act α}
    (keeps : Act.Keeps .none s.world a Q) (sound : s.Sound) (known : c.Known s.world)
    {result : Except Fault α} (h : a.on c s = (result, s')) :
    s'.Sound ∧ c.Known s'.world ∧ s'.world.Extends s.world := by
  obtain ⟨sound', changes, _⟩ := keeps c s sound known (.refl _)
  rw [h] at sound' changes
  exact ⟨sound', known.mono changes.extend, changes.extend⟩

theorem MapOp.Calls.sound {m : MapId} {op : MapOp} (calls : op.Calls c m s call s')
    (sound : s.Sound) (known : c.Known s.world) : s'.Sound := by
  cases calls with
  | set arg | attach arg _ => exact ((Term.keeps_eval _ _).sound_after sound known arg).1

theorem ListOp.Calls.sound {l : ListId} {op : ListOp} (calls : op.Calls c l s call s')
    (sound : s.Sound) (known : c.Known s.world) : s'.Sound := by
  cases calls with
  | push arg | unshift arg | set arg =>
    exact ((Term.keeps_eval _ _).sound_after sound known arg).1
  | splice args => exact ((Term.keeps_evalAll _ _).sound_after sound known args).1
  | pop | shift | sort | sortBy | reverse => exact sound

theorem ViewModelOp.Calls.sound {vm : ViewModel} {op : ViewModelOp}
    (calls : op.Calls c vm s call s') (sound : s.Sound) (known : c.Known s.world) : s'.Sound := by
  cases calls with
  | set arg _ | assign _ arg _ => exact ((Term.keeps_eval _ _).sound_after sound known arg).1

/-- A step that makes a call leaves its round as work; the call is made in a sound session. -/
theorem Step.Calls.carried {step : Step} (calls : step.Calls c s call s') (sound : s.Sound)
    (known : c.Known s.world) : s'.Sound ∧ call.Carried s'.world (step.perform.on c s) := by
  cases calls with
  | map on calls =>
    obtain ⟨sound₁, known₁, _⟩ := (Term.keeps_evalMap _).sound_after sound known on
    refine ⟨calls.sound sound₁ known₁, ?_⟩
    unfold Step.perform
    rw [Act.on_bind, on]
    exact calls.carried
  | list on calls =>
    obtain ⟨sound₁, known₁, _⟩ := (Term.keeps_evalList _).sound_after sound known on
    refine ⟨calls.sound sound₁ known₁, ?_⟩
    unfold Step.perform
    rw [Act.on_bind, on]
    exact calls.carried
  | viewModel on calls =>
    obtain ⟨sound₁, known₁, _⟩ := Act.keeps_viewModel.sound_after sound known on
    have sound₂ := calls.sound sound₁ known₁
    refine ⟨sound₂, ?_⟩
    unfold Step.perform
    rw [Act.on_bind, on]
    exact calls.carried sound₂.world

/-! ## Opening a round -/

namespace Machine

/-- The frames that a move keeps below the round of its call: the reply and the remaining steps, or what
the write of an input holds and the remaining listeners. -/
inductive Kept (m : Machine) : List Frame → Prop where
  | step {context : Context} {tag : Option String} {step : Step} {remaining : List Step}
      {rest : List Frame} (top : m.frames = .steps context tag (step :: remaining) :: rest)
      (reply : Reply Value) (held : Held) : Kept m [.reply tag reply held, .steps context tag remaining]
  | writeBack {event : PageEvent} {response : Response} {responses : List Response}
      {rest : List Frame} (top : m.frames = .hearing event (response :: responses) :: rest)
      (held : Held) : Kept m [.keep held, .hearing event responses]

theorem Kept.owed_eq_nil {m : Machine} {kept : List Frame} (keeps : m.Kept kept) :
    ∀ frame ∈ kept, frame.owed = [] := by
  cases keeps <;> simp [Frame.owed]

/-- A call in a machine: where it is made, what the heap is afterwards, and the frames that come of it. -/
theorem makes_effect {m : Machine} (sound : m.Sound) {call : Call} {w : World}
    (makes : m.Makes call w) : w.Sound ∧ m.moved.world.heap = (call.edit.apply w.heap).1 ∧
      ∃ kept, m.Kept kept ∧
        (m.next.frames = .turns (call.round w.heap) :: kept ++ m.frames.tail ∨
          call.round w.heap = [] ∧ m.next.frames = kept ++ m.frames.tail) := by
  cases makes with
  | @step context tag step remaining rest _ s top calls =>
    have known : context.Known m.world := sound.frames (.steps context tag (step :: remaining))
      (by simp [top])
    obtain ⟨sound', outcome, ok, heap, work⟩ := calls.carried sound.session known
    have performed : m.session.perform context step =
        ((step.perform.on context m.session).2, outcome) :=
      Session.perform_of_ok (by rw [← ok])
    refine ⟨sound'.world, ?_, _, .step top outcome.reply outcome.held, ?_⟩
    · rw [moved_of_cons top]
      simp only [move, performed]
      exact heap
    · rw [next_frames top, top]
      simp only [move, performed, List.tail_cons]
      rcases work with work | ⟨nobody, work⟩
      · exact .inl (by simp [work, Frame.ofWork])
      · exact .inr ⟨nobody, by simp [work, Frame.ofWork]⟩
  | @writeBack event text link path responses rest _ top value assigns =>
    have follows := World.changes_follow .none m.world link
    have sound' := follows.sound sound.session.world
    obtain ⟨heap, owed⟩ := World.assign_of_assigns sound' assigns
    rcases hr : (m.world.follow link).1.assign (m.world.follow link).2.table path (.text text)
      with ⟨world, result⟩
    rw [hr] at heap owed
    simp only at heap owed
    subst owed
    obtain ⟨held, e⟩ := hear_writeBack_of_ok value hr
    refine ⟨sound', ?_, _, .writeBack top held, .inl ?_⟩
    · rw [moved_of_cons top]
      simp only [move, e]
      exact heap
    · rw [next_frames top, top]
      simp only [move, e]
      rfl

/-- Rounds are exact. In every state of a session, a call stores its value first, observed where it has
to be. Then the watchers that the gate lets through, each one once, have one turn each, in the
order of their registration: whatever the turns lead to, at every later time those who had their
turn and those who still wait are together the watchers of the round, and each one is handed what
its own path reads when its turn begins, with nothing above the round. Beside the round only the reply
and the steps or listeners that remain are kept, and they owe nobody a turn. -/
theorem rounds_are_exact {steps : List Step} {shows : List Show} {m : Machine}
    {events : List Event} (run : Run (fun _ => True) (start steps shows) events m) {call : Call}
    {w : World} (makes : m.Makes call w) :
    call.Stored w.heap m.moved.world.heap ∧ (call.round w.heap).Nodup ∧
    ∃ kept, m.Kept kept ∧ (∀ frame ∈ kept, frame.owed = []) ∧
      (call.round w.heap = [] ∧ m.next.frames = kept ++ m.frames.tail ∨
        m.next.frames = .turns (call.round w.heap) :: kept ++ m.frames.tail ∧
        m.next.Course (kept ++ m.frames.tail) (call.round w.heap)) := by
  have sound := run.sound (sound_start steps shows)
  obtain ⟨sound', heap, kept, keeps, frames⟩ := makes_effect sound makes
  refine ⟨heap ▸ call.stored w.heap, ?_, kept, keeps, keeps.owed_eq_nil, ?_⟩
  · rw [Call.round_eq]
    exact (Heap.owed_enrolled sound'.enrolled call.edit).1
  · rcases frames with frames | ⟨nobody, frames⟩
    · exact .inr ⟨frames, course_of_turns (sound_next sound) frames⟩
    · exact .inl ⟨nobody, frames⟩

theorem makes_while_watching :
    (watching.after 2).Makes (.write ⟨0⟩ "a" (.text "x")) (watching.after 2).world := by
  have top : (watching.after 2).frames = [.steps ⟨none, none⟩ none
      [.viewModel "vm" (.set "a" (.document (.text "x")))]] := by cbv
  have on : (Act.viewModel "vm").on ⟨none, none⟩ (watching.after 2).session =
      (.ok ⟨⟨0⟩, ⟨0⟩⟩, (watching.after 2).session) := by cbv
  have target : (watching.after 2).world.target? ⟨0⟩ "a" = some ⟨0⟩ := by cbv
  exact .step top (.viewModel on (.set rfl target))

theorem round_of_one_watcher : ∃ events m w,
    Run (fun _ => True) (start oneWatcher []) events m ∧ m.Makes (.write ⟨0⟩ "a" (.text "x")) w ∧
    (Call.write ⟨0⟩ "a" (.text "x")).round w.heap = [⟨1⟩] ∧ ∃ tail, m.next.Course tail [⟨1⟩] := by
  have run : Run (fun _ => True) (start oneWatcher []) _ _ := run_after 6 fun _ _ => trivial
  rw [after_of_one_watcher 2] at run
  have makes := makes_while_watching
  have round : (Call.write ⟨0⟩ "a" (.text "x")).round (watching.after 2).world.heap = [⟨1⟩] := by cbv
  obtain ⟨_, _, kept, _, _, ⟨nobody, _⟩ | ⟨_, course⟩⟩ := rounds_are_exact run makes
  · rw [round] at nobody
    cases nobody
  · rw [round] at course
    exact ⟨_, _, _, run, makes, round, _, course⟩

end Machine

end DataBinding
