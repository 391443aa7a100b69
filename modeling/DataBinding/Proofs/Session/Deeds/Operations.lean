-- What operations on maps, lists and view models do. Each one is a list of deeds, and where one of them is
-- a write to a key, to a list or to a position, the operation makes that call.
import DataBinding.Proofs.Session.Deeds

namespace DataBinding

/-! ## View models -/

namespace World

/-- Nothing but tables and mounts is different. -/
def Aside (w w' : World) : Prop := ∃ ts ms, w' = { w with tables := ts, mounts := ms }

theorem Aside.trans {w₁ w₂ w₃ : World} (a : w₁.Aside w₂) (b : w₂.Aside w₃) : w₁.Aside w₃ := by
  obtain ⟨_, _, rfl⟩ := a
  obtain ⟨ts, ms, rfl⟩ := b
  exact ⟨ts, ms, rfl⟩

theorem aside_newViewModel (w : World) : w.Aside w.newViewModel.1 := ⟨_, _, rfl⟩

theorem aside_mount (w : World) (vm : ViewModel) (name : String) (m : MapId) :
    w.Aside (w.mount vm name m) := ⟨_, _, rfl⟩

theorem aside_flatten (w : World) (t : TableId) (name : String) : w.Aside (w.flatten t name).1 := by
  unfold flatten
  split
  · exact ⟨_, _, rfl⟩
  · exact ⟨_, _, rfl⟩

theorem aside_putMethod (w : World) (t : TableId) (name : String) (script : ScriptId) :
    w.Aside (w.putMethod t name script) := ⟨_, _, rfl⟩

theorem aside_follow (w : World) (l : Link) : w.Aside (w.follow l).1 := by
  unfold follow
  split
  · exact ⟨_, _, rfl⟩
  · exact ⟨_, _, rfl⟩

theorem aside_viewModelOf (w : World) (m : MapId) : w.Aside (w.viewModelOf m).1 :=
  (w.aside_newViewModel.trans (aside_mount _ _ modelName m)).trans (aside_flatten _ _ modelName)

theorem aside_mounting (w : World) (plan : ViewPlan) (m : MapId) :
    World.Aside { w with heap := w.heap.observe plan.data } (w.mounting plan m).1 := by
  have methods (w : World) (t : TableId) :
      w.Aside (plan.methods.foldl (fun w method => w.putMethod t method.1 method.2) w) := by
    induction plan.methods generalizing w with
    | nil => exact ⟨_, _, rfl⟩
    | cons method rest ih => exact (aside_putMethod w t method.1 method.2).trans (ih _)
  exact (aside_viewModelOf _ m).trans (methods _ _)

end World

variable {c : Context} {s : Session} {paints binds : Prop}

/-- A change of tables and mounts. -/
theorem Act.Prepares.aside {α : Type} {f : World → World × α}
    (hf : ∀ w : World, w.Aside (f w).1) : Act.Prepares paints binds (Act.onWorld f) := by
  refine .onWorld fun w => ?_
  obtain ⟨ts, ms, e⟩ := hf w
  rw [e]
  exact .single (.tables ts ms) ⟨rfl, trivial⟩

/-! ## Edits that touch -/

/-- A step touches a map or a list by its call, and a map by the definition of a slot; other steps
observe what their term reads. -/
inductive MapOp.Touches (c : Context) (m : MapId) (s : Session) : MapOp → Edit → Session → Prop where
  | call {op : MapOp} {call : Call} {s' : Session} (calls : op.Calls c m s call s') :
      Touches c m s op call.edit s'
  | define {key : String} {t : Term} {v : Value} {s' : Session}
      (arg : t.eval.on c s = (.ok v, s')) : Touches c m s (.define key t) (.define m key v) s'
  | attach {key : String} {t : Term} {v : Value} {s' : Session}
      (arg : t.eval.on c s = (.ok v, s')) (plain : s'.world.heap.isSlot m key = false) :
      Touches c m s (.attach key t) (.define m key v) s'

inductive Step.Touches (c : Context) (s : Session) : Step → Edit → Session → Prop where
  | call {step : Step} {call : Call} {s' : Session} (calls : step.Calls c s call s') :
      Touches c s step call.edit s'
  | map {t : Term} {op : MapOp} {m : MapId} {e : Edit} {s₁ s₂ : Session}
      (on : t.evalMap.on c s = (.ok m, s₁)) (touches : op.Touches c m s₁ e s₂) :
      Touches c s (.map t op) e s₂
  | observe {t : Term} {v : Value} {s' : Session} (arg : t.eval.on c s = (.ok v, s')) :
      Touches c s (.observe t) (.observe v) s'
  | origin {name : String} {t : Term} {m : MapId} {s' : Session}
      (arg : t.evalMap.on c s = (.ok m, s')) :
      Touches c s (.newViewModel name (.observed t)) (.observe (.map m)) s'
  | view {name : String} {data : Term} {mount : Option String}
      {methods : List (String × List Step × Option Nat)} {marks : MarksTerm} {described : Bool}
      {v : Value} {given : Markers} {scripts : List (String × ScriptId)} {s₁ s₂ s₃ : Session}
      (arg : data.eval.on c s = (.ok v, s₁)) (read : (Act.marks marks).on c s₁ = (.ok given, s₂))
      (made : (newMethods methods).on c s₂ = (.ok scripts, s₃)) :
      Touches c s (.view name data mount methods marks described) (.observe v) s₃

/-- A deed of an operation: if it touches a container, the operation makes that edit. The world in which
it is made is the one of the deed, unless a watcher collects. -/
structure Deed.Of (touches : Edit → Session → Prop) (paints binds : Prop) (w : World) (d : Deed) :
    Prop where
  touches : ∀ e, d.touch? = some e →
    ∃ s, touches e s ∧ (s.world.collector = none → w = s.world)
  within : d.Within paints binds w

namespace Deed

variable {touches touches' : Edit → Session → Prop} {w : World} {d : Deed}

theorem Plain.of (plain : d.Plain paints binds w) : d.Of touches paints binds w := by
  refine ⟨fun e he => ?_, plain.2⟩
  rw [plain.1] at he
  cases he

theorem Of.mono (wider : ∀ e s, touches e s → touches' e s) (of : d.Of touches paints binds w) :
    d.Of touches' paints binds w := by
  refine ⟨fun e he => ?_, of.within⟩
  obtain ⟨s, hs, same⟩ := of.touches e he
  exact ⟨s, wider e s hs, same⟩

theorem eq_of_touch? {e other : Edit} (h : (Deed.edit e).touch? = some other) : other = e := by
  cases e <;> simp_all [touch?]

theorem Of.edit {e : Edit} (made : touches e s) (same : s.world.collector = none → w = s.world) :
    (Deed.edit e).Of touches paints binds w :=
  ⟨fun _ he => ⟨s, eq_of_touch? he ▸ made, same⟩, trivial⟩

end Deed

/-- One edit of the heap of a session. -/
theorem Edit.does {e : Edit} {touches : Edit → Session → Prop} {w' : World} (made : touches e s)
    (hw : w' = { s.world with heap := (e.apply s.world.heap).1 }) :
    s.world.Does (Deed.Of touches paints binds) w' := by
  subst hw
  exact .single (.edit e) (.edit made fun _ => rfl)

namespace Act

variable {α : Type} {touches : Edit → Session → Prop}

theorem Prepares.does {a : Act α} (prepares : Prepares paints binds a) :
    s.world.Does (Deed.Of touches paints binds) (a.on c s).2.world :=
  (prepares c s).mono fun _ _ plain => plain.of

/-- What comes before the edit of an operation. -/
theorem Prepares.does_bind {β : Type} {a : Act α} {f : α → Act β}
    (first : Prepares paints binds a) (second : ∀ x s', a.on c s = (.ok x, s') →
      s'.world.Does (Deed.Of touches paints binds) ((f x).on c s').2.world) :
    s.world.Does (Deed.Of touches paints binds) ((a >>= f).on c s).2.world :=
  Act.does_bind first.does second

theorem parse_of_on {expression : String} {path : KeyPath} {s s' : Session}
    (h : (parse expression).on c s = (.ok path, s')) :
    KeyPath.parse expression = .ok path ∧ s' = s := by
  unfold parse at h
  rcases hp : KeyPath.parse expression with cause | other <;> rw [hp] at h
  · cases h
  · cases h
    exact ⟨rfl, rfl⟩

end Act

/-- An assignment reads the parents of its path with tracking, and makes its call. -/
theorem World.does_assign {may : World → Deed → Prop} {w : World} {t : TableId} {path : KeyPath}
    {v : Value} (depends : ∀ crossed, may w (.depend crossed))
    (calls : ∀ call w', w.Assigns t path v call → (w.collector = none → w' = w) →
      may w' (.edit call.edit)) : w.Does may (w.assign t path v).1 := by
  unfold assign
  split
  · unfold setProperty
    split
    · exact .nil
    · exact .single (.edit (.set _ path.head v)) (calls _ w (.property ‹_› ‹_›) fun _ => rfl)
  · rename_i long
    have long : path.isSimple = false := by simpa using long
    have read (crossed : List Registry) : w.Does may (w.depend crossed) :=
      .single (.depend crossed) (depends crossed)
    dsimp only
    split
    · exact read _
    · rename_i r parent
      unfold assignIn
      split
      · exact (read _).snoc (calls _ _ (.key long parent ‹_›) fun none => depend_of_none none _)
      · split
        · exact (read _).snoc
            (calls _ _ (.position long parent ‹_› ‹_›) fun none => depend_of_none none _)
        · exact read _
      · exact read _

/-! ## Maps and lists -/

theorem MapOp.does (m : MapId) (op : MapOp) :
    s.world.Does (Deed.Of (op.Touches c m s) paints binds) ((op.perform m).on c s).2.world := by
  cases op with
  | get key =>
    refine (Act.prepares_heap.bind fun h => ?_).does
    exact (Act.Prepares.depend (fun _ => _) _).bind fun _ => .pure _
  | peek key => exact (Act.prepares_heap.bind fun _ => .pure _).does
  | set key v =>
    dsimp only [perform]
    refine v.prepares_eval.does_bind fun x s' arg => ?_
    exact Edit.does (.call (.set arg)) rfl
  | attach key v =>
    dsimp only [perform]
    refine v.prepares_eval.does_bind fun x s' arg => ?_
    show s'.world.Does _ { s'.world with heap := (s'.world.heap.attach m key x).1 }
    rcases hs : s'.world.heap.isSlot m key with _ | _
    · have e : s'.world.heap.attach m key x = (Edit.define m key x).apply s'.world.heap := by
        simp [Heap.attach, hs, Edit.apply]
      rw [e]
      exact Edit.does (.attach arg hs) rfl
    · have e : s'.world.heap.attach m key x = (Edit.set m key x).apply s'.world.heap := by
        simp [Heap.attach, hs, Edit.apply]
      rw [e]
      exact Edit.does (.call (.attach arg hs)) rfl
  | define key v =>
    dsimp only [perform]
    refine v.prepares_eval.does_bind fun x s' arg => ?_
    exact Edit.does (.define arg) rfl
  | info => exact (Act.prepares_heap.bind fun _ => .pure _).does
  | keyInfo key => exact (Act.prepares_heap.bind fun _ => .pure _).does

/-- The edits of calls. -/
def Call.editing (calls : Call → Session → Prop) (e : Edit) (s : Session) : Prop :=
  ∃ call, calls call s ∧ e = call.edit

theorem Call.does {call : Call} {calls : Call → Session → Prop} {w' : World} (made : calls call s)
    (hw : w' = { s.world with heap := (call.edit.apply s.world.heap).1 }) :
    s.world.Does (Deed.Of (editing calls) paints binds) w' := Edit.does ⟨call, made, rfl⟩ hw

theorem ListOp.does (l : ListId) (op : ListOp) :
    s.world.Does (Deed.Of (Call.editing (op.Calls c l s)) paints binds)
      ((op.perform l).on c s).2.world := by
  cases op with
  | push v =>
    dsimp only [perform]
    refine v.prepares_eval.does_bind fun x s' arg => ?_
    have made : ListOp.Calls c l s (.push v) _ s' := .push arg
    exact Call.does made rfl
  | unshift v =>
    dsimp only [perform]
    refine v.prepares_eval.does_bind fun x s' arg => ?_
    have made : ListOp.Calls c l s (.unshift v) _ s' := .unshift arg
    exact Call.does made rfl
  | pop =>
    have made : ListOp.Calls c l s .pop _ s := .pop
    exact Call.does made rfl
  | shift =>
    have made : ListOp.Calls c l s .shift _ s := .shift
    exact Call.does made rfl
  | sort =>
    have made : ListOp.Calls c l s .sort _ s := .sort
    exact Call.does made rfl
  | sortBy by' =>
    have made : ListOp.Calls c l s (.sortBy by') _ s := .sortBy
    exact Call.does made rfl
  | reverse =>
    have made : ListOp.Calls c l s .reverse _ s := .reverse
    exact Call.does made rfl
  | splice start count inserted =>
    dsimp only [perform]
    refine (Term.prepares_evalAll inserted).does_bind fun xs s' args => ?_
    have made : ListOp.Calls c l s (.splice start count inserted) _ s' := .splice args
    exact Call.does made rfl
  | get position => exact (Act.prepares_heap.bind fun _ => .pure _).does
  | set position v =>
    dsimp only [perform]
    refine v.prepares_eval.does_bind fun x s' arg => ?_
    have made : ListOp.Calls c l s (.set position v) _ s' := .set arg
    exact Call.does made rfl
  | info => exact (Act.prepares_heap.bind fun _ => .pure _).does

/-! ## View models -/

namespace ViewModelOp

variable {touches : Edit → Session → Prop} {vm : ViewModel}

theorem does_writing {target : World → Option Value}
    {write : World → World × Except PathError (List WatcherId)}
    (hw : s.world.Does (Deed.Of touches paints binds) (write s.world).1) :
    s.world.Does (Deed.Of touches paints binds)
      ((do writing vm (target (← Act.world)) write : Act Outcome).on c s).2.world := by
  have world : Act.world.on c s = (.ok s.world, s) := rfl
  rw [Act.on_bind, world]
  simp only [writing]
  rw [Act.on_bind, Act.on_onWorld]
  rcases (write s.world).2 with cause | owed
  · exact hw
  · exact hw

theorem does (vm : ViewModel) (op : ViewModelOp) :
    s.world.Does (Deed.Of (Call.editing (op.Calls c vm s)) paints binds)
      ((op.perform vm).on c s).2.world := by
  cases op with
  | clone name | link name =>
    exact ((Act.Prepares.still fun _ _ => rfl).bind fun _ => .pure _).does
  | same other => exact ((Act.prepares_viewModel other).bind fun _ => .pure _).does
  | mount name t =>
    dsimp only [perform]
    refine (t.prepares_evalMap.bind fun m => ?_).does
    exact (Act.Prepares.aside fun w => w.aside_mount vm name m).bind fun _ => .pure _
  | container name | data | properties | has key =>
    exact (Act.prepares_world.bind fun _ => .pure _).does
  | flatten name =>
    exact ((Act.Prepares.aside fun w => w.aside_flatten vm.table name).bind fun _ => .pure _).does
  | get key => exact ((Act.Prepares.depend _ _).bind fun _ => .pure _).does
  | set key v =>
    dsimp only [perform]
    refine v.prepares_eval.does_bind fun x s' arg => ?_
    refine does_writing ?_
    unfold World.setProperty
    split
    · exact .nil
    · exact Call.does (.set arg ‹_›) rfl
  | evaluate expression =>
    dsimp only [perform]
    refine ((Act.prepares_parse expression).bind fun path => ?_).does
    exact (Act.Prepares.depend _ _).bind fun _ => .pure _
  | assign expression v =>
    dsimp only [perform]
    refine (Act.prepares_parse expression).does_bind fun path s₁ on => ?_
    obtain ⟨parsed, rfl⟩ := Act.parse_of_on on
    refine v.prepares_eval.does_bind fun x s₂ arg => ?_
    refine does_writing (World.does_assign (fun _ => Deed.Plain.of ⟨rfl, trivial⟩) ?_)
    exact fun call w' assigns same => .edit ⟨call, .assign parsed arg assigns, rfl⟩ same
  | «alias» method name =>
    dsimp only [perform]
    refine (Act.prepares_world.bind fun _ => ?_).does
    split
    · exact .pure _
    · exact (Act.Prepares.aside fun w => w.aside_putMethod vm.table name _).bind fun _ => .pure _
  | call method v =>
    dsimp only [perform]
    refine (v.prepares_eval.bind fun x => ?_).does
    refine Act.prepares_world.bind fun _ => ?_
    split
    · exact .pure _
    · exact .pure _

end ViewModelOp

theorem Origin.does (origin : Origin) (name : String) :
    s.world.Does (Deed.Of ((Step.newViewModel name origin).Touches c s) paints binds)
      (origin.make.on c s).2.world := by
  cases origin with
  | nothing => exact (Act.Prepares.aside World.aside_newViewModel).does
  | mounted t =>
    dsimp only [make]
    refine (t.prepares_evalMap.bind fun m => ?_).does
    exact .aside fun w => w.aside_newViewModel.trans (World.aside_mount _ _ modelName m)
  | observed t =>
    dsimp only [make]
    refine t.prepares_evalMap.does_bind fun m s' arg => ?_
    refine Act.does_bind (Edit.does (.origin arg) rfl) fun _ _ _ => ?_
    exact (Act.Prepares.aside fun w => w.aside_viewModelOf m).does

end DataBinding
