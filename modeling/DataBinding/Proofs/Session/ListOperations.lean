-- The operations of a list on its items, as steps of a session carry them out. A step does to the items
-- what the operation does to a plain sequence, and they stay like that through all turns and callbacks
-- that write nothing.
import DataBinding.Proofs.Heap.Sequences
import DataBinding.Proofs.Heap.Sorting
import DataBinding.Proofs.Session.Assignments
import DataBinding.Proofs.Session.Growth

namespace DataBinding

/-! ## Operations with their arguments -/

/-- An operation on a list whose arguments are values. -/
inductive SequenceEdit where
  | push (v : Value)
  | unshift (v : Value)
  | pop
  | shift
  | reverse
  | splice (start count : Nat) (inserted : List Value)
  | set (position : Nat) (v : Value)

/-- What an operation makes of a plain sequence, and what it answers: the new length, the removed item
or its absence, or the removed items. -/
def SequenceEdit.Does (xs ys : List Value) (reply : Reply Value) : SequenceEdit → Prop
  | .push v => Spliced xs xs.length 0 [v] [] ys ∧ reply = .count ys.length
  | .unshift v => Spliced xs 0 0 [v] [] ys ∧ reply = .count ys.length
  | .pop => ∃ removed, Spliced xs (xs.length - 1) 1 [] removed ys ∧
      reply = .ofOption removed.head? ∧ (reply = .absent ↔ xs = [])
  | .shift => ∃ removed, Spliced xs 0 1 [] removed ys ∧
      reply = .ofOption removed.head? ∧ (reply = .absent ↔ xs = [])
  | .reverse => ys = xs.reverse ∧ reply = .nothing
  | .splice start count inserted => ∃ removed, Spliced xs start count inserted removed ys ∧
      reply = .values removed
  | .set position v => Placed xs position v ys ∧ reply = .nothing

/-- The terms of an operation are evaluated. -/
inductive ListOp.Evaluates (c : Context) (s : Session) : ListOp → SequenceEdit → Session → Prop where
  | push {t : Term} {v : Value} {s' : Session} (arg : t.eval.on c s = (.ok v, s')) :
      Evaluates c s (.push t) (.push v) s'
  | unshift {t : Term} {v : Value} {s' : Session} (arg : t.eval.on c s = (.ok v, s')) :
      Evaluates c s (.unshift t) (.unshift v) s'
  | pop : Evaluates c s .pop .pop s
  | shift : Evaluates c s .shift .shift s
  | reverse : Evaluates c s .reverse .reverse s
  | splice {start count : Nat} {ts : List Term} {vs : List Value} {s' : Session}
      (args : (Term.evalAll ts).on c s = (.ok vs, s')) :
      Evaluates c s (.splice start count ts) (.splice start count vs) s'
  | set {position : Nat} {t : Term} {v : Value} {s' : Session}
      (arg : t.eval.on c s = (.ok v, s')) : Evaluates c s (.set position t) (.set position v) s'

namespace ListOp

variable {c : Context} {s s' : Session} {l : ListId}

/-- An operation that replaces the items of a live list leaves them so, and the list alive. -/
theorem mutating_on (live : s.world.heap.isLive (.list l) = true) (reply : Reply Value)
    (held items inserted : List Value) {f : Heap → Heap × List WatcherId}
    (hf : f s.world.heap = s.world.heap.mutate l items inserted) :
    ∃ outcome s', (mutating l reply held f).on c s = (.ok outcome, s') ∧ outcome.reply = reply ∧
      s'.world.heap.items l = items ∧ s'.world.heap.isLive (.list l) = true := by
  refine ⟨_, _, rfl, rfl, ?_, ?_⟩
  · show (f s.world.heap).1.items l = items
    rw [hf, Heap.items_mutate live]
  · show (f s.world.heap).1.isLive (.list l) = true
    rw [hf, Heap.isLive_mutate live]

/-- An operation does to the items of a live list what it does to a plain sequence. -/
theorem Evaluates.performed {op : ListOp} {e : SequenceEdit} (evaluates : op.Evaluates c s e s')
    (live : s'.world.heap.isLive (.list l) = true) :
    ∃ outcome s'', (op.perform l).on c s = (.ok outcome, s'') ∧
      e.Does (s'.world.heap.items l) (s''.world.heap.items l) outcome.reply ∧
      s''.world.heap.isLive (.list l) = true := by
  cases evaluates with
  | @push _ v _ arg =>
    obtain ⟨outcome, s'', done, reply, items, live⟩ :=
      mutating_on (c := c) live (.count ((s'.world.heap.items l).length + 1)) []
        (s'.world.heap.items l ++ [v]) [v] (f := (·.push l v)) rfl
    refine ⟨outcome, s'', ?_, items ▸ ⟨spliced_end v, by simp [reply]⟩, live⟩
    rw [perform, Act.on_bind, arg]
    exact done
  | @unshift _ v _ arg =>
    obtain ⟨outcome, s'', done, reply, items, live⟩ :=
      mutating_on (c := c) live (.count ((s'.world.heap.items l).length + 1)) []
        (v :: s'.world.heap.items l) [v] (f := (·.unshift l v)) rfl
    refine ⟨outcome, s'', ?_, items ▸ ⟨spliced_front v, by simp [reply]⟩, live⟩
    rw [perform, Act.on_bind, arg]
    exact done
  | pop =>
    obtain ⟨outcome, s'', done, reply, items, live⟩ :=
      mutating_on (c := c) live (.ofOption (s.world.heap.items l).getLast?) []
        (s.world.heap.items l).dropLast [] (f := (·.pop l)) rfl
    refine ⟨outcome, s'', done, items ▸ ⟨_, spliced_last, ?_, ?_⟩, live⟩
    · rw [reply]
      cases (s.world.heap.items l).getLast? <;> rfl
    · rw [reply, ← List.getLast?_eq_none_iff]
      cases (s.world.heap.items l).getLast? <;> simp [Reply.ofOption]
  | shift =>
    obtain ⟨outcome, s'', done, reply, items, live⟩ :=
      mutating_on (c := c) live (.ofOption (s.world.heap.items l).head?) []
        (s.world.heap.items l).tail [] (f := (·.shift l)) rfl
    refine ⟨outcome, s'', done, items ▸ ⟨_, spliced_first, ?_, ?_⟩, live⟩
    · rw [reply]
      cases (s.world.heap.items l).head? <;> rfl
    · rw [reply, ← List.head?_eq_none_iff]
      cases (s.world.heap.items l).head? <;> simp [Reply.ofOption]
  | reverse =>
    obtain ⟨outcome, s'', done, reply, items, live⟩ :=
      mutating_on (c := c) live .nothing [] (s.world.heap.items l).reverse [] (f := (·.reverse l)) rfl
    exact ⟨outcome, s'', done, items ▸ ⟨rfl, reply⟩, live⟩
  | @splice start count _ vs _ args =>
    obtain ⟨outcome, s'', done, reply, items, live⟩ :=
      mutating_on (c := c) live (.values (s'.world.heap.slice l start count)) vs _ vs
        (f := (·.splice l start count vs)) rfl
    refine ⟨outcome, s'', ?_, items ▸ ⟨_, spliced_range start count vs, reply⟩, live⟩
    rw [perform, Act.on_bind, args]
    exact done
  | @set position _ v _ arg =>
    refine ⟨.nothing, { s' with world := { s'.world with heap := s'.world.heap.setItem l position v } },
      ?_, ⟨?_, rfl⟩, ?_⟩
    · rw [perform, Act.on_bind, arg]
      rfl
    · show Placed _ _ _ ((s'.world.heap.setItem l position v).items l)
      rw [Heap.items_setItem live]
      exact placed_set position v
    · exact (Heap.isLive_changeList _ _ _ _).trans live

end ListOp

namespace Heap

/-- Where containers stay as they are, a list that is live all along keeps its items. -/
theorem Stays.items {h h' : Heap} (stays : Stays h h') {l : ListId}
    (live : h.isLive (.list l) = true) (live' : h'.isLive (.list l) = true) :
    h'.items l = h.items l := by
  refine List.ext_getElem? fun i => ?_
  have held := stays.held (.position l i) (reserves_of_isLive live) live'
  rw [← item?_eq, ← item?_eq]
  exact held

end Heap

namespace Machine

variable {m : Machine} {context : Context} {tag : Option String} {step : Step}
  {remaining : List Step} {rest : List Frame}

/-- A step that succeeds: its outcome and its session are those of the next move. -/
theorem moved_of_ok {outcome : Outcome} {s : Session}
    (top : m.frames = .steps context tag (step :: remaining) :: rest)
    (ok : step.perform.on context m.session = (.ok outcome, s)) :
    m.moved.session = s ∧ m.next.frames = Frame.ofWork outcome.work ++
      .reply tag outcome.reply outcome.held :: .steps context tag remaining :: rest := by
  have performed := Session.perform_of_ok ok
  rw [moved_of_cons top, next_frames top]
  simp [move, performed]

/-- After a move the items of a list stay for as long as nothing is written and the list is live. -/
theorem items_stay {l : ListId} (live : m.moved.world.heap.isLive (.list l) = true) :
    ∀ events m', Run WritesNothing m.next events m' →
      m'.world.heap.isLive (.list l) = true →
      m'.world.heap.items l = m.moved.world.heap.items l := by
  intro events m' run live'
  exact (m.next_effect.2.2.2.2.stays.trans run.stays.1).items live live'

/-- Sorts are stable. A step that sorts a live list whose items have no loops leaves its items sorted by
their texts, null last, with items of the same text in their order, through all turns and callbacks that
write nothing. To sort again changes nothing, and from any other order of the items that keeps those of
the same text in theirs the sort leads to the same list. A comparator that is a total preorder sorts
stably in the same way. -/
theorem sorting_is_stable {t : Term} {l : ListId} {s : Session}
    (top : m.frames = .steps context tag (.list t .sort :: remaining) :: rest)
    (on : t.evalList.on context m.session = (.ok l, s))
    (live : s.world.heap.isLive (.list l) = true)
    (unfolds : ∀ v ∈ s.world.heap.items l, s.world.heap.Unfolds v) :
    s.world.heap.SortedByText (s.world.heap.items l) (m.moved.world.heap.items l) ∧
    (∀ events m', Run WritesNothing m.next events m' → m'.world.heap.isLive (.list l) = true →
      m'.world.heap.items l = m.moved.world.heap.items l) ∧
    (m.moved.world.heap.sort l).1.items l = m.moved.world.heap.items l ∧
    (∀ g : Heap, g.isLive (.list l) = true →
      (∀ v ∈ s.world.heap.items l, ∀ c, s.world.heap.Reaches v c →
        Heap.SameCell s.world.heap g c) →
      Rearranges s.world.heap.sameText (s.world.heap.items l) (g.items l) →
      (g.sort l).1.items l = m.moved.world.heap.items l) ∧
    ∀ (h : Heap) (k : ListId), h.isLive (.list k) = true →
      ∀ (cmp : Value → Value → Ordering) [Std.TransCmp cmp],
        Heap.SortedBy cmp (h.items k) ((h.sortBy k fun a b => (cmp a b).isLE).1.items k) := by
  have ok : (Step.list t .sort).perform.on context m.session =
      (.ok (.owing .nothing (s.world.heap.sort l).2 ⟨[.list l], []⟩),
        { s with world := { s.world with heap := (s.world.heap.sort l).1 } }) := by
    rw [Step.perform, Act.on_bind, on]
    rfl
  have heap : m.moved.world.heap = (s.world.heap.sort l).1 := by
    rw [world, (moved_of_ok top ok).1]
  have live' : m.moved.world.heap.isLive (.list l) = true :=
    heap ▸ Heap.isLive_mutate live _ _
  refine ⟨?_, items_stay live', ?_, fun g there below same => ?_, fun h k there cmp _ => ?_⟩
  · rw [heap, Heap.items_sort live]
    exact s.world.heap.sortedByText_mergeSort _
  · rw [heap]
    exact Heap.items_sort_sort live unfolds
  · rw [heap]
    exact Heap.items_sort_of_rearranged live there unfolds below same
  · rw [Heap.sortBy, Heap.items_mutate there]
    exact Heap.sortedBy_mergeSort cmp _

/-- A session that sorts a list with a null and with two items of the same text. -/
def sortingTexts : List Step :=
  [.keep "x" (.document (.array [.text "1", .null, .int 1, .text "0"])), .list (.handle "x" []) .sort]

theorem sorting_is_stable_in_texts :
    let m := (start sortingTexts []).after 3
    m.world.heap.SortedByText [.text "1", .null, .number (.ofInt 1), .text "0"]
        (m.moved.world.heap.items ⟨0⟩) ∧
      (m.moved.world.heap.sort ⟨0⟩).1.items ⟨0⟩ = m.moved.world.heap.items ⟨0⟩ := by
  intro m
  have top : m.frames = [.steps .outside none [.list (.handle "x" []) .sort]] := by cbv
  have on : (Term.handle "x" []).evalList.on .outside m.session = (.ok ⟨0⟩, m.session) := by cbv
  have live : m.session.world.heap.isLive (.list ⟨0⟩) = true := by cbv
  have items : m.session.world.heap.items ⟨0⟩ =
      [.text "1", .null, .number (.ofInt 1), .text "0"] := by cbv
  have unfolds : ∀ v ∈ m.session.world.heap.items ⟨0⟩, m.session.world.heap.Unfolds v := by
    rw [items]
    simp only [List.forall_mem_cons]
    exact ⟨.of_scalar rfl, .of_scalar rfl, .of_scalar rfl, .of_scalar rfl, List.forall_mem_nil _⟩
  obtain ⟨sorted, -, again, -⟩ := sorting_is_stable top on live unfolds
  exact ⟨items ▸ sorted, again⟩

end Machine

end DataBinding
