-- Values and documents. To make a document of a value and to load it again keeps the value up to what a
-- document cannot say: numbers that are not finite become null, minus zero becomes zero, entries come
-- in the order of their keys, and nothing is observed. To load a document and to make a document of
-- the value again keeps the document.
import DataBinding.Proofs.Heap.Rendering
import DataBinding.Proofs.Heap.Unfolding
import DataBinding.Proofs.Number.Integers
import DataBinding.Proofs.Text.Bytes

namespace DataBinding

/-! ## What a document keeps of a value -/

/-- The order of entries by the bytes of their keys. -/
def keyOrder {α : Type} (a b : String × α) : Bool := decide (Text.bytes a.1 ≤ Text.bytes b.1)

mutual

/-- What is left of a snapshot that goes through a document: numbers that are not finite are null, minus
zero is zero, the entries of every map stand in the order of their keys, and nothing is observed. -/
def Snapshot.normalized : Snapshot → Snapshot
  | .number n => if !n.isFinite then .null else if n.isZero then .number .zero else .number n
  | .map entries _ => .map ((Snapshot.normalizedEntries entries).mergeSort keyOrder) false
  | .list items _ _ => .list (Snapshot.normalizedItems items) false []
  | .null => .null
  | .bool b => .bool b
  | .text s => .text s
  | .loop depth => .loop depth

def Snapshot.normalizedEntries : List (String × Option (List WatcherId) × Snapshot) →
    List (String × Option (List WatcherId) × Snapshot)
  | [] => []
  | (key, _, s) :: rest => (key, none, s.normalized) :: Snapshot.normalizedEntries rest

def Snapshot.normalizedItems : List Snapshot → List Snapshot
  | [] => []
  | s :: rest => s.normalized :: Snapshot.normalizedItems rest

end

mutual

/-- What the value shows that a document is loaded as. -/
def Document.shown : Document → Snapshot
  | .null => .null
  | .bool b => .bool b
  | .int i => .number (.ofInt i)
  | .number n => .number n
  | .text s => .text s
  | .array items => .list (Document.shownItems items) false []
  | .object entries => .map (Document.shownEntries entries) false

def Document.shownItems : List Document → List Snapshot
  | [] => []
  | d :: rest => d.shown :: Document.shownItems rest

def Document.shownEntries :
    List (String × Document) → List (String × Option (List WatcherId) × Snapshot)
  | [] => []
  | (key, d) :: rest => (key, none, d.shown) :: Document.shownEntries rest

end

/-- The documents that survive: every integer is below `2 ^ 53`, every other number is finite and no
such integer, and the keys of every object ascend by their bytes. -/
inductive Document.Settled : Document → Prop where
  | null : Settled .null
  | bool (b : Bool) : Settled (.bool b)
  | int {i : Int} (small : i.natAbs < 2 ^ 53) : Settled (.int i)
  | number {n : Number} (finite : n.isFinite) (large : ∀ i, n.toInt? = some i → 2 ^ 53 ≤ i.natAbs) :
      Settled (.number n)
  | text (s : String) : Settled (.text s)
  | array {items : List Document} (each : ∀ d ∈ items, Settled d) : Settled (.array items)
  | object {entries : List (String × Document)}
      (ascending : entries.Pairwise fun a b => Text.bytes a.1 < Text.bytes b.1)
      (each : ∀ e ∈ entries, Settled e.2) : Settled (.object entries)

/-! ## The three functions on lists -/

namespace Snapshot

theorem normalizedEntries_eq (entries : List (String × Option (List WatcherId) × Snapshot)) :
    normalizedEntries entries = entries.map fun e => (e.1, none, e.2.2.normalized) := by
  induction entries with
  | nil => simp [normalizedEntries]
  | cons e rest ih => simp [normalizedEntries, ih]

theorem normalizedItems_eq (items : List Snapshot) : normalizedItems items = items.map normalized := by
  induction items with
  | nil => simp [normalizedItems]
  | cons s rest ih => simp [normalizedItems, ih]

end Snapshot

namespace Document

theorem shownItems_eq (items : List Document) : shownItems items = items.map shown := by
  induction items with
  | nil => simp [shownItems]
  | cons d rest ih => simp [shownItems, ih]

theorem shownEntries_eq (entries : List (String × Document)) :
    shownEntries entries = entries.map fun e => (e.1, none, e.2.shown) := by
  induction entries with
  | nil => simp [shownEntries]
  | cons e rest ih => simp [shownEntries, ih]

/-! ## Numbers -/

theorem ofNumber_of_infinite {n : Number} (infinite : ¬n.isFinite) : ofNumber n = .null := by
  simp [ofNumber, infinite]

theorem ofNumber_of_small {n : Number} {i : Int} (h : n.toInt? = some i) (small : i.natAbs < 2 ^ 53) :
    ofNumber n = .int i := by
  rw [ofNumber, h, Number.isFinite_of_toInt? h, Nat.one_shiftLeft]
  simp only [if_pos small]
  rfl

theorem ofNumber_of_large {n : Number} (finite : n.isFinite)
    (large : ∀ i, n.toInt? = some i → 2 ^ 53 ≤ i.natAbs) : ofNumber n = .number n := by
  rcases h : n.toInt? with _ | i
  · simp [ofNumber, finite, h]
  · have := large i h
    simp [ofNumber, finite, h, Nat.one_shiftLeft]
    omega

theorem ofNumber_cases (n : Number) :
    (¬n.isFinite ∧ ofNumber n = .null) ∨
      (∃ i, n.toInt? = some i ∧ i.natAbs < 2 ^ 53 ∧ ofNumber n = .int i) ∨
      (n.isFinite ∧ (∀ i, n.toInt? = some i → 2 ^ 53 ≤ i.natAbs) ∧ ofNumber n = .number n) := by
  by_cases finite : n.isFinite
  · by_cases large : ∀ i, n.toInt? = some i → 2 ^ 53 ≤ i.natAbs
    · exact .inr (.inr ⟨finite, large, ofNumber_of_large finite large⟩)
    · obtain ⟨i, h, small⟩ : ∃ i, n.toInt? = some i ∧ i.natAbs < 2 ^ 53 := by simpa using large
      exact .inr (.inl ⟨i, h, small, ofNumber_of_small h small⟩)
  · exact .inl ⟨finite, ofNumber_of_infinite finite⟩

theorem settled_ofNumber (n : Number) : (ofNumber n).Settled := by
  obtain ⟨_, e⟩ | ⟨i, _, small, e⟩ | ⟨finite, large, e⟩ := ofNumber_cases n
  · exact e ▸ .null
  · exact e ▸ .int small
  · exact e ▸ .number finite large

theorem shown_ofNumber (n : Number) : (ofNumber n).shown = (Snapshot.number n).normalized := by
  rw [Snapshot.normalized]
  obtain ⟨infinite, e⟩ | ⟨i, h, small, e⟩ | ⟨finite, large, e⟩ := ofNumber_cases n
  · simp [e, shown, infinite]
  · simp only [e, shown, Number.ofInt_of_toInt? h small, Number.isFinite_of_toInt? h]
    split <;> simp
  · have nonzero : ¬n.isZero := by
      intro zero
      have := large 0 (Number.toInt?_of_isZero zero)
      simp at this
    simp [e, shown, finite, nonzero]

/-! ## Keys -/

section Keys

variable {α : Type}

theorem keyOrder_iff {a b : String × α} : keyOrder a b ↔ a.1 ≤ b.1 := by
  rw [keyOrder, decide_eq_true_iff, Text.bytes_le_iff]

theorem keyOrder_trans (a b c : String × α) : keyOrder a b → keyOrder b c → keyOrder a c := by
  simpa only [keyOrder_iff] using le_trans

theorem keyOrder_total (a b : String × α) : (keyOrder a b || keyOrder b a) = true := by
  simpa only [Bool.or_eq_true, keyOrder_iff] using le_total a.1 b.1

theorem sortEntries_eq (entries : List (String × Document)) :
    sortEntries entries = entries.mergeSort keyOrder := by
  have same : (fun a b : String × Document => decide (a.1 ≤ b.1)) = keyOrder := by
    funext a b
    exact Bool.eq_iff_iff.mpr (by rw [decide_eq_true_iff, keyOrder_iff])
  rw [sortEntries, same]

/-- Distinct keys ascend once they are sorted. -/
theorem ascending_of_distinct {entries : List (String × α)} (distinct : (entries.map (·.1)).Nodup) :
    (entries.mergeSort keyOrder).Pairwise fun a b => Text.bytes a.1 < Text.bytes b.1 := by
  have ordered := List.pairwise_mergeSort keyOrder_trans keyOrder_total entries
  have apart : (entries.mergeSort keyOrder).Pairwise fun a b => a.1 ≠ b.1 := by
    have perm := (List.mergeSort_perm entries keyOrder).map (·.1)
    exact List.pairwise_map.mp (perm.nodup_iff.mpr distinct)
  refine (ordered.and apart).imp ?_
  rintro a b ⟨le, ne⟩
  exact Text.bytes_lt_iff.mpr (lt_of_le_of_ne (keyOrder_iff.mp le) ne)

theorem sorted_of_ascending {entries : List (String × α)}
    (ascending : entries.Pairwise fun a b => Text.bytes a.1 < Text.bytes b.1) :
    entries.mergeSort keyOrder = entries := by
  refine List.mergeSort_of_pairwise (ascending.imp fun lt => ?_)
  exact keyOrder_iff.mpr (le_of_lt (Text.bytes_lt_iff.mp lt))

theorem distinct_of_ascending {entries : List (String × α)}
    (ascending : entries.Pairwise fun a b => Text.bytes a.1 < Text.bytes b.1) :
    (entries.map (·.1)).Nodup :=
  List.pairwise_map.mpr (ascending.imp fun lt => ne_of_lt (Text.bytes_lt_iff.mp lt))

/-- The order by keys does not look at what stands under them. -/
theorem map_sorted {β : Type} (f : α → β) (entries : List (String × α)) :
    (entries.mergeSort keyOrder).map (fun e => (e.1, f e.2)) =
      (entries.map fun e => (e.1, f e.2)).mergeSort keyOrder :=
  List.map_mergeSort fun _ _ _ _ => rfl

end Keys

/-! ## There and back without a heap -/

/-- What a settled document shows makes the document. -/
theorem ofSnapshot_shown {d : Document} (settled : d.Settled) : ofSnapshot d.shown = d := by
  induction settled with
  | null | bool _ | text _ => simp only [shown, ofSnapshot]
  | int small =>
    rw [shown, ofSnapshot]
    exact ofNumber_of_small (Number.toInt?_ofInt small) small
  | number finite large =>
    rw [shown, ofSnapshot]
    exact ofNumber_of_large finite large
  | @array items each ih =>
    rw [shown, ofSnapshot, shownItems_eq, ofItems_map]
    congr 1
    exact (List.map_congr_left ih).trans (List.map_id _)
  | @object entries ascending each ih =>
    have same : (entries.map fun e => (e.1, ofSnapshot e.2.shown)) = entries :=
      (List.map_congr_left fun e he => congrArg (e.1, ·) (ih e he)).trans (List.map_id _)
    have kept := ofEntries_map (fun e => e.1) (fun _ => none) (fun e => e.2.shown) entries
    rw [shown, ofSnapshot, shownEntries_eq, kept, same, sortEntries_eq, sorted_of_ascending ascending]

end Document

namespace Heap

/-! ## The document of a value that unfolds -/

section Documents

variable {h : Heap} {v : Value}

theorem document_map {m : MapId} {cell : MapCell} (unfolds : h.Unfolds (.map m))
    (hc : h.map? m = some cell) : h.document (.map m) =
      .object ((cell.entries.map fun e => (e.key, h.document e.value)).mergeSort keyOrder) := by
  rw [document, snapshot_map unfolds hc, Document.ofSnapshot, Document.ofEntries_map,
    Document.sortEntries_eq]
  rfl

theorem document_list {l : ListId} {cell : ListCell} (unfolds : h.Unfolds (.list l))
    (hc : h.list? l = some cell) : h.document (.list l) = .array (cell.items.map h.document) := by
  rw [document, snapshot_list unfolds hc, Document.ofSnapshot, Document.ofItems_map]
  rfl

theorem settled_document (unfolds : h.Unfolds v) : (h.document v).Settled := by
  induction v, unfolds using Unfolds.induction with
  | step v unfolds ih =>
    cases v with
    | map m =>
      obtain ⟨cell, hc⟩ := Option.isSome_iff_exists.mp (unfolds.live _ (.here rfl))
      rw [document_map unfolds hc]
      refine .object (Document.ascending_of_distinct ?_) ?_
      · rw [List.map_map]
        exact unfolds.distinct m cell (.here rfl) hc
      · intro e he
        obtain ⟨entry, hentry, rfl⟩ := List.mem_map.mp (List.mem_mergeSort.mp he)
        exact ih _ rfl _ (mem_contents_of_entry hc hentry)
    | list l =>
      obtain ⟨cell, hc⟩ := Option.isSome_iff_exists.mp (unfolds.live _ (.here rfl))
      rw [document_list unfolds hc]
      refine .array fun d hd => ?_
      obtain ⟨w, hw, rfl⟩ := List.mem_map.mp hd
      exact ih _ rfl _ (mem_contents_of_item hc hw)
    | number n =>
      simpa only [document, snapshot, snapshotIn, Document.ofSnapshot] using
        Document.settled_ofNumber n
    | null => simpa only [document, snapshot, snapshotIn, Document.ofSnapshot] using .null
    | bool b => simpa only [document, snapshot, snapshotIn, Document.ofSnapshot] using .bool b
    | text s => simpa only [document, snapshot, snapshotIn, Document.ofSnapshot] using .text s

theorem shown_document (unfolds : h.Unfolds v) :
    (h.document v).shown = (h.snapshot v).normalized := by
  induction v, unfolds using Unfolds.induction with
  | step v unfolds ih =>
    cases v with
    | map m =>
      obtain ⟨cell, hc⟩ := Option.isSome_iff_exists.mp (unfolds.live _ (.here rfl))
      rw [document_map unfolds hc, snapshot_map unfolds hc]
      simp only [Document.shown, Document.shownEntries_eq, Snapshot.normalized,
        Snapshot.normalizedEntries_eq, List.map_map, Snapshot.map.injEq, and_true]
      rw [Document.map_sorted fun d : Document => ((none : Option (List WatcherId)), d.shown),
        List.map_map]
      congr 1
      exact List.map_congr_left fun e he => by
        simp [ih _ rfl _ (mem_contents_of_entry hc he)]
    | list l =>
      obtain ⟨cell, hc⟩ := Option.isSome_iff_exists.mp (unfolds.live _ (.here rfl))
      rw [document_list unfolds hc, snapshot_list unfolds hc]
      simp only [Document.shown, Document.shownItems_eq, Snapshot.normalized,
        Snapshot.normalizedItems_eq, List.map_map, Snapshot.list.injEq, List.map_inj_left, and_true]
      exact fun w hw => ih _ rfl w (mem_contents_of_item hc hw)
    | number n =>
      simpa only [document, snapshot, snapshotIn, Document.ofSnapshot] using Document.shown_ofNumber n
    | null | bool _ | text _ =>
      simp only [document, snapshot, snapshotIn, Document.ofSnapshot, Document.shown,
        Snapshot.normalized]

end Documents

/-! ## Loading a document -/

/-- A document has been loaded: what was live is as before, and the value shows what the document says. -/
structure Loads (g : Heap) (d : Document) : Prop where
  keeps : KeepsLive g (g.load d).1
  unfolds : (g.load d).1.Unfolds (g.load d).2
  fresh : ∀ c, (g.load d).1.Reaches (g.load d).2 c → g.isLive c = false
  shows : (g.load d).1.snapshot (g.load d).2 = d.shown

theorem loads_items {items : List Document} (each : ∀ d ∈ items, ∀ g : Heap, g.Loads d) (g : Heap) :
    KeepsLive g (g.loadItems items).1 ∧
      (∀ v ∈ (g.loadItems items).2, (g.loadItems items).1.Unfolds v ∧
        ∀ c, (g.loadItems items).1.Reaches v c → g.isLive c = false) ∧
      (g.loadItems items).2.map (g.loadItems items).1.snapshot = items.map Document.shown := by
  induction items generalizing g with
  | nil => simpa [loadItems] using .refl g
  | cons d rest ih =>
    have first := each d (by simp) g
    obtain ⟨keeps, unfolds, shows⟩ := ih (fun d hd => each d (by simp [hd])) (g.load d).1
    simp only [loadItems, List.map_cons]
    refine ⟨first.keeps.trans keeps, List.forall_mem_cons.mpr ⟨⟨?_, fun c hc => ?_⟩, ?_⟩, ?_⟩
    · exact keeps.unfolds first.unfolds
    · exact first.fresh c ((keeps.reaches_iff first.unfolds).mp hc)
    · exact fun v hv => ⟨(unfolds v hv).1, fun c hc => first.keeps.dead ((unfolds v hv).2 c hc)⟩
    · rw [keeps.snapshot first.unfolds, first.shows, shows]

theorem loads_entries {entries : List (String × Document)}
    (each : ∀ e ∈ entries, ∀ g : Heap, g.Loads e.2) (g : Heap) :
    KeepsLive g (g.loadEntries entries).1 ∧
      (∀ e ∈ (g.loadEntries entries).2, (g.loadEntries entries).1.Unfolds e.2 ∧
        ∀ c, (g.loadEntries entries).1.Reaches e.2 c → g.isLive c = false) ∧
      (g.loadEntries entries).2.map (fun e => (e.1, none, (g.loadEntries entries).1.snapshot e.2)) =
        Document.shownEntries entries := by
  induction entries generalizing g with
  | nil => simpa [loadEntries, Document.shownEntries] using .refl g
  | cons e rest ih =>
    have first := each e (by simp) g
    obtain ⟨keeps, unfolds, shows⟩ := ih (fun e he => each e (by simp [he])) (g.load e.2).1
    simp only [loadEntries, List.map_cons, Document.shownEntries]
    refine ⟨first.keeps.trans keeps, List.forall_mem_cons.mpr ⟨⟨?_, fun c hc => ?_⟩, ?_⟩, ?_⟩
    · exact keeps.unfolds first.unfolds
    · exact first.fresh c ((keeps.reaches_iff first.unfolds).mp hc)
    · exact fun e he => ⟨(unfolds e he).1, fun c hc => first.keeps.dead ((unfolds e he).2 c hc)⟩
    · rw [keeps.snapshot first.unfolds, first.shows, shows]

theorem keys_loadEntries (g : Heap) (entries : List (String × Document)) :
    (g.loadEntries entries).2.map (·.1) = entries.map (·.1) := by
  induction entries generalizing g with
  | nil => rfl
  | cons e rest ih => simp [loadEntries, ih]

theorem loads_of_settled {d : Document} (settled : d.Settled) (g : Heap) : g.Loads d := by
  induction settled generalizing g with
  | null | bool _ | int _ | number _ _ | text _ =>
    refine ⟨.refl g, .of_scalar rfl, ?_, by simp only [load, snapshot, snapshotIn, Document.shown]⟩
    rintro c ⟨root, is, _⟩
    cases is
  | @array items each ih =>
    obtain ⟨keeps, unfolds, shows⟩ := loads_items ih g
    obtain ⟨all, top, reaches⟩ := unfolds_newList _ fun v hv => (unfolds v hv).1
    refine ⟨keeps.trans (keepsLive_newList _ _), all, fun c hc => ?_, ?_⟩
    · obtain dead | ⟨v, hv, was⟩ := reaches c hc
      · exact keeps.dead dead
      · exact (unfolds v hv).2 c was
    · rw [Document.shown, Document.shownItems_eq, ← shows]
      exact top
  | @object entries ascending each ih =>
    obtain ⟨keeps, unfolds, shows⟩ := loads_entries ih g
    have distinct : ((g.loadEntries entries).2.map (·.1)).Nodup :=
      (keys_loadEntries g entries).symm ▸ Document.distinct_of_ascending ascending
    obtain ⟨all, top, reaches⟩ := unfolds_newMap _ distinct fun e he => (unfolds e he).1
    refine ⟨keeps.trans (keepsLive_newMap _ _), all, fun c hc => ?_, ?_⟩
    · obtain dead | ⟨e, he, was⟩ := reaches c hc
      · exact keeps.dead dead
      · exact (unfolds e he).2 c was
    · rw [Document.shown, ← shows]
      exact top

/-! ## The round trips -/

/-- To make a document of a value without loops and to load it, into whatever heap, gives the value up
to what a document cannot say, in containers of its own that nobody observes; and the document of that
is the document again. To load a settled document and to make a document of the value gives back the
document. -/
theorem documents_round_trip :
    (∀ (h : Heap) (v : Value), h.Unfolds v → ∀ g : Heap,
      let loaded := g.load (h.document v)
      loaded.1.Unfolds loaded.2 ∧ loaded.1.snapshot loaded.2 = (h.snapshot v).normalized ∧
        loaded.1.document loaded.2 = h.document v ∧ (h.document v).Settled ∧
        (∀ c, loaded.1.Reaches loaded.2 c → g.isLive c = false) ∧ KeepsLive g loaded.1) ∧
    ∀ d : Document, d.Settled → ∀ g : Heap, (g.load d).1.document (g.load d).2 = d := by
  have back {d : Document} (settled : d.Settled) (g : Heap) :
      (g.load d).1.document (g.load d).2 = d := by
    rw [document, (loads_of_settled settled g).shows, Document.ofSnapshot_shown settled]
  refine ⟨fun h v unfolds g => ?_, fun d settled g => back settled g⟩
  have settled := settled_document unfolds
  have loads := loads_of_settled settled g
  exact ⟨loads.unfolds, loads.shows.trans (shown_document unfolds), back settled g, settled, loads.fresh,
    loads.keeps⟩

/-- A list with a NaN, minus zero and seven that stands under two keys of a map. -/
def twoKeys : Heap :=
  ((empty.newList [.number .nan, .number ⟨0x8000000000000000⟩, .number (.ofInt 7)]).1.newMap
    [("b", .list ⟨0⟩), ("a", .list ⟨0⟩)]).1

theorem unfolds_twoKeys : twoKeys.Unfolds (.map ⟨0⟩) := by
  have items : ∀ v ∈ [Value.number .nan, .number ⟨0x8000000000000000⟩, .number (.ofInt 7)],
      empty.Unfolds v := by
    simpa using ⟨.of_scalar rfl, .of_scalar rfl, .of_scalar rfl⟩
  have list := (empty.unfolds_newList items).1
  refine (unfolds_newMap _ (by decide) ?_).1
  exact List.forall_mem_cons.mpr ⟨list, List.forall_mem_singleton.mpr list⟩

theorem documents_round_trip_of_two_keys :
    (let loaded := twoKeys.load (twoKeys.document (.map ⟨0⟩));
      loaded.1.snapshot loaded.2 =
        .map [("a", none, .list [.null, .number .zero, .number (.ofInt 7)] false []),
          ("b", none, .list [.null, .number .zero, .number (.ofInt 7)] false [])] false) ∧
      (let d := Document.object [("a", .int (-9)), ("b", .array [.number ⟨0x3FE0000000000000⟩])];
        (twoKeys.load d).1.document (twoKeys.load d).2 = d) := by
  refine ⟨(documents_round_trip.1 twoKeys _ unfolds_twoKeys twoKeys).2.1.trans (by cbv), ?_⟩
  refine documents_round_trip.2 _ (.object (by decide) ?_) twoKeys
  have half : Document.Settled (.number ⟨0x3FE0000000000000⟩) := .number (by decide) (by decide)
  simpa using ⟨.int (by decide), .array (by simpa using half)⟩

end Heap

end DataBinding
