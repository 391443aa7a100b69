-- Releases of worlds. What is held from outside gives the roots: the held values, and what is mounted in the
-- mounts that a held view model keeps. The mounts that none keeps are freed, and what the roots do not
-- support. If two worlds show the same, and all that only one of them holds stays live in the other one,
-- they show the same after their releases.
import DataBinding.Binding.Lifetime
import DataBinding.Proofs.World.Pairs

namespace DataBinding

namespace World

/-! ## Roots -/

/-- The mounts that held view models keep. -/
def keptMounts (w : World) (held : Held) : Array (Option (List (String × MapId))) :=
  w.mounts.mapIdx fun i entries => if (held.viewModels.map (·.mounts)).contains ⟨i⟩ then entries else none

/-- The values by which a release keeps containers. -/
def roots (w : World) (held : Held) : List Value :=
  held.values ++ (w.keptMounts held).toList.flatMap fun entries =>
    (entries.getD []).map fun e => Value.map e.2

theorem release_eq (w : World) (held : Held) :
    w.release held = { w with mounts := w.keptMounts held, heap := w.heap.release (w.roots held) } := rfl

theorem mounts?_release (w : World) (held : Held) (a : MountsId) :
    (w.release held).mounts? a =
      if a ∈ held.viewModels.map (·.mounts) then w.mounts? a else none := by
  rw [release_eq]
  simp only [World.mounts?, keptMounts, Array.getElem?_mapIdx, List.contains_iff_mem]
  rcases w.mounts[a.index]? with _ | entries
  · simp
  · simp only [Option.map_some, Option.join_some]

/-- What a release keeps mounts by. -/
theorem mounts?_release_iff {w : World} {held : Held} {a : MountsId}
    {entries : List (String × MapId)} : (w.release held).mounts? a = some entries ↔
      (∃ vm ∈ held.viewModels, vm.mounts = a) ∧ w.mounts? a = some entries := by
  rw [mounts?_release]
  split
  · rename_i kept
    exact ⟨fun he => ⟨List.mem_map.mp kept, he⟩, fun h => h.2⟩
  · rename_i free
    refine ⟨nofun, fun h => absurd (List.mem_map.mpr h.1) free⟩

/-- A root is held, or it is mounted where a held view model keeps the mounts. -/
theorem mem_roots {w : World} {held : Held} {v : Value} :
    v ∈ w.roots held ↔ v ∈ held.values ∨ ∃ vm ∈ held.viewModels, ∃ entries,
      w.mounts? vm.mounts = some entries ∧ ∃ e ∈ entries, v = .map e.2 := by
  have kept (entries : Option (List (String × MapId))) : entries ∈ (w.keptMounts held).toList ↔
      ∃ i : Nat, (w.release held).mounts[i]? = some entries := by
    rw [Array.mem_toList_iff, Array.mem_iff_getElem?]
    rfl
  rw [roots, List.mem_append, List.mem_flatMap]
  refine or_congr Iff.rfl ⟨?_, ?_⟩
  · rintro ⟨entries, he, hv⟩
    obtain ⟨i, hi⟩ := (kept entries).mp he
    obtain ⟨e, hm, rfl⟩ := List.mem_map.mp hv
    rcases entries with _ | entries
    · cases hm
    · have there : (w.release held).mounts? ⟨i⟩ = some entries := by simp [World.mounts?, hi]
      obtain ⟨⟨vm, hvm, is⟩, old⟩ := mounts?_release_iff.mp there
      exact ⟨vm, hvm, entries, is ▸ old, e, hm, rfl⟩
  · rintro ⟨vm, hvm, entries, old, e, hm, rfl⟩
    have there := mounts?_release_iff.mpr ⟨⟨vm, hvm, rfl⟩, old⟩
    exact ⟨some entries, (kept _).mpr ⟨vm.mounts.index, Option.join_eq_some_iff.mp there⟩,
      List.mem_map.mpr ⟨e, hm, rfl⟩⟩

end World

/-! ## Two releases -/

namespace Pair

variable {P : Parting} {T : Pair}

/-- What two sessions hold: the second one holds all that the first one holds but for what is parted. -/
structure Holdings (P : Parting) (T : Pair) (l r : Held) : Prop where
  within : ∀ v ∈ r.values, v ∈ l.values
  lives : ∀ v ∈ r.values, T.left.heap.Lives v
  values : ∀ v ∈ l.values, v ∈ r.values ∨ ∀ c, v.container? = some c → P.keeps c
  left : ∀ vm ∈ l.viewModels, T.ownLeft vm.mounts ∨ ∃ vm' ∈ r.viewModels, T.ViewModels P vm vm'
  right : ∀ vm' ∈ r.viewModels, ∃ vm ∈ l.viewModels, T.ViewModels P vm vm'

/-- The pair after the releases of both worlds. -/
def released (T : Pair) (l r : Held) : Pair :=
  { T with left := T.left.release l, right := T.right.release r }

theorem tied_of_links {l l' : Link} (links : T.Links P l l') (mounts : T.Mounts P) {b : MountsId}
    (tied : T.tied l.mounts b) : T.tied l.mounts l'.mounts := by
  by_cases parted : P.table = some l.table
  · exact absurd (links.parted parted).1 (mounts.apart _ _ tied).1
  · exact links.tied parted

namespace Holdings

variable {l r : Held} (holdings : Holdings P T l r)
include holdings

/-- Mounts that belong together are kept on both sides or on none. -/
theorem kept_iff (fits : T.Fits P) {a b : MountsId} (tied : T.tied a b) :
    (∃ vm ∈ l.viewModels, vm.mounts = a) ↔ ∃ vm' ∈ r.viewModels, vm'.mounts = b := by
  obtain ⟨notLeft, notRight⟩ := fits.mounts.apart a b tied
  constructor
  · rintro ⟨vm, hvm, rfl⟩
    rcases holdings.left vm hvm with own | ⟨vm', hvm', same⟩
    · exact absurd own notLeft
    · exact ⟨vm', hvm', (fits.mounts.one _ _ _ _ (tied_of_links same.links fits.mounts tied) tied).mp rfl⟩
  · rintro ⟨vm', hvm', rfl⟩
    obtain ⟨vm, hvm, same⟩ := holdings.right vm' hvm'
    by_cases parted : P.table = some vm.table
    · exact absurd (same.links.parted parted).2 notRight
    · exact ⟨vm, hvm, (fits.mounts.one _ _ _ _ (same.links.tied parted) tied).mpr rfl⟩

/-- All roots of the second world are roots of the first one, and live. -/
theorem roots_within (fits : T.Fits P) {v : Value} (hv : v ∈ T.right.roots r) :
    v ∈ T.left.roots l ∧ T.left.heap.Lives v := by
  rcases World.mem_roots.mp hv with hv | ⟨vm', hvm', entries, he, e, hm, rfl⟩
  · exact ⟨World.mem_roots.mpr (.inl (holdings.within v hv)), holdings.lives v hv⟩
  · obtain ⟨vm, hvm, same⟩ := holdings.right vm' hvm'
    by_cases parted : P.table = some vm.table
    · rw [fits.mounts.bare _ (same.links.parted parted).2 entries he] at hm
      cases hm
    · have tied := same.links.tied parted
      have old : T.left.mounts? vm.mounts = some entries := (fits.mounts.same _ _ tied).trans he
      exact ⟨World.mem_roots.mpr (.inr ⟨vm, hvm, entries, old, e, hm, rfl⟩),
        fits.mounts.live _ _ tied entries old e hm⟩

/-- A root of the first world is one of the second world too, or it is parted. -/
theorem roots_or_keeps (fits : T.Fits P) {v : Value} (hv : v ∈ T.left.roots l) :
    v ∈ T.right.roots r ∨ ∀ c, v.container? = some c → P.keeps c := by
  rcases World.mem_roots.mp hv with hv | ⟨vm, hvm, entries, he, e, hm, rfl⟩
  · exact (holdings.values v hv).imp_left fun hv => World.mem_roots.mpr (.inl hv)
  · have keeps (own : T.ownLeft vm.mounts) (c : Container)
        (is : (Value.map e.2).container? = some c) : P.keeps c := by
      cases is
      exact fits.mounts.keeps _ own entries he e hm
    rcases holdings.left vm hvm with own | ⟨vm', hvm', same⟩
    · exact .inr (keeps own)
    · by_cases parted : P.table = some vm.table
      · exact .inr (keeps (same.links.parted parted).1)
      · have there := (fits.mounts.same _ _ (same.links.tied parted)).symm.trans he
        exact .inl (World.mem_roots.mpr (.inr ⟨vm', hvm', entries, there, e, hm, rfl⟩))

/-- If what is parted stays live, both releases free the same containers. -/
theorem heap_released (fits : T.Fits P)
    (stays : ∀ c, P.keeps c → (T.right.release r).heap.isLive c = true) :
    (T.right.release r).heap = (T.left.release l).heap := by
  rw [World.release_eq, World.release_eq, fits.heap] at *
  refine (Heap.release_congr ?_ ?_).symm
  · rintro c ⟨v, hv, is⟩
    exact ⟨v, (holdings.roots_within fits hv).1, is⟩
  · intro v hv
    rcases holdings.roots_or_keeps fits hv with hv | keeps
    · exact Heap.lives_of_held (holdings.roots_within fits hv).2 hv
    · exact fun c is => stays c (keeps c is)

/-- What both worlds hold outlasts the releases. -/
theorem lives_released (fits : T.Fits P)
    (stays : ∀ c, P.keeps c → (T.right.release r).heap.isLive c = true) {v : Value}
    (hv : v ∈ T.right.roots r) : (T.left.release l).heap.Lives v := by
  rw [← holdings.heap_released fits stays, World.release_eq, fits.heap]
  exact Heap.lives_of_held (holdings.roots_within fits hv).2 hv

theorem mounts_released (fits : T.Fits P)
    (stays : ∀ c, P.keeps c → (T.right.release r).heap.isLive c = true) :
    (T.released l r).Mounts P := by
  have mounts := fits.mounts
  have sizes : (T.left.release l).mounts.size = T.left.mounts.size ∧
      (T.right.release r).mounts.size = T.right.mounts.size := by
    simp [World.release_eq, World.keptMounts]
  refine ⟨fun a b h => ?_, fun a h => ?_, fun b h => ?_, mounts.one, mounts.apart, fun a b tied => ?_,
    fun a b tied entries he e hm => ?_, fun a own entries he => ?_, fun b own entries he => ?_,
    fun a t h => ?_, mounts.homeOne⟩
  · simpa only [released, sizes] using mounts.within a b h
  · simpa only [released, sizes] using mounts.withinLeft a h
  · simpa only [released, sizes] using mounts.withinRight b h
  · simp only [released, World.mounts?_release, List.mem_map, holdings.kept_iff fits tied,
      mounts.same a b tied]
  · obtain ⟨⟨vm, hvm, rfl⟩, old⟩ := World.mounts?_release_iff.mp he
    obtain ⟨vm', hvm', rfl⟩ := (holdings.kept_iff fits tied).mp ⟨vm, hvm, rfl⟩
    refine holdings.lives_released fits stays (World.mem_roots.mpr (.inr ?_))
    exact ⟨vm', hvm', entries, (mounts.same _ _ tied).symm.trans old, e, hm, rfl⟩
  · exact mounts.keeps a own entries (World.mounts?_release_iff.mp he).2
  · exact mounts.bare b own entries (World.mounts?_release_iff.mp he).2
  · simpa only [released, sizes] using mounts.homeWithin a t h

end Holdings

/-- Nothing but the lives of containers and mounts is different after a release. -/
theorem Links.released {l r : Held} {a b : Link} (links : T.Links P a b) :
    (T.released l r).Links P a b := ⟨links.table, links.parted, links.tied, links.home⟩

theorem Responds.released {l r : Held} {a b : Response} (same : T.Responds P a b) :
    (T.released l r).Responds P a b := by
  cases same with
  | script script => exact .script script
  | writeBack links path => exact .writeBack links.released path
  | method links script => exact .method links.released script

/-- Two worlds that show the same still do so after their releases. -/
theorem Fits.released (fits : T.Fits P) {l r : Held} (holdings : Holdings P T l r)
    (stays : ∀ c, P.keeps c → (T.right.release r).heap.isLive c = true) :
    (T.released l r).Fits P where
  heap := holdings.heap_released fits stays
  whole := Heap.whole_release fits.whole _
  tables := fits.tables
  parted := fits.parted
  collector := fits.collector
  nodes := fits.nodes
  listeners := fits.listeners.imp fun _ _ same => ⟨same.node, same.event, same.responds.released⟩
  watchers := fits.watchers.imp fun _ _ same => ⟨same.links.released, same.path, same.reaction⟩
  mounts := holdings.mounts_released fits stays

end Pair

end DataBinding
