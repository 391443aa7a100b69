-- Dropped handles. To drop all handles over a table changes nothing that can be told, as long as all that
-- these handles kept stays live: machines with and without them are twins from there on. The model of a
-- view is kept by the view alone once another map is mounted in its place, so it does not suffice that what
-- is mounted and what is flattened stays live.
import DataBinding.Proofs.Session.Lacking

namespace DataBinding

variable {handles gone : List Handle} {name : String} {t : TableId} {s : Session}

/-! ## With and without the handles -/

namespace Pair

variable {T : Pair} {l r : World}

/-- A world beside the same world with fewer mounts. The mounts over a table stand for themselves, and
all others belong to themselves. -/
def asunder (T : Pair) (t : TableId) (l r : World) : Pair where
  left := l
  right := r
  tied a b := a = b ∧ T.tied a a ∧ ¬T.home a t
  ownLeft a := T.home a t
  ownRight a := T.home a t
  home := T.home

section

variable {P : Parting} (table : P.table = some t) (mounts : T.Mounts .none)
include table mounts

theorem Links.asunder {link : Link} (links : T.Links .none link link) :
    (T.asunder t l r).Links P link link where
  table := rfl
  parted there := by
    cases Option.some.inj (table.symm.trans there)
    exact ⟨links.home, links.home⟩
  tied other := ⟨rfl, links.tied nofun, fun home =>
    other (table.trans (congrArg some (mounts.homeOne _ _ _ home links.home)))⟩
  home := links.home

theorem Responds.asunder {a : Response} (same : T.Responds .none a a) :
    (T.asunder t l r).Responds P a a := by
  cases same with
  | script script => exact .script script
  | writeBack links path => exact .writeBack (Links.asunder table mounts links) path
  | method links script => exact .method (Links.asunder table mounts links) script

end

end Pair

namespace Machine

variable {steps rest : List Step} {shows : List Show} {may : Machine → Prop} {m n : Machine}
  {events : List Event} {T : Pair}

section

variable (twins : Machine.Twins .none T #[] #[] m m) (rests : m.Rests)
include twins

/-- The view models of the user, each beside itself. -/
theorem viewModels_alone {vm : ViewModel} (held : vm ∈ m.session.held.viewModels) :
    T.ViewModels .none vm vm := by
  have session := twins.session
  have viewModels := session.viewModels
  have views := session.views
  simp only [Parting.none, spare_nil] at viewModels views
  rcases Session.mem_viewModels_held.mp held with ⟨entry, h, rfl⟩ | ⟨view, h, rfl⟩
  · exact viewModels.diagonal h
  · exact (views.diagonal h).viewModel

variable (tight : m.Tight) (all : m.session.HandlesOver t handles) (lacks : m.Lacks n handles)
include rests tight all lacks

theorem mounts_asunder : (T.asunder t m.world n.world).Mounts (m.session.parting t handles) := by
  have session := twins.session
  have mounts := session.fits.mounts
  have left : m.world = T.left := session.left
  have home {vm : ViewModel} (held : vm ∈ m.session.held.viewModels) : T.home vm.mounts vm.table :=
    (viewModels_alone twins held).links.home
  -- mounts that are still there are kept by a view model that is held
  have keeper {a : MountsId} {entries : List (String × MapId)} (there : m.world.mounts? a = some entries) :
      ∃ vm ∈ m.session.held.viewModels, vm.mounts = a := by
    obtain ⟨vm, held, is⟩ := tight.mounts a (Option.isSome_iff_exists.mpr ⟨_, there⟩)
    exact ⟨vm, held_of_rests rests ▸ held, is⟩
  refine ⟨?_, ?_, ?_, ?_, ?_, ?_, ?_, ?_, ?_, ?_, mounts.homeOne⟩
  · rintro a b ⟨rfl, tied, _⟩
    have within := (mounts.within a a tied).1
    exact ⟨left ▸ within, lacks.size ▸ left ▸ within⟩
  · exact fun a home => left ▸ mounts.homeWithin a t home
  · exact fun a home => lacks.size ▸ left ▸ mounts.homeWithin a t home
  · rintro a b a' b' ⟨rfl, _⟩ ⟨rfl, _⟩
    rfl
  · rintro a b ⟨rfl, _, away⟩
    exact ⟨away, away⟩
  · rintro a b ⟨rfl, _, away⟩
    refine Option.ext fun entries => Iff.symm ((lacks.mounts a entries).trans ⟨fun h => h.2, fun there => ?_⟩)
    obtain ⟨vm, held, rfl⟩ := keeper there
    rw [lacks.session]
    refine ⟨⟨vm, ?_, rfl⟩, there⟩
    exact (all.still_or_over (List.Subset.refl _) held).resolve_right fun e => away (e ▸ home held)
  · rintro a b ⟨rfl, tied, _⟩
    simp only [Pair.asunder, left]
    exact mounts.live a a tied
  · intro a own entries there e mounted
    obtain ⟨vm, held, rfl⟩ := keeper there
    exact .mounted held (mounts.homeOne _ _ _ (home held) own) there mounted
  · intro a own entries there
    obtain ⟨⟨vm, held, rfl⟩, _⟩ := (lacks.mounts a entries).mp there
    rw [lacks.session] at held
    exact absurd (mounts.homeOne _ _ _ (home (Session.held_of_without held)) own) (all.other held)
  · exact fun a u home => left ▸ mounts.homeWithin a u home

theorem fits_asunder : (T.asunder t m.world n.world).Fits (m.session.parting t handles) := by
  have session := twins.session
  have fits := session.fits
  have left : m.world = T.left := session.left
  have right : m.world = T.right := session.right
  have world : n.world = { m.world with mounts := n.world.mounts } := congrArg Session.world lacks.session
  have listeners := fits.listeners
  have watchers := fits.watchers
  rw [← left, ← right] at listeners watchers
  refine ⟨?_, ?_, ?_, ?_, ?_, ?_, ?_, ?_, mounts_asunder twins rests tight all lacks⟩
  · exact (congrArg World.heap world :)
  · exact left ▸ fits.whole
  · exact (congrArg World.tables world :)
  · rintro _ ⟨⟩
    exact all.table
  · exact ⟨left ▸ fits.collector.1, (congrArg World.collector world).trans (left ▸ fits.collector.1)⟩
  · exact congrArg (·.page.nodes) world
  · simp only [Pair.asunder, congrArg (·.page.listeners) world]
    refine List.forall₂_same.mpr fun l hl => ?_
    exact ⟨rfl, rfl, (List.forall₂_same.mp listeners l hl).responds.asunder rfl fits.mounts⟩
  · simp only [Pair.asunder, congrArg World.watchers world]
    refine List.forall₂_same.mpr fun w hw => ?_
    exact ⟨(List.forall₂_same.mp watchers w hw).links.asunder rfl fits.mounts, rfl, rfl⟩

/-- A session and the same session without the handles. -/
theorem sessions_asunder :
    DataBinding.Twins (m.session.parting t handles) (T.asunder t m.world n.world) m.session n.session := by
  have session := twins.session
  have mounts := session.fits.mounts
  have left : m.world = T.left := session.left
  have fits := fits_asunder twins rests tight all lacks
  have links := session.links
  have views := session.views
  simp only [Parting.none, spare_nil] at links views
  have same {vm : ViewModel} (held : vm ∈ m.session.held.viewModels) :
      (T.asunder t m.world n.world).ViewModels (m.session.parting t handles) vm vm := by
    obtain ⟨links, kept⟩ := viewModels_alone twins held
    exact ⟨links.asunder rfl mounts, left ▸ kept⟩
  have live {v : Value} (lives : T.left.heap.Lives v) : (T.asunder t m.world n.world).left.heap.Lives v :=
    left ▸ lives
  rw [lacks.session]
  refine ⟨rfl, congrArg Session.world lacks.session.symm, fits, rfl, ?_, ?_, ?_, rfl, rfl, rfl, ?_, rfl, rfl,
    rfl, ?_, ?_⟩
  · exact fun entry h => live (session.lives entry h)
  · refine List.forall₂_same.mpr fun entry h => ⟨rfl, same ?_⟩
    exact Session.mem_viewModels_held.mpr (.inl ⟨entry, (mem_spare.mp h).1, rfl⟩)
  · exact List.forall₂_same.mpr fun entry h => ⟨rfl, (links.diagonal h).asunder rfl mounts⟩
  · refine List.forall₂_same.mpr fun entry h => ?_
    have old := (mem_spare.mp h).1
    have held := Session.mem_viewModels_held.mpr (.inr ⟨entry, old, rfl⟩)
    exact ⟨rfl, same held, rfl, live (views.diagonal old).lives, rfl, rfl⟩
  · intro entry h own
    have there := (all.viewModels entry h).mp (mem_viewModels.mp own)
    have held := Session.mem_viewModels_held.mpr (.inl ⟨entry, h, rfl⟩)
    exact there ▸ (viewModels_alone twins held).links.home
  · intro entry h own
    have there := (all.views entry h).mp (mem_views.mp own)
    have held := Session.mem_viewModels_held.mpr (.inr ⟨entry, h, rfl⟩)
    exact ⟨there ▸ (viewModels_alone twins held).links.home, .model h there⟩

end

/-- The machine that goes on with its handles, and the one that goes on without them. -/
theorem twins_asunder (run : Run may (start steps shows) events m) (rests : m.Rests)
    (all : m.session.HandlesOver t handles) (lacks : m.Lacks n handles)
    (hf : n.frames = [.steps .outside none rest])
    (spared : ∀ view ∈ m.shows, (m.session.parting t handles).SparesAll view.names) :
    ∃ T, Machine.Twins (m.session.parting t handles) T m.answers n.answers (m.goesOn rest) n := by
  obtain ⟨T, twins⟩ := twins_of_run run
  exact ⟨_,
    { session := sessions_asunder twins rests (tight_of_run run) all lacks
      shows := lacks.shows
      spared := spared
      frames := hf ▸ .cons (.steps contexts_outside none rest) .nil
      answers := ⟨#[], by simp [goesOn], by simp⟩ }⟩

/-! ## What can be told -/

/-- The script that the next move calls, and its argument. -/
def calling (m : Machine) : Option (ScriptId × Option Value) :=
  match m.frames with
  | .call script context :: _ => some (script, context.argument)
  | _ => none

/-- All that can be told of two machines is the same: the model with its registries, the tables, the page
with its listeners, the watchers, the log, and what is called and whose turn it is, with which value. -/
structure Resembles (m n : Machine) : Prop where
  heap : n.world.heap = m.world.heap
  tables : n.world.tables = m.world.tables
  nodes : n.world.page.nodes = m.world.page.nodes
  listeners : n.world.page.listeners.map (fun l => (l.node, l.event)) =
    m.world.page.listeners.map fun l => (l.node, l.event)
  watchers : n.world.watchers.map (fun w => (w.link.table, w.path, w.reaction)) =
    m.world.watchers.map fun w => (w.link.table, w.path, w.reaction)
  scripts : n.session.scripts = m.session.scripts
  log : n.session.log = m.session.log
  calling : n.calling = m.calling
  turning : n.turning = m.turning

theorem map_eq_of_forall₂ {α β γ : Type} {R : α → β → Prop} {f : α → γ} {g : β → γ} {xs : List α}
    {ys : List β} (same : List.Forall₂ R xs ys) (eq : ∀ x y, R x y → g y = f x) :
    ys.map g = xs.map f := by
  induction same with
  | nil => rfl
  | cons h _ ih => simp only [List.map_cons, eq _ _ h, ih]

theorem Twins.resembles {P : Parting} {T : Pair} {a b : Array Answer}
    (twins : Machine.Twins P T a b m n) : m.Resembles n := by
  have session := twins.session
  have fits := session.fits
  have left : m.world = T.left := session.left
  have right : n.world = T.right := session.right
  have frames := twins.frames
  have watchers : n.world.watchers.toList.map (fun w => (w.link.table, w.path, w.reaction)) =
      m.world.watchers.toList.map fun w => (w.link.table, w.path, w.reaction) := by
    rw [left, right]
    exact map_eq_of_forall₂ fits.watchers fun w w' same => by
      rw [same.links.table, same.path, same.reaction]
  refine ⟨?_, ?_, ?_, ?_, ?_, session.scripts, session.log, ?_, ?_⟩
  · rw [left, right, fits.heap]
  · rw [left, right, fits.tables]
  · rw [left, right, fits.nodes]
  · rw [left, right]
    exact map_eq_of_forall₂ fits.listeners fun l l' same => by rw [same.node, same.event]
  · simpa only [← Array.toList_map, Array.toList_inj] using watchers
  · simp only [Machine.calling]
    generalize m.frames = fs, n.frames = gs at frames
    cases frames with
    | nil => rfl
    | cons same _ =>
      cases same with
      | call script same => simp only [same.argument]
      | steps _ _ _ | turns _ | hearing _ _ | keep _ | reply _ _ _ | record _ => rfl
  · simp only [turning, left, right]
    generalize m.frames = fs, n.frames = gs at frames
    cases frames with
    | nil => rfl
    | cons same _ =>
      cases same with
      | turns owed =>
        rcases owed with _ | ⟨id, owed⟩
        · rfl
        · have found := fits.watcher? id
          simp only
          generalize T.left.watcher? id = x, T.right.watcher? id = y at found
          cases found with
          | none => rfl
          | @some watcher watcher' same =>
            simp only [Option.map_some, World.valueOf, ← same.links.table, ← same.path, fits.readPath]
      | steps _ _ _ | call _ _ | hearing _ _ | keep _ | reply _ _ _ | record _ => rfl

/-! ## Dropping is invisible -/

/-- Twins stay twins as long as the second one spares what was let go of, and that stays live. -/
theorem Twins.after {P : Parting} {T : Pair} {a b : Array Answer}
    (twins : Machine.Twins P T a b m n) (spares : ∀ k, (n.after k).Spares P)
    (stays : ∀ k c, P.keeps c → (n.after k).world.heap.isLive c = true) (k : Nat) :
    ∃ T', Machine.Twins P T' a b (m.after k) (n.after k) := by
  induction k with
  | zero => exact ⟨T, twins⟩
  | succ k ih =>
    obtain ⟨T', twins'⟩ := ih
    exact twins'.next (spares k) (stays (k + 1))

/-- To drop all handles over a table is invisible while the model lives. Two machines go on from a state
between the steps of the user: one does the given steps at once, and the other one first drops the
handles. If what the handles keep stays live in the second one, and if its steps name none of the
handles and mount nothing over the table, then the drops log nothing, and from there on all that can be
told of the two machines is the same after each move: they call the same scripts with the same
arguments, give watchers the same turns with the same values and the same answers, and have the same
model, registries and page. -/
theorem dropping_is_invisible (run : Run may (start steps shows) events m) (rests : m.Rests)
    (all : m.session.HandlesOver t handles)
    (stays : ∀ k c, m.session.KeptOver t c →
      ((m.goesWithout handles rest).after k).world.heap.isLive c = true)
    (spared : ∀ view ∈ m.shows, (m.session.parting t handles).SparesAll view.names)
    (spares : ∀ k, ((m.goesWithout handles rest).after (3 * handles.length + k)).Spares
      (m.session.parting t handles)) :
    ∃ told : List Answer, told.length = handles.length ∧ (∀ answer ∈ told, answer.log = []) ∧
      ∀ k, ((m.goesOn rest).after k).Resembles
          ((m.goesWithout handles rest).after (3 * handles.length + k)) ∧
        ∃ later, ((m.goesOn rest).after k).answers = m.answers ++ later ∧
          ((m.goesWithout handles rest).after (3 * handles.length + k)).answers =
            m.answers ++ told.toArray ++ later := by
  obtain ⟨lacks, hf, told, length, logs, answers⟩ := lacks_after run rests all handles (List.nil_append _)
    (lacks_nothing run rests _) rfl stays
  obtain ⟨T, twins⟩ := twins_asunder run rests all lacks hf spared
  simp only [after_add] at spares ⊢
  refine ⟨told, length, logs, fun k => ?_⟩
  obtain ⟨T', twins'⟩ := twins.after spares (fun k c kept => by
    rw [← after_add]
    exact stays _ c kept) k
  obtain ⟨later, hm, hn⟩ := twins'.answers
  exact ⟨twins'.resembles, later, hm, answers ▸ hn⟩

/-! ## Runs that come to an end -/

/-- What holds up to the end of a run holds ever after. -/
theorem forall_after {p : Machine → Prop} {last : Nat} (done : (m.after last).frames = [])
    (holds : ∀ k ≤ last, p (m.after k)) (k : Nat) : p (m.after k) := by
  have still (late : Nat) : m.after (last + late) = m.after last := by
    induction late with
    | zero => rfl
    | succ late ih => simp [after, ih, next, done]
  rcases Nat.le_total k last with le | ge
  · exact holds k le
  · obtain ⟨late, rfl⟩ := Nat.exists_eq_add_of_le ge
    exact still late ▸ holds last (Nat.le_refl last)

/-- No step is about to be performed. -/
def idle (m : Machine) : Bool :=
  match m.frames with
  | .steps _ _ (_ :: _) :: _ => false
  | _ => true

theorem spares_of_idle {P : Parting} (idle : m.idle = true) : m.Spares P := by
  unfold Spares
  unfold Machine.idle at idle
  split
  · rename_i hf
    simp [hf] at idle
  · trivial

/-- A machine spares handles if its one step does, and all that comes of it. -/
theorem spares_of_one_step {P : Parting} {step : Step} (last : Nat)
    (hf : m.frames = [.steps .outside none [step]]) (names : P.SparesAll step.names)
    (mounts : step.mountsOver? m.session .outside = none) (done : (m.next.after last).frames = [])
    (idles : (List.range (last + 1)).all (fun k => (m.next.after k).idle) = true) (k : Nat) :
    (m.after k).Spares P := by
  cases k with
  | zero =>
    simp only [after, Spares, hf, mounts]
    refine ⟨names, fun _ nowhere => ?_⟩
    cases nowhere
  | succ k =>
    have later : m.after (k + 1) = m.next.after k := by
      rw [Nat.add_comm, after_add]
      rfl
    refine later ▸ forall_after (p := fun n => n.Spares P) done (fun k le => ?_) k
    exact spares_of_idle (List.all_eq_true.mp idles k (List.mem_range.mpr (Nat.lt_succ_of_le le)))

/-- A map that is live up to the end of a run stays live. -/
theorem live_of_all {c : Container} (last : Nat) (done : (m.after last).frames = [])
    (lives : (List.range (last + 1)).all (fun k => (m.after k).world.heap.isLive c) = true) (k : Nat) :
    (m.after k).world.heap.isLive c = true :=
  forall_after (p := fun n => n.world.heap.isLive c = true) done
    (fun k le => List.all_eq_true.mp lives k (List.mem_range.mpr (Nat.lt_succ_of_le le))) k

/-- A session with one view model over a watched map that a value holds too. -/
def modelShared : List Step :=
  [.keep "d" (.document (.object [("a", .int 1)])), .newViewModel "vm" (.observed (.handle "d" [])),
    .watch "vm" "a" "w" [] none]

def sharing : Session :=
  { Session.empty with
    world :=
      { World.empty with
        heap := ⟨#[some ⟨[⟨"a", .number ⟨4607182418800017408⟩, some [⟨1⟩]⟩], true⟩], #[], #[]⟩
        watchers := #[⟨⟨⟨0⟩, ⟨0⟩⟩, ⟨"a", "a", []⟩, .script ⟨0⟩⟩]
        tables := #[⟨[("$data", ⟨0⟩)], [("a", ⟨0⟩)], []⟩]
        mounts := #[some [("$data", ⟨0⟩)]] }
    values := [("d", .map ⟨0⟩)]
    viewModels := [("vm", ⟨⟨0⟩, ⟨0⟩⟩)]
    watchers := [("w", ⟨1⟩)]
    scripts := #[⟨.watcher, "w", [], none, 0⟩] }

/-- The write that follows. -/
def sharedWrite : List Step := [.map (.handle "d" []) (.set "a" (.document (.text "x")))]

/-- When the view model of that session is dropped, the write is followed by the same turn as before. -/
theorem dropped_owner_is_not_missed :
    ∃ events m, Run (fun _ => True) (start modelShared []) events m ∧ m.Rests ∧
      m.session.HandlesOver ⟨0⟩ [.viewModel "vm"] ∧
      ∀ k, ((m.goesOn sharedWrite).after k).Resembles
        ((m.goesWithout [.viewModel "vm"] sharedWrite).after (3 + k)) := by
  have run : Run (fun _ => True) (start modelShared []) _ _ := run_after 9 fun _ _ => trivial
  have state : (fun m : Machine => (m.session, m.shows, m.frames)) ((start modelShared []).after 9) =
    (sharing, [], [.steps .outside none []]) := by cbv
  generalize (start modelShared []).after 9 = m at run state
  obtain ⟨_, _, _, answers⟩ := m
  cases state
  let m : Machine := ⟨sharing, [], [.steps .outside none []], answers⟩
  have rests : m.Rests := .inr ⟨[], rfl⟩
  have all : m.session.HandlesOver ⟨0⟩ [.viewModel "vm"] :=
    ⟨Nat.zero_lt_one, by simp [m, sharing], fun _ view => absurd view List.not_mem_nil⟩
  have stays (k : Nat) (c : Container) (kept : m.session.KeptOver ⟨0⟩ c) :
      ((m.goesWithout [.viewModel "vm"] sharedWrite).after k).world.heap.isLive c = true := by
    cases kept with
    | mounted held _ table mounted =>
      cases List.mem_singleton.mp held
      cases table
      cases List.mem_singleton.mp mounted
      exact live_of_all 11 (by cbv) (by cbv) k
    | model held _ => cases held
  have spares (k : Nat) : ((m.goesWithout [.viewModel "vm"] sharedWrite).after (3 + k)).Spares
      (m.session.parting ⟨0⟩ [.viewModel "vm"]) := by
    have names : (sharing.parting ⟨0⟩ [.viewModel "vm"]).SparesAll ["d"] := by decide
    rw [after_add]
    exact spares_of_one_step 7 (by cbv) names (by cbv) (by cbv) (by cbv) k
  obtain ⟨_, _, _, same⟩ := dropping_is_invisible run rests all stays
    (fun _ view => absurd view List.not_mem_nil) spares
  exact ⟨_, _, run, rests, all, fun k => (same k).1⟩

/-! ## The model of a view -/

/-- A session with a view, another view model over its model, and a watcher there. Then another map is
mounted in the place of the model over both. -/
def modelReplaced : List Step :=
  [.page (.element "div" [("id", "app")] [] none),
    .view "v" (.document (.object [("a", .int 1)])) (some "#app") [] (.given .standard) false,
    .newViewModel "g" (.observed (.handle "v" [])),
    .watch "g" "a" "w" [] none,
    .keep "other" (.document (.object [("a", .int 2)])),
    .viewModel "g" (.mount "$data" (.handle "other" [])),
    .viewModel "v" (.mount "$data" (.handle "other" [])),
    .viewModel "v" (.flatten "$data")]

def replaced : Session :=
  { Session.empty with
    world :=
      { World.empty with
        heap := ⟨#[some ⟨[⟨"a", .number ⟨4607182418800017408⟩, some [⟨1⟩]⟩], true⟩,
          some ⟨[⟨"a", .number ⟨4611686018427387904⟩, none⟩], false⟩], #[], #[]⟩
        watchers := #[⟨⟨⟨1⟩, ⟨1⟩⟩, ⟨"a", "a", []⟩, .script ⟨0⟩⟩]
        tables := #[⟨[("$data", ⟨1⟩)], [("a", ⟨1⟩)], []⟩, ⟨[("$data", ⟨1⟩)], [("a", ⟨0⟩)], []⟩]
        mounts := #[some [("$data", ⟨1⟩)], some [("$data", ⟨1⟩)]]
        page := ⟨#[⟨.element "div" [("id", "app")] [] none, none, []⟩], []⟩ }
    values := [("other", .map ⟨1⟩)]
    viewModels := [("g", ⟨⟨1⟩, ⟨1⟩⟩)]
    watchers := [("w", ⟨1⟩)]
    views := [("v", ⟨⟨⟨0⟩, ⟨0⟩⟩, ⟨0⟩, some ⟨0⟩, []⟩)]
    scripts := #[⟨.watcher, "w", [], none, 0⟩] }

/-- The update of the watcher that follows. -/
def watcherUpdate : List Step := [.watcher "w" .update]

/-- When the view of that session is dropped, all that is named over its table stays live. The view has
kept its model, though, and when the watcher is updated it gets null instead of the number that it gets
otherwise. -/
theorem dropped_view_takes_its_model :
    ∃ events m, Run (fun _ => True) (start modelReplaced []) events m ∧ m.Rests ∧
      m.session.HandlesOver ⟨0⟩ [.view "v"] ∧
      (∀ k c, m.session.NamedOver ⟨0⟩ c →
        ((m.goesWithout [.view "v"] watcherUpdate).after k).world.heap.isLive c = true) ∧
      (∀ view ∈ m.shows, (m.session.parting ⟨0⟩ [.view "v"]).SparesAll view.names) ∧
      (∀ k, ((m.goesWithout [.view "v"] watcherUpdate).after (3 + k)).Spares
        (m.session.parting ⟨0⟩ [.view "v"])) ∧
      ((m.goesOn watcherUpdate).after 2).calling =
        some (⟨0⟩, some (.number ⟨4607182418800017408⟩)) ∧
      ((m.goesWithout [.view "v"] watcherUpdate).after (3 + 2)).calling = some (⟨0⟩, some .null) ∧
      ¬((m.goesOn watcherUpdate).after 2).Resembles
        ((m.goesWithout [.view "v"] watcherUpdate).after (3 + 2)) := by
  have run : Run (fun _ => True) (start modelReplaced []) _ _ := run_after 24 fun _ _ => trivial
  have state : (fun m : Machine => (m.session, m.shows, m.frames)) ((start modelReplaced []).after 24) =
    (replaced, [], [.steps .outside none []]) := by cbv
  generalize (start modelReplaced []).after 24 = m at run state
  obtain ⟨_, _, _, answers⟩ := m
  cases state
  let m : Machine := ⟨replaced, [], [.steps .outside none []], answers⟩
  have other (k : Nat) :
      ((m.goesWithout [.view "v"] watcherUpdate).after k).world.heap.isLive (.map ⟨1⟩) = true :=
    live_of_all 11 (by cbv) (by cbv) k
  have with_ : ((m.goesOn watcherUpdate).after 2).calling =
    some (⟨0⟩, some (.number ⟨4607182418800017408⟩)) := by cbv
  have without : ((m.goesWithout [.view "v"] watcherUpdate).after (3 + 2)).calling =
    some (⟨0⟩, some .null) := by cbv
  refine ⟨_, m, run, .inr ⟨[], rfl⟩, ⟨by simp [m, replaced], by simp [m, replaced], by simp [m, replaced]⟩,
    fun k c named => ?_, fun _ view => absurd view List.not_mem_nil, fun k => ?_, with_, without,
    fun same => ?_⟩
  · cases named with
    | mounted held there table mounted =>
      rcases List.mem_pair.mp held with rfl | rfl
      · cases there
      · cases table
        cases List.mem_singleton.mp mounted
        exact other k
    | container named =>
      cases List.mem_singleton.mp named
      exact other k
    | property named =>
      cases List.mem_singleton.mp named
      exact other k
  · rw [after_add]
    have names : (replaced.parting ⟨0⟩ [.view "v"]).SparesAll [] := by decide
    exact spares_of_one_step 7 (by cbv) names (by cbv) (by cbv) (by cbv) k
  · have := same.calling
    rw [with_, without] at this
    cases this

end Machine

end DataBinding
