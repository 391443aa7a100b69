-- Lifetimes. A container lives while a handle, a mount that some view model keeps, or a live container
-- holds it; watchers, links, tables, listeners and wirings hold nothing. `World.release` frees what
-- is no longer held.
import DataBinding.Binding.World
import DataBinding.Model.Release

namespace DataBinding

/-! ## Held by handles -/

/-- What is held from outside the heap: values and view models. -/
structure Held where
  values : List Value
  viewModels : List ViewModel
deriving Repr

namespace Held

def nothing : Held := ⟨[], []⟩

/-- Whether no container and no view model is held. -/
def isNothing (h : Held) : Bool :=
  h.viewModels.isEmpty && h.values.all fun v => v.container?.isNone

def value (v : Value) : Held := ⟨[v], []⟩

def viewModel (vm : ViewModel) : Held := ⟨[], [vm]⟩

def and (a b : Held) : Held := ⟨a.values ++ b.values, a.viewModels ++ b.viewModels⟩

def concat (parts : List Held) : Held := ⟨parts.flatMap (·.values), parts.flatMap (·.viewModels)⟩

end Held

namespace World

/-- Frees the mounts that no view model keeps, then the containers that nothing holds. -/
def release (w : World) (held : Held) : World :=
  let keptMounts := held.viewModels.map (·.mounts)
  let mounts := w.mounts.mapIdx fun i entries => if keptMounts.contains ⟨i⟩ then entries else none
  let mounted := mounts.toList.flatMap fun entries => (entries.getD []).map fun e => Value.map e.2
  { w with mounts, heap := w.heap.release (held.values ++ mounted) }

end World

end DataBinding
