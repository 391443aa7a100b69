-- Watchers at work. A new watcher evaluates its path once while it collects, so it is registered with
-- every observed slot on the path and with every list such a slot holds. Later evaluations collect
-- nothing.
import DataBinding.Binding.ViewModel

namespace DataBinding.World

/-- A new watcher, registered with what its path crosses now. -/
def watch (w : World) (link : Link) (path : KeyPath) (reaction : Reaction) : World × WatcherId :=
  let id : WatcherId := ⟨w.watchers.size + 1⟩
  let w := { w with watchers := w.watchers.push ⟨link, path, reaction⟩ }
  let (w, _) := w.collecting (some id) (·.evaluate link.table path)
  (w, id)

/-- The value of a watcher's path now; nobody is registered. -/
def watched (w : World) (watcher : Watcher) : World × Value :=
  w.untracked (·.evaluate watcher.link.table watcher.path)

/-- Shows a value on a node. -/
def render (w : World) (directive : Directive) (n : NodeId) (v : Value) : World :=
  let s := w.heap.render v
  let page := match directive with
    | .model => w.page.setProperty n "value" s
    | .text => w.page.setText n s
    | .html => w.page.setMarkup n s
    | .bind name => w.page.setAttribute n name s
  { w with page }

end DataBinding.World
