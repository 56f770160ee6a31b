import Blockwise.Data.SortedSet
import Blockwise.Data.Table
import Blockwise.Identifier

/-!
Links between nodes of different reached sets. A caller's node behind a block is linked to the exit
node of the block from which it was expanded, and a call node is linked to the reached set that
explores the block from there. Several call nodes may share one reached set.
-/
namespace Blockwise

structure Links where
  /-- From a node behind a block to the exit it was expanded from. -/
  exits : Table NodeId NodeId := ∅
  calls : Table NodeId SetId := ∅
  deriving DecidableEq

namespace Links

def linkExpanded (node exit : NodeId) (l : Links) : Links :=
  { l with exits := l.exits.insert node exit }

def linkEntry (entry : NodeId) (set : SetId) (l : Links) : Links :=
  { l with calls := l.calls.insert entry set }

def reducedOf (l : Links) (node : NodeId) : Option NodeId := l.exits.get? node

def setOfEntry (l : Links) (entry : NodeId) : Option SetId := l.calls.get? entry

def isBlockEntry (l : Links) (node : NodeId) : Bool := l.calls.contains node

def follow (l : Links) : Nat → NodeId → NodeId
  | 0, node => node
  | hops + 1, node => match l.reducedOf node with
    | some exit => follow l hops exit
    | none => node

/-- The bound on the hops ends only a walk in a cycle of links. -/
def mostInner (l : Links) (node : NodeId) : NodeId := l.follow (l.exits.size + 1) node

def entriesFor (l : Links) (set : SetId) : IdSet :=
  .ofList ((l.calls.entries.filter (·.2 = set)).map (·.1))

def prune (destroyed : NodeId → Bool) (l : Links) : Links where
  exits := l.exits.filter fun node exit => !destroyed node && !destroyed exit
  calls := l.calls.filter fun entry _ => !destroyed entry

@[simp] theorem reducedOf_linkExpanded (l : Links) (node exit n : NodeId) :
    (l.linkExpanded node exit).reducedOf n = if node = n then some exit else l.reducedOf n :=
  Table.get?_insert ..

@[simp] theorem setOfEntry_linkEntry (l : Links) (entry n : NodeId) (set : SetId) :
    (l.linkEntry entry set).setOfEntry n = if entry = n then some set else l.setOfEntry n :=
  Table.get?_insert ..

@[simp] theorem reducedOf_linkEntry (l : Links) (entry n : NodeId) (set : SetId) :
    (l.linkEntry entry set).reducedOf n = l.reducedOf n := rfl

theorem reducedOf_prune (destroyed : NodeId → Bool) (l : Links) (n : NodeId) :
    (l.prune destroyed).reducedOf n =
      (l.reducedOf n).filter fun exit => !destroyed n && !destroyed exit :=
  Table.get?_filter ..

theorem setOfEntry_prune (destroyed : NodeId → Bool) (l : Links) (n : NodeId) :
    (l.prune destroyed).setOfEntry n = (l.setOfEntry n).filter fun _ => !destroyed n :=
  Table.get?_filter ..

theorem reducedOf_of_prune {destroyed : NodeId → Bool} {l : Links} {n x : NodeId}
    (h : (l.prune destroyed).reducedOf n = some x) : l.reducedOf n = some x :=
  Table.get?_of_filter h

theorem setOfEntry_of_prune {destroyed : NodeId → Bool} {l : Links} {n : NodeId} {s : SetId}
    (h : (l.prune destroyed).setOfEntry n = some s) : l.setOfEntry n = some s :=
  Table.get?_of_filter h

@[simp] theorem mem_entriesFor {l : Links} {set : SetId} {entry : NodeId} :
    entry ∈ l.entriesFor set ↔ l.setOfEntry entry = some set := by
  simp only [entriesFor, SortedSet.mem_ofList, List.mem_map, List.mem_filter, decide_eq_true_eq,
    setOfEntry, ← Table.mem_entries_iff]
  constructor
  · rintro ⟨e, ⟨h, hs⟩, he⟩
    exact hs ▸ he ▸ h
  · exact fun h => ⟨_, ⟨h, rfl⟩, rfl⟩

end Links

end Blockwise
