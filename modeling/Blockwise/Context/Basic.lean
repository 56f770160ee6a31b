import Blockwise.Cache
import Blockwise.Links
import Blockwise.Options
import Blockwise.ReachedSet.Removal
import Blockwise.Shutdown
import Blockwise.Statistics
import Blockwise.Value.Reducer

/-!
The context of one analysis run: the graph of all nodes, the reached sets over it, the cache of
block results, and the links between callers and blocks. Operations on a context are actions; an
action that fails keeps the changes it made before.
-/
namespace Blockwise

abbrev Key := CacheKey State Tracked

structure Context where
  partitioning : Partitioning
  reducer : Reducer
  graph : Graph State Tracked
  sets : Array ReachedSet
  cache : Cache State Tracked
  links : Links
  options : Options
  statistics : Statistics
  shutdown : Shutdown

abbrev Action := EStateM Fault Context

namespace Context

def reachedSet (c : Context) (set : SetId) : Except Fault ReachedSet :=
  match c.sets[set]? with
  | some r => .ok r
  | none => .error (.unknownReachedSet set)

def topLevel (c : Context) : Except Fault ReachedSet := c.reachedSet .topLevel

def addReachedSet (c : Context) (state : State) (precision : Tracked) : Context :=
  { c with
    graph := c.graph.addNode state precision c.sets.size
    sets := c.sets.push (.start c.sets.size c.graph.size c.options.order) }

def start (partitioning : Partitioning) (reducer : Reducer) (state : State) (precision : Tracked)
    (options : Options) : Context :=
  addReachedSet
    { partitioning
      reducer
      graph := ∅
      sets := #[]
      cache := { aggressive := options.aggressiveCaching }
      links := {}
      options
      statistics := {}
      shutdown := .never } state precision

def reducedFor (c : Context) (node : NodeId) : Except Fault Key := do
  let n ← c.graph.node node
  let block ← c.partitioning.block n.state.location
  return {
    state := c.reducer.reduceState n.state block
    precision := c.reducer.reducePrecision n.precision block
    block := n.state.location }

def keyOf (c : Context) (set : SetId) : Except Fault Key := do
  let r ← c.reachedSet set
  let first ← c.graph.liveNode r.first
  return { state := first.state, precision := first.precision, block := first.state.location }

def ownerReachedSet (c : Context) (entry : NodeId) : Except Fault SetId :=
  match c.links.setOfEntry entry with
  | some set => .ok set
  | none => .error (.missingReachedSet entry)

/-- The set explored below `node`: a block's for a call node, the whole program's for its first
node. -/
def reachedSetFor (c : Context) (node : NodeId) : Except Fault SetId := do
  if (← c.topLevel).first = node then return .topLevel else c.ownerReachedSet node

def checkLive (c : Context) (nodes : List NodeId) : Except Fault Unit :=
  nodes.forM fun node => do
    let _ ← c.graph.liveNode node

def stateAt (c : Context) (node : NodeId) (test : State → Bool) : Bool :=
  (c.graph.node? node).any (test ·.state)

/-- The nodes at which a block is left: those at its return nodes, and the targets. -/
def blockExits (c : Context) (set : SetId) : Except Fault (List NodeId) := do
  let r ← c.reachedSet set
  let first ← c.graph.liveNode r.first
  let block ← c.partitioning.block first.state.location
  c.checkLive r.nodes.toList
  return r.nodes.toList.filter fun node =>
    node ≠ r.first && c.stateAt node fun s => block.isReturnNode s.location || s.target

end Context

namespace Action

def ask {α : Type} (read : Context → Except Fault α) : Action α := do read (← get)

def modifyGraph (f : Graph State Tracked → Graph State Tracked) : Action Unit :=
  modify fun c => { c with graph := f c.graph }

def modifyCache (f : Cache State Tracked → Cache State Tracked) : Action Unit :=
  modify fun c => { c with cache := f c.cache }

def modifyLinks (f : Links → Links) : Action Unit := modify fun c => { c with links := f c.links }

def count (f : Statistics → Statistics) : Action Unit :=
  modify fun c => { c with statistics := f c.statistics }

def editGraph (f : Graph State Tracked → Except Fault (Graph State Tracked)) : Action Unit := do
  let g ← f (← get).graph
  modifyGraph fun _ => g

def poll : Action Unit := do
  let c ← get
  c.shutdown.check
  set { c with shutdown := c.shutdown.next }

def modifySet (set : SetId) (f : ReachedSet → ReachedSet) : Action Unit := do
  let r ← (← get).reachedSet set
  modify fun c => { c with sets := c.sets.setIfInBounds set (f r) }

def popWaiting (set : SetId) : Action (Option NodeId) := do
  let r ← (← get).reachedSet set
  modifySet set fun r => r.pop.2
  return r.pop.1

def newReachedSet (state : State) (precision : Tracked) : Action SetId := do
  let set := (← get).sets.size
  modify fun c => c.addReachedSet state precision
  return set

/-- Adds a node below `parent`, with its precision and in its reached set, but not yet as a member
of that set. -/
def addChild (parent : NodeId) (state : State) : Action NodeId := do
  let p ← (← get).graph.liveNode parent
  let node := (← get).graph.size
  modifyGraph fun g => g.addNode state p.precision p.set
  editGraph fun g => g.addEdge parent node
  return node

def addSuccessor (parent : NodeId) (state : State) : Action NodeId := do
  let node ← addChild parent state
  let n ← (← get).graph.liveNode node
  modifySet n.set (·.add node)
  return node

def addCoveredSuccessor (parent : NodeId) (state : State) (cover : NodeId) : Action NodeId := do
  let node ← addChild parent state
  editGraph fun g => g.cover node cover
  let n ← (← get).graph.liveNode node
  modifySet n.set (·.addWithoutWaiting node)
  return node

def removeSubtree (set : SetId) (node : NodeId) (adjustment : Adjustment Tracked) : Action Bool :=
  fun c => match c.reachedSet set with
    | .error fault => .error fault c
    | .ok r =>
      let put (region : Region State Tracked) : Context :=
        { c with graph := region.graph, sets := c.sets.setIfInBounds set region.reached }
      match Region.removeSubtree node adjustment ⟨c.graph, r⟩ with
      | .ok changed region => .ok changed (put region)
      | .error fault region => .error fault (put region)

end Action

end Blockwise
