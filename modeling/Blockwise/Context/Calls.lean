import Blockwise.Context.Basic

/-!
Calls of blocks: looking up or creating the result for a call node, and expanding the exits of the
block into the caller.
-/
namespace Blockwise

inductive CallResult where
  | hit (set : SetId)
  | miss (set : SetId)
  deriving DecidableEq, Repr

namespace CallResult

def set : CallResult → SetId
  | hit set | miss set => set

def isHit : CallResult → Bool
  | hit _ => true
  | miss _ => false

end CallResult

namespace Action

def cacheNewSet (key : Key) : Action SetId := do
  let set ← newReachedSet key.state key.precision
  let r ← (← get).reachedSet set
  modifyCache fun cache => ((cache.insert key set).markPrecise key).setBlockEntry key r.first
  return set

def resolveCall (callNode : NodeId) : Action CallResult := do
  let key ← (← get).reducedFor callNode
  match (← get).cache.lookup key with
  | some set =>
    count fun s => { s with hits := s.hits + 1 }
    modifyLinks (·.linkEntry callNode set)
    return .hit set
  | none =>
    let (similar, cache) := (← get).cache.lookupSimilar key
    modifyCache fun _ => cache
    match similar with
    | some set =>
      count fun s => { s with similarHits := s.similarHits + 1 }
      modifyLinks (·.linkEntry callNode set)
      return .hit set
    | none =>
      count fun s => { s with misses := s.misses + 1 }
      let set ← cacheNewSet key
      modifyLinks (·.linkEntry callNode set)
      return .miss set

def expandExit (callNode exit : NodeId) : Action NodeId := do
  let c ← get
  let caller ← c.graph.liveNode callNode
  let block ← c.partitioning.block caller.state.location
  let inner ← c.graph.liveNode exit
  let node ← addSuccessor callNode (c.reducer.expand caller.state block inner.state)
  modifyLinks (·.linkExpanded node exit)
  return node

def expandBlockExits (callNode : NodeId) (set : SetId) : Action (List NodeId) := do
  let c ← get
  let exits ← c.blockExits set
  let key ← c.keyOf set
  let call ← c.graph.liveNode callNode
  let expanded := call.children.toList.filterMap c.links.reducedOf
  let nodes ← (exits.filter (· ∉ expanded)).mapM (expandExit callNode)
  modifyCache (·.setReturnEntry key exits)
  return nodes

end Action

end Blockwise
