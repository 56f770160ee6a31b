import Blockwise.Proofs.Exploration.Regular
import Blockwise.Proofs.Repair.Outcome

/-!
An induction over repairs. In graph and reached sets a repair only removes subtrees and adds the
first nodes of new results, and it forgets links only at its very end. So what these two actions
keep, a repair keeps, wherever it stops, unless it tells of the rest of a context.
-/
namespace Blockwise

open Context

variable {p : Context → Prop} {increments : List (Increment Tracked)}

def OfGraphAndSets (p : Context → Prop) : Prop :=
  ∀ ⦃c : Context⦄ (cache : Cache State Tracked) (links : Links) (statistics : Statistics)
    (shutdown : Shutdown), p c → p { c with cache, links, statistics, shutdown }

def BesidesCache (p : Context → Prop) : Prop :=
  ∀ ⦃c : Context⦄ (cache : Cache State Tracked) (statistics : Statistics) (shutdown : Shutdown),
    p c → p { c with cache, statistics, shutdown }

namespace BesidesCache

variable (h : BesidesCache p)

include h

theorem modifyCache (f : Cache State Tracked → Cache State Tracked) :
    Maintains p (Action.modifyCache f) :=
  .modify fun c hc => h (f c.cache) c.statistics c.shutdown hc

theorem count (f : Statistics → Statistics) : Maintains p (Action.count f) :=
  .modify fun c hc => h c.cache (f c.statistics) c.shutdown hc

theorem poll : Maintains p Action.poll := by
  intro c hc
  refine Action.poll_spec.imp (fun _ d hd => ?_) fun _ d hd => hd.2 ▸ hc
  obtain ⟨shutdown, rfl⟩ := hd
  exact h c.cache c.statistics shutdown hc

end BesidesCache

namespace OfGraphAndSets

variable (h : OfGraphAndSets p)

include h

theorem besidesCache : BesidesCache p :=
  fun c cache statistics shutdown hc => h cache c.links statistics shutdown hc

theorem modifyLinks (f : Links → Links) : Maintains p (Action.modifyLinks f) :=
  .modify fun c hc => h c.cache (f c.links) c.statistics c.shutdown hc

end OfGraphAndSets

/-- The property may tell of the links as well: these stay until the repair ends. -/
structure RemovalsKeep (p : Context → Prop) : Prop where
  rest : BesidesCache p
  remove : ∀ (s : SetId) (n : NodeId) (adjustment : Adjustment Tracked),
    Maintains p (Action.removeSubtree s n adjustment)
  fresh : ∀ K : Key, Maintains p (Action.cacheNewSet K)

namespace RemovalsKeep

variable (h : RemovalsKeep p)

include h

/-! ### Stale expansions -/

theorem removeStale (work : StaleWork) (expanded : NodeId) :
    Maintains p (Action.removeStale work expanded) := by
  obtain ⟨pending, report⟩ := work
  refine Maintains.get.bind fun c => .ite (.pure _) ?_
  refine Maintains.get.bind fun c => (Maintains.lift _).bind fun m => ?_
  have hremove : Maintains p (do
      let _ ← Action.removeSubtree m.set expanded .keep
      return ({
        pending := if m.set ∈ pending then pending else m.set :: pending
        report := { report with
          staleExpansions := report.staleExpansions ++ [(m.set, expanded)] } } : StaleWork)) :=
    (h.remove m.set expanded .keep).bind fun _ => .pure _
  refine .ite ?_ hremove
  refine Maintains.get.bind fun c => (Maintains.lift _).bind fun K => ?_
  exact (h.rest.modifyCache _).bind fun _ => hremove

theorem removeStaleBelow (work : StaleWork) (entry : NodeId) :
    Maintains p (Action.removeStaleBelow work entry) := by
  refine Maintains.get.bind fun c => .ite (.pure _) ?_
  exact Maintains.get.bind fun c => (Maintains.lift _).bind fun stale =>
    .foldlM h.removeStale stale work

theorem removeStaleFor (s : SetId) (work : StaleWork) :
    Maintains p (Action.removeStaleFor s work) :=
  Maintains.get.bind fun _ => .foldlM h.removeStaleBelow _ work

theorem removeStaleExpansions (fuel : Nat) (work : StaleWork) :
    Maintains p (removeStaleExpansions fuel work) := by
  obtain ⟨pending, report⟩ := work
  induction fuel generalizing pending report with
  | zero =>
    cases pending with
    | nil => exact .pure _
    | cons s pending => exact .throw _
  | succ fuel ih =>
    cases pending with
    | nil => exact .pure _
    | cons s pending =>
      exact (h.removeStaleFor s ⟨pending, report⟩).liftAction.bind fun work =>
        ih work.pending work.report

/-! ### A removal with all that was derived from it -/

theorem rekey (s : SetId) (first : NodeId) (K : Key) (report : Report) :
    Maintains p (Action.rekey s first K report) := by
  refine Maintains.get.bind fun c => (Maintains.lift _).bind fun n => .ite ?_ ?_
  · exact .ite ((h.rest.modifyCache _).bind fun _ => .pure _) (.pure _)
  · cases c.cache.updatePrecision K s n.precision with
    | mk moved cache =>
    cases moved with
    | none => exact .pure _
    | some moved => exact (h.rest.modifyCache _).bind fun _ => .pure _

theorem removeFromSet (s : SetId) (first : NodeId) (key : Option Key) (node : NodeId)
    (adjustment : Adjustment Tracked) (report : Report) :
    Maintains p (Action.removeFromSet s first key node adjustment report) := by
  cases key with
  | none =>
    exact (h.remove s node adjustment).bind fun _ => (h.rest.count _).bind fun _ => .pure _
  | some K =>
    refine (h.rest.modifyCache _).bind fun _ => (h.rest.count _).bind fun _ => ?_
    refine (h.remove s node adjustment).bind fun changed => (h.rest.count _).bind fun _ => ?_
    exact .ite (h.rekey s first K _) (.pure _)

theorem removeCachedSubtree (fuel : Nat) (outer node : NodeId) (report : Report) :
    Maintains p (removeCachedSubtree fuel outer node increments report) := by
  refine Maintains.get.bind fun c => (Maintains.liftFault _).bind fun s => ?_
  cases c.nodeIn s node with
  | error halt => exact .throw _
  | ok n =>
    refine .ite (.pure _) ?_
    refine (Maintains.liftFault _).bind fun r => (Maintains.liftFault _).bind fun key => ?_
    refine (Maintains.liftFault _).bind fun adjustment => ?_
    exact (h.removeFromSet s r.first key n adjustment report).liftAction.bind fun report =>
      h.removeStaleExpansions fuel ⟨[s], report⟩

theorem removePair (fuel : Nat) (innermost : NodeId) (targetParents : IdSet) (report : Report)
    (pair : CallPair) :
    Maintains p (removePair fuel innermost targetParents increments report pair) :=
  h.rest.poll.liftAction.bind fun _ => Maintains.get.bind fun _ =>
    (Maintains.liftFault _).bind fun _ => h.removeCachedSubtree fuel pair.1 pair.2 report

theorem removePathEnd (path : Path) (report : Report) :
    Maintains p (removePathEnd path report) := by
  refine (Maintains.lift _).bind fun _ => (Maintains.lift _).bind fun last => ?_
  refine Maintains.get.bind fun c => .ite (.pure _) ?_
  exact (h.remove .topLevel last .keep).bind fun _ => .pure _

/-! ### Exact hits -/

theorem provideExactResult (path : Path) (element : PathIndex) (report : Report) :
    Maintains p (Action.provideExactResult path increments element report) := by
  refine Maintains.get.bind fun c => (Maintains.lift _).bind fun node => ?_
  refine (Maintains.lift _).bind fun K => (Maintains.lift _).bind fun n => ?_
  refine (Maintains.lift _).bind fun b => (Maintains.lift _).bind fun s => ?_
  refine (Maintains.lift _).bind fun used => (Maintains.lift _).bind fun first => ?_
  refine .ite (.pure _) ?_
  exact (h.fresh _).bind fun _ => (h.rest.count _).bind fun _ => .pure _

theorem scanElement (path : Path) (scan : ExactScan) (element : PathRole × PathIndex) :
    Maintains p (Action.scanElement path increments scan element) := by
  refine h.rest.poll.bind fun _ => .ite ?_ (.ite ?_ (.pure _))
  · exact (h.provideExactResult path element.2 scan.report).bind fun _ => .pure _
  · exact Maintains.get.bind fun _ => (Maintains.lift _).bind fun _ => .pure _

theorem ensureExactHits (path : Path) (target : PathIndex) (pairs : List CallPair)
    (report : Report) :
    Maintains p (Action.ensureExactHits path target increments pairs report) := by
  refine Maintains.get.bind fun c => (Maintains.lift _).bind fun roles => ?_
  cases path.position target with
  | none => exact .throw _
  | some start =>
    refine (Maintains.foldlM (h.scanElement path) _ _).bind fun scan => ?_
    exact Maintains.get.bind fun _ => (Maintains.lift _).bind fun _ => .pure _

/-! ### The repair -/

theorem removeScheduled (fuel : Nat) (path : Path) (targetNode innermost : NodeId)
    (pairs : List CallPair) (report : Report) :
    Maintains p (removeScheduled fuel path targetNode innermost increments pairs report) := by
  refine Maintains.get.bind fun _ => (Maintains.liftFault _).bind fun node => ?_
  refine (Maintains.foldlM (h.removePair fuel innermost node.parents) pairs report).bind
    fun report => h.rest.poll.liftAction.bind fun _ => ?_
  exact (h.removeCachedSubtree fuel innermost targetNode report).bind fun report =>
    (h.removePathEnd path report).liftAction

theorem removeTarget (fuel : Nat) (path : Path) (target : PathIndex) (targetNode : NodeId) :
    Maintains p (removeTarget fuel path target targetNode increments) :=
  fun c hc => ensures_removeTarget (I := fun _ _ => p) (fun _ _ => hc) (fun _ _ => hc)
    (fun _ _ => h.ensureExactHits path target _ _ c hc)
    fun {_ innermost hits d} _ _ hd =>
      h.removeScheduled fuel path targetNode innermost hits.1 hits.2 d hd

theorem repairTarget (fuel : Nat) (path : Path) (target : PathIndex)
    (increments : List (Increment Tracked)) :
    Maintains p (repairTarget fuel path target increments) :=
  Maintains.get.bind fun _ => (Maintains.liftFault _).bind fun node =>
    .ite (.pure _) (h.removeTarget fuel path target node)

theorem repairPath (hfinish : ∀ c, p c → p c.finishRepair) (fuel : Nat) (path : Path)
    (target : PathIndex) (increments : List (Increment Tracked)) :
    Maintains p (repairPath fuel path target increments) := by
  intro c hc
  rw [ensures_repairPath]
  exact (h.repairTarget fuel path target increments c hc).imp (fun _ d hd => hfinish d hd)
    fun _ d hd => hfinish d hd

end RemovalsKeep

structure RepairsKeep (p : Context → Prop) : Prop where
  rest : OfGraphAndSets p
  remove : ∀ (s : SetId) (n : NodeId) (adjustment : Adjustment Tracked),
    Maintains p (Action.removeSubtree s n adjustment)
  fresh : ∀ K : Key, Maintains p (Action.cacheNewSet K)

theorem RepairsKeep.repairPath (h : RepairsKeep p) (fuel : Nat) (path : Path) (target : PathIndex)
    (increments : List (Increment Tracked)) :
    Maintains p (repairPath fuel path target increments) :=
  have hremovals : RemovalsKeep p := ⟨h.rest.besidesCache, h.remove, h.fresh⟩
  hremovals.repairPath (fun c hc => h.rest c.cache _ _ c.shutdown hc) fuel path target increments

end Blockwise
