import Blockwise.Proofs.Outcome
import Blockwise.Repair

/-!
Faults by kind. Whenever a removal fails, from whatever context, something else is wrong than the
path: what it reads of graph, reached sets, cache and links has faults of its own. The rules follow
the shape of the actions; there is nothing to say of the states in between.
-/
namespace Blockwise

open Context

def Fault.SparesPath (fault : Fault) : Prop := ∀ defect, fault ≠ .malformedPath defect

def Halt.SparesPath : Halt → Prop
  | .fault f => f.SparesPath
  | .outOfFuel => True

/-! ### Kinds of errors -/

section

variable {ε σ α β : Type} {p : ε → Prop}

def ErrsOnly (p : ε → Prop) (x : Except ε α) : Prop := ∀ e, x = .error e → p e

namespace ErrsOnly

theorem ok (a : α) : ErrsOnly p (.ok a) := nofun

theorem error {e : ε} (h : p e) : ErrsOnly p (.error e : Except ε α) := by
  rintro _ ⟨⟩
  exact h

theorem bind {x : Except ε α} {f : α → Except ε β} (hx : ErrsOnly p x)
    (hf : ∀ a, x = .ok a → ErrsOnly p (f a)) : ErrsOnly p (x >>= f) := by
  cases x with
  | ok a => exact hf a rfl
  | error e => exact error (hx e rfl)

theorem ite {q : Prop} [Decidable q] {x y : Except ε α} (hx : ErrsOnly p x) (hy : ErrsOnly p y) :
    ErrsOnly p (if q then x else y) := by
  split
  · exact hx
  · exact hy

theorem mapM {f : α → Except ε β} {l : List α} (hf : ∀ a ∈ l, ErrsOnly p (f a)) :
    ErrsOnly p (l.mapM f) := by
  induction l with
  | nil => exact ok []
  | cons a l ih =>
    obtain ⟨ha, hl⟩ := List.forall_mem_cons.1 hf
    rw [List.mapM_cons]
    exact ha.bind fun b _ => (ih hl).bind fun bs _ => ok (b :: bs)

end ErrsOnly

def FailsOnly (p : ε → Prop) (action : EStateM ε σ α) : Prop :=
  ∀ s, Ensures action s (fun _ _ => True) (fun e _ => p e)

namespace FailsOnly

theorem bind {x : EStateM ε σ α} {f : α → EStateM ε σ β} (hx : FailsOnly p x)
    (hf : ∀ a, FailsOnly p (f a)) : FailsOnly p (x >>= f) := by
  intro s
  rw [ensures_bind]
  exact (hx s).imp (fun a t _ => hf a t) (fun _ _ => id)

theorem pure (a : α) : FailsOnly p (pure a : EStateM ε σ α) := fun _ => trivial

theorem throw {e : ε} (h : p e) : FailsOnly p (throw e : EStateM ε σ α) := fun _ => h

theorem get : FailsOnly p (get : EStateM ε σ σ) := fun _ => trivial

theorem set (s : σ) : FailsOnly p (set s : EStateM ε σ PUnit) := fun _ => trivial

theorem modify (f : σ → σ) : FailsOnly p (modify f : EStateM ε σ PUnit) := fun _ => trivial

theorem lift {x : Except ε α} (hx : ErrsOnly p x) : FailsOnly p (liftM x : EStateM ε σ α) := by
  intro s
  rw [ensures_liftExcept]
  exact ⟨fun _ _ => trivial, hx⟩

theorem ite {q : Prop} [Decidable q] {x y : EStateM ε σ α} (hx : FailsOnly p x)
    (hy : FailsOnly p y) : FailsOnly p (if q then x else y) := by
  split
  · exact hx
  · exact hy

theorem ite_bind {q : Prop} [Decidable q] {x y : EStateM ε σ α} {f : α → EStateM ε σ β}
    (hx : FailsOnly p x) (hy : FailsOnly p y) (hf : ∀ a, FailsOnly p (f a)) :
    FailsOnly p (if q then x >>= f else y >>= f) :=
  (hx.bind hf).ite (hy.bind hf)

theorem foldlM {f : β → α → EStateM ε σ β} (hf : ∀ b a, FailsOnly p (f b a)) (l : List α) (b : β) :
    FailsOnly p (l.foldlM f b) := by
  induction l generalizing b with
  | nil => exact pure b
  | cons a l ih =>
    rw [List.foldlM_cons]
    exact (hf b a).bind ih

theorem liftAction {x : EStateM Fault σ α} (hx : FailsOnly Fault.SparesPath x) :
    FailsOnly Halt.SparesPath (liftM x : EStateM Halt σ α) := fun s => ensures_liftAction.2 (hx s)

theorem liftFault {x : Except Fault α} (hx : ErrsOnly Fault.SparesPath x) :
    FailsOnly Halt.SparesPath (liftM x : EStateM Halt σ α) := by
  intro s
  rw [ensures_liftFault]
  exact ⟨fun _ _ => trivial, hx⟩

end FailsOnly

end

/-! ### Readings of graph and context -/

section

variable {σ π : Type}

theorem Graph.node_spares (g : Graph σ π) (id : NodeId) :
    ErrsOnly Fault.SparesPath (g.node id) := by
  unfold node
  cases g.node? id with
  | none => exact .error nofun
  | some found => exact .ok found

theorem Graph.liveNode_spares (g : Graph σ π) (id : NodeId) :
    ErrsOnly Fault.SparesPath (g.liveNode id) := by
  unfold liveNode
  cases g.node? id with
  | none => exact .error nofun
  | some n => exact .ite (.error nofun) (.ok n)

theorem Graph.collectBelow_spares (g : Graph σ π) (budget : Nat) (stack : List NodeId)
    (seen : IdSet) : ErrsOnly Fault.SparesPath (g.collectBelow budget stack seen) := by
  induction budget generalizing stack seen with
  | zero => exact .ok seen
  | succ budget ih =>
    rw [collectBelow]
    cases stack.dropWhile (· ∈ seen) with
    | nil => exact .ok seen
    | cons id rest => exact (g.liveNode_spares id).bind fun n _ => ih _ _

theorem Graph.subgraph_spares (g : Graph σ π) (root : NodeId) :
    ErrsOnly Fault.SparesPath (g.subgraph root) :=
  (g.liveNode_spares root).bind fun _ _ => g.collectBelow_spares _ _ _

theorem Region.collectRemoved_spares (r : Region σ π) (budget : Nat) (roots : List NodeId)
    (removed : IdSet) : ErrsOnly Fault.SparesPath (r.collectRemoved budget roots removed) := by
  induction budget generalizing roots removed with
  | zero => exact .ok removed
  | succ budget ih =>
    rw [collectRemoved]
    cases roots.dropWhile (· ∈ removed) with
    | nil => exact .ok removed
    | cons root rest =>
      refine (r.graph.subgraph_spares root).bind fun below _ => ?_
      cases below.toList.find? (· ∉ r.reached) with
      | none => exact ih _ _
      | some foreign => exact .error nofun

theorem Region.planRemoval_spares (r : Region σ π) (node : NodeId) :
    ErrsOnly Fault.SparesPath (r.planRemoval node) := by
  refine (r.graph.liveNode_spares node).bind fun n _ => ?_
  refine .ite (.error nofun) ?_
  cases removalRoot r.reached node with
  | none => exact .ok none
  | some root => exact (r.collectRemoved_spares _ _ _).bind fun removed _ => .ok _

theorem Region.removeSubtree_spares [DecidableEq π] [Precision π] (node : NodeId)
    (adjustment : Adjustment π) :
    FailsOnly Fault.SparesPath (Region.removeSubtree (σ := σ) node adjustment) := by
  have hfirst (r : Region σ π) : ErrsOnly Fault.SparesPath r.firstPrecision :=
    (r.graph.liveNode_spares r.reached.first).bind fun n _ => .ok n.precision
  refine FailsOnly.get.bind fun r =>
    (FailsOnly.lift (r.planRemoval_spares node)).bind fun plan => ?_
  cases plan with
  | none => exact .pure false
  | some plan =>
    refine FailsOnly.get.bind fun r => (FailsOnly.lift (hfirst r)).bind fun before => ?_
    refine (FailsOnly.modify _).bind fun _ => FailsOnly.get.bind fun r => ?_
    exact (FailsOnly.lift (hfirst r)).bind fun after => .pure _

end

theorem Partitioning.block_spares (p : Partitioning) (l : Location) :
    ErrsOnly Fault.SparesPath (p.block l) := by
  unfold block
  cases p.block? l with
  | none => exact .error nofun
  | some found => exact .ok found

theorem Shutdown.check_spares (s : Shutdown) : ErrsOnly Fault.SparesPath s.check :=
  .ite (.error nofun) (.ok ())

namespace Context

variable (c : Context)

theorem reachedSet_spares (s : SetId) : ErrsOnly Fault.SparesPath (c.reachedSet s) := by
  unfold reachedSet
  cases c.sets[s]? with
  | none => exact .error nofun
  | some found => exact .ok found

theorem ownerReachedSet_spares (n : NodeId) : ErrsOnly Fault.SparesPath (c.ownerReachedSet n) := by
  unfold ownerReachedSet
  cases c.links.setOfEntry n with
  | none => exact .error nofun
  | some found => exact .ok found

theorem reachedSetFor_spares (n : NodeId) : ErrsOnly Fault.SparesPath (c.reachedSetFor n) :=
  (c.reachedSet_spares .topLevel).bind fun _ _ => .ite (.ok _) (c.ownerReachedSet_spares n)

theorem reducedFor_spares (n : NodeId) : ErrsOnly Fault.SparesPath (c.reducedFor n) :=
  (c.graph.node_spares n).bind fun m _ =>
    (c.partitioning.block_spares m.state.location).bind fun _ _ => .ok _

theorem keyOf_spares (s : SetId) : ErrsOnly Fault.SparesPath (c.keyOf s) :=
  (c.reachedSet_spares s).bind fun r _ => (c.graph.liveNode_spares r.first).bind fun _ _ => .ok _

theorem staleExpansions_spares (n : NodeId) : ErrsOnly Fault.SparesPath (c.staleExpansions n) :=
  (c.graph.liveNode_spares n).bind fun _ _ => .ok _

theorem storedKey_spares (outer : NodeId) (s : SetId) (first : NodeId) :
    ErrsOnly Fault.SparesPath (c.storedKey outer s first) := by
  refine .ite (.ok none) ?_
  exact (c.reducedFor_spares outer).bind fun K _ =>
    (c.graph.liveNode_spares first).bind fun _ _ => .ok _

theorem removalAdjustment_spares (key : Option Key) (n : NodeId)
    (increments : List (Increment Tracked)) :
    ErrsOnly Fault.SparesPath (c.removalAdjustment key n increments) := by
  refine .ite (.ok _) ((c.graph.liveNode_spares n).bind fun m _ => ?_)
  cases key with
  | none => exact .ok _
  | some K => exact (c.partitioning.block_spares K.block).bind fun _ _ => .ok _

theorem refinesAt_spares (innermost : NodeId) (targetParents : IdSet) (inner : NodeId) :
    ErrsOnly Fault.SparesPath (c.refinesAt innermost targetParents inner) := by
  refine .ite (.ok true) ?_
  cases c.links.setOfEntry inner with
  | none => exact .ok false
  | some s => exact (c.reachedSet_spares s).bind fun _ _ => .ok _

theorem nodeIn_spares (s : SetId) (n : NodeId) : ErrsOnly Halt.SparesPath (c.nodeIn s n) := by
  have hfollow (hops : Nat) (current : NodeId) :
      ErrsOnly Halt.SparesPath (c.followInto s n hops current) := by
    induction hops generalizing current with
    | zero => exact .error trivial
    | succ hops ih =>
      rw [followInto]
      refine .bind ?_ fun m _ => ?_
      · cases hm : c.graph.node current with
        | ok m => exact .ok m
        | error fault => exact .error (c.graph.node_spares current fault hm)
      · refine .ite (.ok current) ?_
        cases c.links.reducedOf current with
        | none => exact .ok n
        | some exit => exact ih exit
  exact hfollow _ n

theorem pathRoles_spares (opened : List Location) (nodes : List NodeId) :
    ErrsOnly Fault.SparesPath (c.pathRoles opened nodes) := by
  induction nodes generalizing opened with
  | nil => exact .ok []
  | cons n rest ih => exact (c.graph.node_spares _).bind fun m _ => (ih _).bind fun _ _ => .ok _

end Context

/-! ### Removals -/

namespace Action

theorem removeSubtree_spares (s : SetId) (n : NodeId) (adjustment : Adjustment Tracked) :
    FailsOnly Fault.SparesPath (removeSubtree s n adjustment) := by
  intro c
  cases hr : c.reachedSet s with
  | error fault =>
    simp only [Ensures, removeSubtree, hr]
    exact c.reachedSet_spares s fault hr
  | ok r =>
    have hregion := Region.removeSubtree_spares n adjustment (⟨c.graph, r⟩ : Region State Tracked)
    simp only [Ensures, removeSubtree, hr] at hregion ⊢
    cases hremove : Region.removeSubtree n adjustment (⟨c.graph, r⟩ : Region State Tracked) with
    | ok changed region => trivial
    | error fault region =>
      rw [hremove] at hregion
      exact hregion

theorem poll_spares : FailsOnly Fault.SparesPath poll :=
  FailsOnly.get.bind fun c => (FailsOnly.lift c.shutdown.check_spares).bind fun _ => .set _

theorem cacheNewSet_spares (K : Key) : FailsOnly Fault.SparesPath (cacheNewSet K) := by
  refine FailsOnly.bind (FailsOnly.get.bind fun c => (FailsOnly.modify _).bind fun _ => .pure _)
    fun s => ?_
  refine FailsOnly.get.bind fun c => (FailsOnly.lift (c.reachedSet_spares s)).bind fun r => ?_
  exact (FailsOnly.modify _).bind fun _ => .pure s

theorem removeStale_spares (work : StaleWork) (n : NodeId) :
    FailsOnly Fault.SparesPath (removeStale work n) := by
  obtain ⟨pending, report⟩ := work
  refine FailsOnly.get.bind fun c => .ite (.pure _) ?_
  refine FailsOnly.get.bind fun c => (FailsOnly.lift (c.graph.liveNode_spares n)).bind fun m => ?_
  have hremove := fun work : StaleWork =>
    (removeSubtree_spares m.set n .keep).bind fun _ => FailsOnly.pure (σ := Context) work
  refine .ite ?_ (hremove _)
  refine FailsOnly.get.bind fun c => (FailsOnly.lift (c.keyOf_spares m.set)).bind fun K => ?_
  exact (FailsOnly.modify _).bind fun _ => hremove _

theorem removeStaleFor_spares (s : SetId) (work : StaleWork) :
    FailsOnly Fault.SparesPath (removeStaleFor s work) := by
  have hbelow (work : StaleWork) (entry : NodeId) :
      FailsOnly Fault.SparesPath (removeStaleBelow work entry) := by
    refine FailsOnly.get.bind fun c => .ite (.pure _) ?_
    refine FailsOnly.get.bind fun c => ?_
    exact (FailsOnly.lift (c.staleExpansions_spares entry)).bind fun stale =>
      .foldlM removeStale_spares stale work
  exact FailsOnly.get.bind fun c => .foldlM hbelow _ work

theorem rekey_spares (s : SetId) (first : NodeId) (K : Key) (report : Report) :
    FailsOnly Fault.SparesPath (rekey s first K report) := by
  refine FailsOnly.get.bind fun c => (FailsOnly.lift (c.graph.liveNode_spares first)).bind fun n =>
    .ite ?_ ?_
  · exact .ite ((FailsOnly.modify _).bind fun _ => .pure _) (.pure _)
  · cases c.cache.updatePrecision K s n.precision with
    | mk moved cache =>
    cases moved with
    | none => exact .pure _
    | some moved => exact (FailsOnly.modify _).bind fun _ => .pure _

theorem removeFromSet_spares (s : SetId) (first : NodeId) (key : Option Key) (n : NodeId)
    (adjustment : Adjustment Tracked) (report : Report) :
    FailsOnly Fault.SparesPath (removeFromSet s first key n adjustment report) := by
  have hremove := removeSubtree_spares s n adjustment
  cases key with
  | none => exact hremove.bind fun _ => (FailsOnly.modify _).bind fun _ => .pure _
  | some K =>
    refine (FailsOnly.modify _).bind fun _ => (FailsOnly.modify _).bind fun _ => ?_
    refine hremove.bind fun changed => (FailsOnly.modify _).bind fun _ => ?_
    exact .ite (rekey_spares s first K _) (.pure _)

end Action

theorem removeStaleExpansions_spares (fuel : Nat) (work : StaleWork) :
    FailsOnly Halt.SparesPath (removeStaleExpansions fuel work) := by
  obtain ⟨pending, report⟩ := work
  induction fuel generalizing pending report with
  | zero =>
    cases pending with
    | nil => exact .pure report
    | cons s pending => exact .throw trivial
  | succ fuel ih =>
    cases pending with
    | nil => exact .pure report
    | cons s pending =>
      exact (FailsOnly.liftAction (Action.removeStaleFor_spares s ⟨pending, report⟩)).bind
        fun work => ih work.pending work.report

theorem removeCachedSubtree_spares (fuel : Nat) (outer n : NodeId)
    (increments : List (Increment Tracked)) (report : Report) :
    FailsOnly Halt.SparesPath (removeCachedSubtree fuel outer n increments report) := by
  refine FailsOnly.get.bind fun c => ?_
  refine (FailsOnly.liftFault (c.reachedSetFor_spares outer)).bind fun s => ?_
  cases hin : c.nodeIn s n with
  | error halt => exact .throw (c.nodeIn_spares s n halt hin)
  | ok m =>
    refine .ite (.pure _) ?_
    refine (FailsOnly.liftFault (c.reachedSet_spares s)).bind fun r => ?_
    refine (FailsOnly.liftFault (c.storedKey_spares outer s r.first)).bind fun key => ?_
    refine (FailsOnly.liftFault (c.removalAdjustment_spares key m increments)).bind fun a => ?_
    exact (FailsOnly.liftAction (Action.removeFromSet_spares s r.first key m a report)).bind
      fun report => removeStaleExpansions_spares fuel ⟨[s], report⟩

theorem removePair_spares (fuel : Nat) (innermost : NodeId) (targetParents : IdSet)
    (increments : List (Increment Tracked)) (report : Report) (pair : CallPair) :
    FailsOnly Halt.SparesPath (removePair fuel innermost targetParents increments report pair) := by
  refine (FailsOnly.liftAction Action.poll_spares).bind fun _ => FailsOnly.get.bind fun c => ?_
  refine (FailsOnly.liftFault (c.refinesAt_spares innermost targetParents pair.2)).bind fun _ => ?_
  exact removeCachedSubtree_spares fuel pair.1 pair.2 _ report

end Blockwise
