import Blockwise.Proofs.OpenCallMatching
import Blockwise.Proofs.Repair.FaultKinds
import Blockwise.Proofs.Repair.Outcome
import Blockwise.Sample.TwoCalls

/-!
Repairs of malformed paths. A repair reads the path up to its target before it removes anything, and
later the scan for exact hits and the removal of the path's end read it again. Only the first
reading can find a defect: the later ones ask for elements that the path is known to have. So a
repair that blames the path has changed nothing.
-/
namespace Blockwise

open Context

/-! ### Readings of the path after the first -/

variable {c : Context} {path : Path}

theorem Path.reachedNode_spares {e : PathIndex} (he : e < path.size) :
    ErrsOnly Fault.SparesPath (path.reachedNode e) := by
  have hn : path.reachedNode e = .ok path.nodes[e] :=
    Path.reachedNode_eq_ok.2 (List.getElem?_eq_getElem he)
  rw [hn]
  exact .ok _

namespace Context

theorem callState_spares (c : Context) {e : PathIndex} (he : e < path.size) :
    ErrsOnly Fault.SparesPath (c.callState path e) :=
  (Path.reachedNode_spares he).bind fun _ _ => .ok _

theorem length_of_pathRoles {opened : List Location} {nodes : List NodeId} {roles : List PathRole}
    (h : c.pathRoles opened nodes = .ok roles) : roles.length = nodes.length := by
  induction nodes generalizing opened roles with
  | nil =>
    cases h
    rfl
  | cons n rest ih =>
    rw [pathRoles] at h
    obtain ⟨m, -, h⟩ := except_bind_eq_ok.1 h
    obtain ⟨inner, hinner, h⟩ := except_bind_eq_ok.1 h
    cases h
    rw [List.length_cons, List.length_cons, ih hinner]

def FramesOnPath (path : Path) (frames : List CallFrame) : Prop :=
  ∀ frame ∈ frames, frame.call < path.size

theorem leaveFrames_spares (goOn : CallFrame → Bool) (inexact : Bool) {frames : List CallFrame}
    (hf : FramesOnPath path frames) (pairs : List CallPair) :
    ErrsOnly Fault.SparesPath (c.leaveFrames path goOn inexact frames pairs) := by
  induction frames generalizing inexact pairs with
  | nil => exact .ok _
  | cons frame rest ih =>
    cases rest with
    | nil => exact .ok _
    | cons parent outer =>
      obtain ⟨hframe, hrest⟩ := List.forall_mem_cons.1 hf
      rw [leaveFrames]
      refine .ite ?_ (.ite (ih _ hrest pairs) (.ok _))
      refine (c.callState_spares (hrest parent (List.mem_cons_self ..))).bind fun _ _ => ?_
      exact (c.callState_spares hframe).bind fun _ _ => .ite (ih _ hrest _) (.ok _)

theorem FramesOnPath.leaveFrames {goOn : CallFrame → Bool} {inexact : Bool}
    {frames frames' : List CallFrame} {pairs pairs' : List CallPair} (hf : FramesOnPath path frames)
    (hl : c.leaveFrames path goOn inexact frames pairs = .ok (frames', pairs')) :
    FramesOnPath path frames' := by
  intro frame hframe
  obtain ⟨before, hbefore, hcall⟩ := exists_frame_of_leaveFrames hl hframe
  exact hcall ▸ hf before hbefore

end Context

namespace Action

theorem provideExactResult_spares (increments : List (Increment Tracked)) {e : PathIndex}
    (he : e < path.size) (report : Report) :
    FailsOnly Fault.SparesPath (provideExactResult path increments e report) := by
  refine FailsOnly.get.bind fun c => (FailsOnly.lift (c.callState_spares he)).bind fun n => ?_
  refine (FailsOnly.lift (c.reducedFor_spares n)).bind fun K => ?_
  refine (FailsOnly.lift (c.graph.node_spares n)).bind fun m => ?_
  refine (FailsOnly.lift (c.partitioning.block_spares K.block)).bind fun b => ?_
  refine (FailsOnly.lift (c.ownerReachedSet_spares n)).bind fun s => ?_
  refine (FailsOnly.lift (c.reachedSet_spares s)).bind fun used => ?_
  refine (FailsOnly.lift (c.graph.liveNode_spares used.first)).bind fun first => ?_
  refine .ite (.pure _) ?_
  exact (cacheNewSet_spares _).bind fun _ => (FailsOnly.modify _).bind fun _ => .pure _

theorem scanElement_spares (increments : List (Increment Tracked)) {scan : ExactScan}
    (hf : FramesOnPath path scan.frames) (role : PathRole) {e : PathIndex} (he : e < path.size) :
    FailsOnly Fault.SparesPath (scanElement path increments scan (role, e)) := by
  refine poll_spares.bind fun _ => .ite ?_ (.ite ?_ (.pure _))
  · exact (provideExactResult_spares increments he scan.report).bind fun _ => .pure _
  · exact FailsOnly.get.bind fun c =>
      (FailsOnly.lift (leaveFrames_spares _ _ hf scan.pairs)).bind fun _ => .pure _

theorem scanElement_framesOnPath (increments : List (Increment Tracked)) {scan : ExactScan}
    (hf : FramesOnPath path scan.frames) (role : PathRole) {e : PathIndex} (he : e < path.size) :
    Ensures (scanElement path increments scan (role, e)) c
      (fun scan' _ => FramesOnPath path scan'.frames) (fun fault _ => fault.SparesPath) := by
  refine ((scanElement_cases path increments scan role e).and
    (scanElement_spares increments hf role he c)).imp ?_ fun _ _ h => h.2
  rintro scan' d ⟨⟨shutdown, ⟨-, -, -, frame, rfl, -, hframes⟩ | ⟨-, -, -, hscan⟩⟩, -⟩
  · rw [hframes]
    exact List.forall_mem_cons.2 ⟨he, hf⟩
  · rcases hscan with ⟨-, rfl⟩ | ⟨-, hleave⟩
    · exact hf
    · exact hf.leaveFrames hleave

theorem ensureExactHits_spares {target : PathIndex} (ht : target < path.size)
    (increments : List (Increment Tracked)) (pairs : List CallPair) (report : Report) :
    FailsOnly Fault.SparesPath (ensureExactHits path target increments pairs report) := by
  intro c
  simp only [ensureExactHits, ensures_bind, ensures_get]
  rw [ensures_liftExcept]
  refine ⟨fun roles hroles => ?_, c.pathRoles_spares [] path.nodes⟩
  have hscanned : ∀ x ∈ roles.zipIdx.drop target, x.2 < path.size := by
    intro x hx
    have hlt := (List.mem_zipIdx (List.mem_of_mem_drop hx)).2.1
    have hlength := length_of_pathRoles hroles
    unfold Path.size
    omega
  simp only [Path.position, if_pos ht, ensures_bind]
  have hstart : FramesOnPath path [] := List.forall_mem_nil _
  -- every frame that is open is of a scanned element
  refine (Ensures.foldlM (I := fun rest scan _ =>
    FramesOnPath path scan.frames ∧ ∀ x ∈ rest, x.2 < path.size) ?_
      ⟨hstart, hscanned⟩).imp ?_ fun _ _ => id
  · intro x rest scan d h
    obtain ⟨hf, hrest⟩ := h
    obtain ⟨hx, hrest⟩ := List.forall_mem_cons.1 hrest
    exact (scanElement_framesOnPath increments hf x.1 hx).imp (fun _ _ hf' => ⟨hf', hrest⟩)
      fun _ _ => id
  · rintro scan d ⟨hf, -⟩
    simp only [ensures_get]
    rw [ensures_liftExcept]
    exact ⟨fun _ _ => trivial, leaveFrames_spares _ _ hf scan.pairs⟩

end Action

theorem removePathEnd_spares (hp : path.nodes ≠ []) (report : Report) :
    FailsOnly Fault.SparesPath (removePathEnd path report) := by
  have hsize : 0 < path.size := List.length_pos_iff.2 hp
  have hlast : path.last = .ok (path.size - 1) := if_neg (by simpa using hp)
  intro c
  simp only [removePathEnd, ensures_bind]
  rw [ensures_lift_of_ok hlast, ensures_liftExcept]
  refine ⟨fun last _ => ?_, Path.reachedNode_spares (Nat.sub_lt hsize Nat.one_pos)⟩
  refine (FailsOnly.get.bind fun c => .ite (.pure _) ?_ :
    FailsOnly (σ := Context) Fault.SparesPath _) c
  exact (Action.removeSubtree_spares .topLevel last .keep).bind fun _ => .pure _

/-! ### The first reading of the path -/

namespace Context

/-- The target is not on the path, or a block is left before the target that was not entered. -/
def pathDefect? (c : Context) (path : Path) (target : PathIndex) : Option PathDefect :=
  match path.nodes[target]? with
  | none => some (.noReachedNode target)
  | some node =>
    if c.graph.isDestroyed (c.links.mostInner node) then none
    else match c.links.callsBefore path.nodes target with
      | .error defect => some defect
      | .ok _ => none

theorem pathDefect?_eq_some {target : PathIndex} {defect : PathDefect} :
    c.pathDefect? path target = some defect ↔
      path.nodes[target]? = none ∧ .noReachedNode target = defect ∨
        ∃ n, path.nodes[target]? = some n ∧ c.graph.isDestroyed (c.links.mostInner n) = false ∧
          c.links.callsBefore path.nodes target = .error defect := by
  unfold pathDefect?
  cases path.nodes[target]? with
  | none => simp
  | some n =>
    cases hgone : c.graph.isDestroyed (c.links.mostInner n) with
    | true => simp [hgone]
    | false => cases ho : c.links.callsBefore path.nodes target <;> simp [hgone]

theorem pathDefect?_eq_none {target : PathIndex} :
    c.pathDefect? path target = none ↔ ∃ n, path.nodes[target]? = some n ∧
      (c.graph.isDestroyed (c.links.mostInner n) = true ∨
        ∃ opened, c.links.callsBefore path.nodes target = .ok opened) := by
  unfold pathDefect?
  cases path.nodes[target]? with
  | none => simp
  | some n =>
    cases hgone : c.graph.isDestroyed (c.links.mostInner n) with
    | true => simp [hgone]
    | false => cases ho : c.links.callsBefore path.nodes target <;> simp [hgone]

theorem openCallNodes_spares {target : PathIndex} (hp : path.nodes ≠ [])
    {opened : List PathIndex}
    (ho : c.links.callsBefore path.nodes target = .ok opened) :
    ErrsOnly Fault.SparesPath (c.openCallNodes path target) := by
  unfold openCallNodes
  rw [relevantCalls_eq_ok hp ho]
  refine ErrsOnly.mapM (l := 0 :: opened.reverse) fun e he => c.callState_spares ?_
  rcases List.mem_cons.1 he with rfl | he
  · exact List.length_pos_iff.2 hp
  · rcases Links.openCalls_spec ho e (List.mem_reverse.1 he) with hno | ⟨n, hn, -⟩
    · exact absurd hno List.not_mem_nil
    · have hlt : e < (path.nodes.take target).length := by
        simpa using (List.mem_zipIdx hn).2.1
      exact Nat.lt_of_lt_of_le hlt (List.length_take_le' target path.nodes)

theorem openCallNodes_of_defect {target : PathIndex} (hp : path.nodes ≠ []) {defect : PathDefect}
    (ho : c.links.callsBefore path.nodes target = .error defect) :
    c.openCallNodes path target = .error (.malformedPath defect) := by
  have hfirst : path.first = .ok 0 := if_neg (by simpa using hp)
  rw [Links.callsBefore] at ho
  rw [openCallNodes, relevantCalls, hfirst, ho]
  rfl

end Context

theorem removeScheduled_spares (hp : path.nodes ≠ []) (fuel : Nat) (targetNode innermost : NodeId)
    (increments : List (Increment Tracked)) (pairs : List CallPair) (report : Report) :
    FailsOnly Halt.SparesPath
      (removeScheduled fuel path targetNode innermost increments pairs report) := by
  refine FailsOnly.get.bind fun c => ?_
  refine (FailsOnly.liftFault (c.graph.node_spares targetNode)).bind fun m => ?_
  refine (FailsOnly.foldlM (removePair_spares fuel innermost m.parents increments) _ _).bind
    fun report => (FailsOnly.liftAction Action.poll_spares).bind fun _ => ?_
  exact (removeCachedSubtree_spares fuel innermost targetNode increments report).bind
    fun report => FailsOnly.liftAction (removePathEnd_spares hp report)

theorem removeTarget_spares {target : PathIndex} (ht : target < path.size) {opened : List PathIndex}
    (ho : c.links.callsBefore path.nodes target = .ok opened) (fuel : Nat)
    (targetNode : NodeId) (increments : List (Increment Tracked)) :
    Ensures (removeTarget fuel path target targetNode increments) c (fun _ _ => True)
      (fun halt _ => halt.SparesPath) := by
  have hp : path.nodes ≠ [] := List.length_pos_iff.1 (Nat.zero_lt_of_lt ht)
  refine ensures_removeTarget (I := fun _ _ _ => True) (openCallNodes_spares hp ho)
    (fun _ _ => trivial) (fun _ _ => Action.ensureExactHits_spares ht _ _ _ c)
    fun {_ innermost hits d} _ _ _ => ?_
  exact removeScheduled_spares hp fuel targetNode innermost increments hits.1 hits.2 d

theorem repairTarget_rejects {target : PathIndex} {defect : PathDefect}
    (h : c.pathDefect? path target = some defect) (fuel : Nat)
    (increments : List (Increment Tracked)) :
    repairTarget fuel path target increments c = .error (.fault (.malformedPath defect)) c := by
  rw [← ensures_eq_error_iff]
  simp only [repairTarget, ensures_bind, ensures_get]
  rcases pathDefect?_eq_some.1 h with ⟨hn, rfl⟩ | ⟨n, hn, hlive, ho⟩
  · have hread : c.reachedState path target = .error (.malformedPath (.noReachedNode target)) := by
      unfold reachedState Path.reachedNode
      rw [hn]
      rfl
    rw [ensures_liftFault_of_error hread]
    exact ⟨rfl, rfl⟩
  · have ht : target < path.size := (List.getElem?_eq_some_iff.1 hn).1
    have hp : path.nodes ≠ [] := List.length_pos_iff.1 (Nat.zero_lt_of_lt ht)
    rw [ensures_liftFault_of_ok (reachedState_of_node hn), ensures_ite]
    refine ⟨fun hgone => ?_, fun _ => ?_⟩
    · rw [hlive] at hgone
      cases hgone
    · simp only [removeTarget, ensures_bind, ensures_get]
      rw [ensures_liftFault_of_error (openCallNodes_of_defect hp ho)]
      exact ⟨rfl, rfl⟩

theorem repairTarget_spares {target : PathIndex} (h : c.pathDefect? path target = none) (fuel : Nat)
    (increments : List (Increment Tracked)) :
    Ensures (repairTarget fuel path target increments) c (fun _ _ => True)
      (fun halt _ => halt.SparesPath) := by
  obtain ⟨n, hn, hpass⟩ := pathDefect?_eq_none.1 h
  have ht : target < path.size := (List.getElem?_eq_some_iff.1 hn).1
  simp only [repairTarget, ensures_bind, ensures_get]
  rw [ensures_liftFault_of_ok (reachedState_of_node hn), ensures_ite]
  refine ⟨fun _ => trivial, fun hlive => ?_⟩
  rcases hpass with hgone | ⟨opened, ho⟩
  · exact absurd hgone hlive
  · exact removeTarget_spares ht ho fuel _ increments

theorem repairPath_eq_malformed (c : Context) (fuel : Nat) (path : Path) (target : PathIndex)
    (increments : List (Increment Tracked)) (defect : PathDefect) (c' : Context) :
    repairPath fuel path target increments c = .error (.fault (.malformedPath defect)) c' ↔
      c.pathDefect? path target = some defect ∧ c' = c.finishRepair := by
  cases hd : c.pathDefect? path target with
  | none =>
    have hspares : Ensures (repairPath fuel path target increments) c (fun _ _ => True)
        (fun halt _ => halt.SparesPath) :=
      ensures_repairPath.2 (repairTarget_spares hd fuel increments)
    constructor
    · intro hr
      exact absurd rfl ((ensures_of_error hr).1 hspares defect)
    · rintro ⟨⟨⟩, -⟩
  | some found =>
    have hr : repairPath fuel path target increments c =
        .error (.fault (.malformedPath found)) c.finishRepair := by
      rw [repairPath, repairTarget_rejects hd]
    rw [hr]
    constructor
    · rintro ⟨⟩
      exact ⟨rfl, rfl⟩
    · rintro ⟨⟨⟩, rfl⟩
      rfl

/-- In every context a repair blames the path exactly for its defect, and then changes nothing but
the links of destroyed nodes. -/
theorem malformed_path_rejected_before_changes (c : Context) (path : Path) (target : PathIndex)
    (increments : List (Increment Tracked)) (fuel : Nat) (defect : PathDefect) :
    ((∃ c', repairPath fuel path target increments c =
        .error (.fault (.malformedPath defect)) c') ↔ c.pathDefect? path target = some defect) ∧
    ∀ c', repairPath fuel path target increments c = .error (.fault (.malformedPath defect)) c' →
      c' = c.finishRepair ∧ c'.graph = c.graph ∧ c'.sets = c.sets ∧ c'.cache = c.cache ∧
      (∀ e x, c'.links.reducedOf e = some x ↔ c.links.reducedOf e = some x ∧
        c.graph.isDestroyed e = false ∧ c.graph.isDestroyed x = false) ∧
      ∀ e s, c'.links.setOfEntry e = some s ↔
        c.links.setOfEntry e = some s ∧ c.graph.isDestroyed e = false := by
  simp only [repairPath_eq_malformed]
  constructor
  · exact ⟨fun ⟨_, hd, _⟩ => hd, fun hd => ⟨_, hd, rfl⟩⟩
  · rintro c' ⟨-, rfl⟩
    refine ⟨rfl, rfl, rfl, rfl, fun e x => ?_, fun e s => ?_⟩
    · change (c.links.prune _).reducedOf e = some x ↔ _
      rw [Links.reducedOf_prune, Option.filter_eq_some_iff]
      simp only [Bool.and_eq_true, Bool.not_eq_true']
    · change (c.links.prune _).setOfEntry e = some s ↔ _
      rw [Links.setOfEntry_prune, Option.filter_eq_some_iff]
      simp only [Bool.not_eq_true']

namespace EntrylessPath

def context : Context :=
  finalState (run Sample.program 100 (Sample.start { aggressiveCaching := true }))

def entryless : Path := ⟨[0, 6, 8, 12]⟩

theorem entryless_path_rejected :
    (∃ c', repairPath 100 entryless 3 [Tracked.increment (.ofList ["y"])] context =
        .error (.fault (.malformedPath (.unenteredBlock 1))) c' ∧
      c'.graph = context.graph ∧ c'.sets = context.sets ∧ c'.cache = context.cache ∧
      c'.links.reducedOf 6 = some 5 ∧ c'.links.setOfEntry 8 = some 1) ∧
    ∃ c', repairPath 100 entryless 4 [] context =
        .error (.fault (.malformedPath (.noReachedNode 4))) c' ∧
      c'.graph = context.graph ∧ c'.sets = context.sets ∧ c'.cache = context.cache := by
  have hlink : context.links.reducedOf 6 = some 5 ∧ context.links.setOfEntry 8 = some 1 := by
    decide +kernel
  have hlive : context.graph.isDestroyed 5 = false ∧ context.graph.isDestroyed 6 = false ∧
      context.graph.isDestroyed 8 = false := by decide +kernel
  have hleft : context.pathDefect? entryless 3 = some (.unenteredBlock 1) := by decide +kernel
  have hbeyond : context.pathDefect? entryless 4 = some (.noReachedNode 4) := by decide +kernel
  constructor
  · obtain ⟨hrejects, hkept⟩ := malformed_path_rejected_before_changes context entryless 3
      [Tracked.increment (.ofList ["y"])] 100 (.unenteredBlock 1)
    obtain ⟨c', hc'⟩ := hrejects.2 hleft
    obtain ⟨-, hgraph, hsets, hcache, hexits, hcalls⟩ := hkept c' hc'
    refine ⟨c', hc', hgraph, hsets, hcache, ?_, ?_⟩
    · exact (hexits 6 5).2 ⟨hlink.1, hlive.2.1, hlive.1⟩
    · exact (hcalls 8 1).2 ⟨hlink.2, hlive.2.2⟩
  · obtain ⟨hrejects, hkept⟩ := malformed_path_rejected_before_changes context entryless 4 [] 100
      (.noReachedNode 4)
    obtain ⟨c', hc'⟩ := hrejects.2 hbeyond
    obtain ⟨-, hgraph, hsets, hcache, -, -⟩ := hkept c' hc'
    exact ⟨c', hc', hgraph, hsets, hcache⟩

end EntrylessPath

end Blockwise
