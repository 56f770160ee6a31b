import Blockwise.Proofs.Repair.ExactNesting
import Blockwise.Proofs.RepairEffect
import Blockwise.Sample.TwoCalls

/-!
Repairs right after a run. The path to a target that the run found can be repaired from any of its
elements, and only an interruption stops the repair.
-/
namespace Blockwise

open Context

variable {program : Program} {c : Context} {t : NodeId} {path : Path}

namespace Context

theorem FreshlyRun.repairPath_benign (h : c.FreshlyRun program) {m : Node State Tracked}
    (hm : c.graph.Live t m) (htop : m.set = .topLevel) (hpath : c.PathTo t path.nodes)
    (fuel : Nat) {target : PathIndex} (hpos : 0 < target) (hlt : target < path.size)
    (increments : List (Increment Tracked))
    (hscan : c.cache.aggressive = true → c.Scannable path target) :
    Ensures (repairPath fuel path target increments) c (fun _ _ => True)
      (fun halt _ => halt.Benign) := by
  have hs := h.toSound
  have hleads := hpath.leadsTo h.toStructured
  obtain ⟨n, hn⟩ : ∃ n, path.nodes[target]? = some n := ⟨_, List.getElem?_eq_getElem hlt⟩
  have hinside : n ∈ path.nodes.tail := mem_tail_of_getElem? hpos hn
  obtain ⟨mn, hmn⟩ := hleads.live n (List.mem_of_mem_tail hinside)
  obtain ⟨-, hhead, -⟩ := h.mostInner_spec hmn (hleads.tail n hinside)
  -- the calls in front of the target end in the set that the target is in
  obtain ⟨init, hinit, hthread⟩ := hpath.threads hs h.bracketed
  obtain ⟨out, hthread, hclose⟩ := hthread m hm []
  rw [htop] at hthread
  obtain ⟨mid, left, hbefore, hat⟩ := hthread.closesAt hclose (hinit ▸ hn)
  rw [← hinit] at hbefore
  obtain ⟨k, rest, hk, rfl⟩ := hat.mostInner hs
  obtain ⟨r, hr, -⟩ := h.set_of_live hm
  rw [htop] at hr
  obtain ⟨calls, innermost, hcalls, hchain, hinner, hruns⟩ := hbefore.openCallNodes hs hr
    (hpath.first_eq hs h.bracketed hm htop hr)
  have hlast : path.EndsAt t := (Path.endsAt_iff hleads.last).2 rfl
  have hend : c.StandsFor .topLevel t t := by
    refine ⟨Or.inl rfl, ⟨m, hm.1, htop⟩, hleads.tail t ?_⟩
    have hsize : 0 < path.nodes.length - 1 := Nat.sub_pos_of_lt (Nat.lt_of_le_of_lt hpos hlt)
    refine mem_tail_of_getElem? hsize ?_
    rw [← List.getLast?_eq_getElem?, hleads.last]
  have hbenign := removeTarget_benign hs fuel hcalls hchain hinner hruns
    ⟨Or.inl rfl, ⟨k, hk.1, rfl⟩, hhead⟩ hlast hend
    fun hagg => h.scansNested hm htop hpath hpos hlt (hscan hagg) increments
  rw [ensures_repairPath]
  simp only [repairTarget, ensures_bind, ensures_get, ensures_ite, ensures_pure]
  rw [ensures_liftFault, reachedState_of_node hn]
  refine ⟨?_, by simp⟩
  rintro _ ⟨⟩
  exact ⟨fun _ => trivial, fun _ => hbenign⟩

end Context

/-- Right after a run, only an interruption stops the repair of the path to a target, if with an
aggressive cache the scan for exact hits reads the path right. -/
theorem repair_reports_no_inconsistency {partitioning : Partitioning} {reducer : Reducer}
    {state : State} {precision : Tracked} {options : Options} (shutdown : Shutdown) {fuel : Nat}
    {targets : List NodeId}
    (hrun : run program fuel
      { Context.start partitioning reducer state precision options with shutdown } =
        .ok targets c)
    (ht : t ∈ targets) :
    ∃ path, Path.toTarget c t = .ok path ∧ ∀ target, 0 < target → target < path.size →
      (options.aggressiveCaching = true → c.Scannable path target) →
        ∀ increments shutdown fuel fault c',
          repairPath fuel path target increments { c with shutdown } = .error (.fault fault) c' →
            fault.isInconsistency = false := by
  obtain ⟨h, htargets, hextends⟩ := freshlyRun_of_run hrun
  obtain ⟨m, hm, htop, -⟩ := (mem_targets_iff h.toStructured htargets).1 ht
  obtain ⟨path, hpath, -⟩ := Path.toTarget_eq h.toSound h.tidy hm
  refine ⟨path, hpath, fun target hpos hlt hscan increments shutdown' fuel' fault c' hr => ?_⟩
  have h' := h.withShutdown shutdown'
  have hm' : Graph.Live { c with shutdown := shutdown' }.graph t m := hm
  obtain ⟨path', hpath', hto⟩ := Path.toTarget_eq h'.toSound h'.tidy hm'
  rw [Path.toTarget_withShutdown, hpath] at hpath'
  cases hpath'
  have hbenign := h'.repairPath_benign hm' htop hto fuel' hpos hlt increments
    fun hyes => { hscan (hextends.aggressive.symm.trans hyes) with }
  exact (ensures_of_error hr).1 hbenign fault rfl

theorem two_calls_repair_reports_no_inconsistency : ∃ c path,
    run Sample.program 100 (Sample.start { aggressiveCaching := true }) = .ok [12] c ∧
      Path.toTarget c 12 = .ok path ∧ 2 < path.size ∧ c.Scannable path 2 ∧
      ∀ increments shutdown fuel fault c',
        repairPath fuel path 2 increments { c with shutdown } = .error (.fault fault) c' →
          fault.isInconsistency = false := by
  have hvalue : value? (run Sample.program 100 (Sample.start { aggressiveCaching := true })) =
      some [12] := by decide +kernel
  obtain ⟨targets, hrun⟩ := ok_of_value? (by rw [hvalue]; rfl)
  rw [hrun] at hvalue
  cases hvalue
  obtain ⟨path, hpath, hrepair⟩ := repair_reports_no_inconsistency .never hrun
    (List.mem_singleton.2 rfl)
  have hconcrete : Path.toTarget
      (finalState (run Sample.program 100 (Sample.start { aggressiveCaching := true }))) 12 =
        .ok ⟨[0, 1, 2, 4, 6, 7, 8, 4, 9, 10, 11, 12]⟩ := by decide +kernel
  cases hpath.symm.trans hconcrete
  have hscan : Context.Scannable
      (finalState (run Sample.program 100 (Sample.start { aggressiveCaching := true })))
      ⟨[0, 1, 2, 4, 6, 7, 8, 4, 9, 10, 11, 12]⟩ 2 := by decide +kernel
  exact ⟨_, _, hrun, hpath, by decide, hscan, hrepair 2 (by decide) (by decide) fun _ => hscan⟩

/-! ### Paths that the scan reads wrong -/

/-- Right after a run, the repair of the path to `t` at `target` reports a broken invariant. -/
def ReportsInconsistency (program : Program) (start : Context) (t : NodeId) (target : PathIndex)
    (increments : List (Increment Tracked)) : Prop :=
  ∃ targets c path fault c', run program 100 start = .ok targets c ∧ t ∈ targets ∧
    Path.toTarget c t = .ok path ∧ 0 < target ∧ target < path.size ∧
      repairPath 100 path target increments c = .error (.fault fault) c' ∧
        fault.isInconsistency = true

namespace ReportsInconsistency

def check (program : Program) (start : Context) (t : NodeId) (target : PathIndex)
    (increments : List (Increment Tracked)) : Bool :=
  match run program 100 start with
  | .error .. => false
  | .ok targets c => match Path.toTarget c t with
    | .error _ => false
    | .ok path =>
      if t ∈ targets ∧ 0 < target ∧ target < path.size then
        match repairPath 100 path target increments c with
        | .error (.fault fault) _ => fault.isInconsistency
        | _ => false
      else false

theorem of_check {start : Context} {target : PathIndex} {increments : List (Increment Tracked)}
    (h : check program start t target increments = true) :
    ReportsInconsistency program start t target increments := by
  unfold check at h
  split at h
  · cases h
  · rename_i targets c hrun
    split at h
    · cases h
    · rename_i path hpath
      split at h
      · rename_i hin
        split at h
        · rename_i fault c' hrepair
          exact ⟨targets, c, path, fault, c', hrun, hin.1, hpath, hin.2.1, hin.2.2, hrepair, h⟩
        · cases h
      · cases h

/-- The target stands at a call node, where the explorer opens no block. -/
theorem at_call_node : ReportsInconsistency [⟨0, .error, 1⟩]
    (.start (.ofList [.of 1 [] [2]]) (.ofList []) { location := 0 } ∅ { aggressiveCaching := true })
    1 1 [] :=
  of_check (by decide +kernel)

theorem at_shared_return : ReportsInconsistency
    [⟨0, .skip, 1⟩, ⟨1, .skip, 2⟩, ⟨2, .skip, 3⟩, ⟨3, .skip, 4⟩, ⟨4, .skip, 5⟩, ⟨5, .skip, 6⟩,
      ⟨6, .skip, 7⟩, ⟨7, .error, 7⟩]
    (.start (.ofList [.of 2 [] [4, 5], .of 3 [] [4], .of 5 [] [7]]) (.ofList [(5, ["x", "y"])])
      { location := 0 } ∅ { aggressiveCaching := true, order := .lifo })
    14 2 [Tracked.increment (.ofList ["x", "y"])] :=
  of_check (by decide +kernel)

theorem at_direct_recursion : ReportsInconsistency
    [⟨0, .assign "x" 0, 1⟩, ⟨1, .skip, 2⟩, ⟨2, .assign "x" 1, 3⟩, ⟨1, .assign "x" 1, 1⟩,
      ⟨1, .skip, 2⟩, ⟨3, .error, 3⟩]
    (.start (.ofList [.of 1 [] [0], .of 2 [] [3, 1]])
      (.ofList [(1, ["x"]), (2, ["x", "y"])]) { location := 0 } (.ofList ["x", "y"])
      { aggressiveCaching := true, order := .lifo, maxDepth := 6 })
    19 1 [Tracked.increment (.ofList ["x", "y"])] :=
  of_check (by decide +kernel)

end ReportsInconsistency

end Blockwise
