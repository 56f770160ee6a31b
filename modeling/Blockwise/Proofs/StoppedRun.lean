import Blockwise.Proofs.Exploration.Stopped
import Blockwise.Proofs.Fixpoint

/-!
What a run that is stopped leaves for the next one. A node is taken from its waitlist before its
block is explored, so the calls that are suspended when the run stops wait no more, and no later run
comes back to them; their callers see none of their exits. Nothing else is lost.
-/
namespace Blockwise

open Context

variable {program : Program} {c c' c₀ : Context} {n : NodeId} {calls : List NodeId}

namespace Context

/-- Each member that is to be explored waits in its reached set, or nothing is left to explore at
it. The nodes in `calls` are exempt. -/
def ResumableBut (program : Program) (c : Context) (calls : List NodeId) : Prop :=
  ∀ (s : SetId) (r : ReachedSet) (n : NodeId) (m : Node State Tracked),
    c.sets[s]? = some r → n ∈ r → c.graph.Live n m → m.coveredBy = none →
    m.state.target = false → (s ≠ .topLevel → ¬ c.IsExit s n) → n ∉ calls →
      n ∈ r.waitlist ∨ c.Processed program r n m

/-- Where further runs lead to from `c`, wherever they stop. -/
inductive Resumed (program : Program) (c : Context) : Context → Prop
  | refl : c.Resumed program c
  | run {d : Context} (hd : c.Resumed program d) (shutdown : Shutdown) (fuel : Nat) :
      c.Resumed program (finalState (Blockwise.run program fuel { d with shutdown }))

theorem Resumed.grows (h : c.Sound) (hc : c.Resumed program c') : Grows program c c' := by
  induction hc with
  | refl => exact .refl
  | @run d _ shutdown fuel ih =>
    have g : Grows program d { d with shutdown } := Grows.refl.quiet d.statistics shutdown
    exact (ih.trans h g).trans h (run_grows fuel (g.sound (ih.sound h)))

end Context

theorem Stopped.resumableBut (h : c.Sound) (hopen : ∀ k, c₀.Open k) {s : SetId}
    (st : Stopped program s c₀ c calls) : c.ResumableBut program calls := by
  intro t r n m hr hn hm hcover htarget hexit hnot
  rcases st.settled n (hopen n) hnot m hm hcover with hw | hdone
  · obtain ⟨t', r', hr', hw⟩ := hw
    obtain rfl := h.set_unique hr hr' hn ((h.waitlist hr').2 n hw)
    cases Option.some.inj (hr.symm.trans hr')
    exact Or.inl hw
  · exact Or.inr (processed_of_done h hr hn hm htarget hexit hdone)

/-- A stopped run has broken no invariant, and it leaves each node to be taken up again, except the
nested calls that it was busy with. -/
theorem stopped_run_suspends_calls {partitioning : Partitioning} {reducer : Reducer} {state : State}
    {precision : Tracked} {options : Options} (shutdown : Shutdown) {fuel : Nat} {halt : Halt}
    (hrun : run program fuel
      { Context.start partitioning reducer state precision options with shutdown } =
        .error halt c) :
    halt.Benign ∧ ∃ calls, c.ResumableBut program calls ∧
      ∀ c', c.Resumed program c' → c'.Suspended .topLevel calls := by
  have hs := sound_fresh partitioning reducer state precision options shutdown
  obtain ⟨hbenign, calls, st⟩ := (ensures_of_error hrun).1 (run_halts fuel hs
    (bare_fresh partitioning reducer state precision options shutdown)
    (idleBut_fresh partitioning reducer state precision options shutdown))
  have h := st.grows.sound hs
  refine ⟨hbenign, calls, st.resumableBut h ?_, fun c' hc' => st.suspended.grows h (hc'.grows h)⟩
  exact open_fresh partitioning reducer state precision options shutdown

/-! ### A call beyond the depth limit -/

namespace DepthLimited

def start : Context := Sample.start { maxDepth := 0 }

def stopped : Context := finalState (run Sample.program 100 start)

theorem run_stops : run Sample.program 100 start = .error (.fault (.depthLimit 0)) stopped :=
  error_of_error? (by decide +kernel)

theorem first_call_suspended :
    run Sample.program 100 start = .error (.fault (.depthLimit 0)) stopped ∧
      (Halt.fault (.depthLimit 0)).Benign ∧ ∃ calls, stopped.ResumableBut Sample.program calls ∧
        ∀ c', stopped.Resumed Sample.program c' → c'.Suspended .topLevel calls :=
  ⟨run_stops, stopped_run_suspends_calls .never run_stops⟩

/-- The next run succeeds although nothing was explored behind the call. -/
theorem first_call_lost :
    run Sample.program 100 start = .error (.fault (.depthLimit 0)) stopped ∧
      ¬ stopped.ResumableBut Sample.program [] ∧
      value? (run Sample.program 100 stopped) = some [] := by
  refine ⟨run_stops, fun hall => ?_, by decide +kernel⟩
  obtain ⟨r, hr⟩ : ∃ r, stopped.sets[SetId.topLevel]? = some r :=
    Option.isSome_iff_exists.1 (by decide +kernel)
  obtain ⟨m, hm⟩ : ∃ m, stopped.graph.node? 2 = some m :=
    Option.isSome_iff_exists.1 (by decide +kernel)
  have hset : (stopped.sets[SetId.topLevel]?).all (fun r =>
      decide (2 ∈ r ∧ 2 ∉ r.waitlist ∧ 2 ≠ r.first)) = true := by decide +kernel
  have hnode : (stopped.graph.node? 2).all (fun m => decide (m.destroyed = false ∧
      m.coveredBy = none ∧ m.state.target = false ∧
      stopped.partitioning.isCallNode m.state.location = true)) = true := by decide +kernel
  rw [hr, Option.all_some, decide_eq_true_iff] at hset
  rw [hm, Option.all_some, decide_eq_true_iff] at hnode
  obtain ⟨hmem, hwaits, hfirst⟩ := hset
  obtain ⟨hlive, hcover, htarget, hcall⟩ := hnode
  rcases hall .topLevel r 2 m hr hmem ⟨hm, hlive⟩ hcover htarget (absurd rfl) List.not_mem_nil with
    hw | hp
  · exact hwaits hw
  · rw [Processed, if_pos ⟨hfirst, hcall⟩] at hp
    obtain ⟨⟨t, hl, -⟩, -⟩ := hp
    have hnone : stopped.links.setOfEntry 2 = none := by decide +kernel
    rw [hnone] at hl
    cases hl

end DepthLimited

end Blockwise
