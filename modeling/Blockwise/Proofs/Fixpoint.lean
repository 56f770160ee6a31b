import Blockwise.Proofs.Exploration.Explore
import Blockwise.Sample.TwoCalls

/-!
A run of a fresh context that ends leaves a fixpoint: no node waits, and the children of each node
that is to be explored are exactly its successors, or exactly the views of the exits of the block
that it calls.
-/
namespace Blockwise

open Relation (TransGen)
open Context

variable {program : Program} {c : Context} {s t : SetId} {r : ReachedSet} {n : NodeId}
  {m : Node State Tracked}

namespace Context

def SetCalls (c : Context) (s t : SetId) : Prop :=
  ∃ n m, c.graph.Live n m ∧ m.set = s ∧ c.links.setOfEntry n = some t

theorem acyclic_of_calls_lt
    (h : ∀ e ∈ c.links.calls.entries, ∀ m ∈ c.graph.node? e.1, m.set < e.2) (s : SetId) :
    ¬ TransGen c.SetCalls s s := by
  have later : ∀ {a b}, TransGen c.SetCalls a b → a < b := by
    intro a b hab
    have call : ∀ {a b}, c.SetCalls a b → a < b := by
      rintro a b ⟨n, m, hm, rfl, hl⟩
      exact h (n, b) (Table.mem_entries_iff.2 hl) m hm.1
    induction hab with
    | single hab => exact call hab
    | tail _ hbc ih => exact Nat.lt_trans ih (call hbc)
  exact fun hs => Nat.lt_irrefl s (later hs)

/-- Unless reached sets call each other in a cycle, the children are the views of the exits of the
result. -/
def CallExpanded (c : Context) (n : NodeId) (m : Node State Tracked) : Prop :=
  ∃ t, c.links.setOfEntry n = some t ∧ ((∀ s, ¬ TransGen c.SetCalls s s) →
    ∃ b exits, c.partitioning.block? m.state.location = some b ∧ c.blockExits t = .ok exits ∧
      c.views n = exits.map (c.viewOf m.state b))

/-- The children of `n` are its successors; a call node is expanded instead. -/
def Processed (program : Program) (c : Context) (r : ReachedSet) (n : NodeId)
    (m : Node State Tracked) : Prop :=
  if n ≠ r.first ∧ c.partitioning.isCallNode m.state.location = true then
    c.CallExpanded n m ∧ ((∀ s, ¬ TransGen c.SetCalls s s) →
      ∀ t, c.links.setOfEntry n = some t → c.Idle t)
  else c.views n = (program.successors m.state m.precision).map fun next => (some next, none)

structure Fixpoint (program : Program) (c : Context) : Prop where
  idle : ∀ (s : SetId) (r : ReachedSet), c.sets[s]? = some r → r.hasWaiting = false
  node : ∀ (s : SetId) (r : ReachedSet) (n : NodeId) (m : Node State Tracked),
    c.sets[s]? = some r → n ∈ r → c.graph.Live n m → m.coveredBy = none →
    m.state.target = false → (s ≠ .topLevel → ¬ c.IsExit s n) →
      if n ≠ r.first ∧ c.partitioning.isCallNode m.state.location = true then c.CallExpanded n m
      else c.views n =
        (program.successors m.state m.precision).map fun next => (some next, none)

theorem blockExits_eq (h : c.Sound) (hl : c.links.setOfEntry n = some t) {exits : List NodeId}
    (hsorted : exits.Pairwise (· < ·)) (hexit : ∀ x, x ∈ exits ↔ c.IsExit t x) :
    c.blockExits t = .ok exits := by
  obtain ⟨now, hnow⟩ := exists_blockExits h.toStructured (h.call hl).hasBlock
  have hsame : now = exits := eq_of_ascending (fun _ => Nat.lt_irrefl _) Nat.lt_trans
    (sorted_blockExits hnow) hsorted fun x => (mem_blockExits_iff h.toStructured hnow x).trans
      (hexit x).symm
  rw [hnow, hsame]

theorem task_of_explored (h : c.Structured) (hr : c.sets[s]? = some r) (hn : n ∈ r)
    (hm : c.graph.Live n m) (htarget : m.state.target = false)
    (hexit : s ≠ .topLevel → ¬ c.IsExit s n) {todo : NodeTask} (ht : c.task s n = .ok todo) :
    todo = if n ≠ r.first ∧ c.partitioning.isCallNode m.state.location = true then .call
      else .successors m.state m.precision := by
  obtain ⟨f, hf, -⟩ := h.live_first hr
  rw [task_eq hm hr hf, if_neg (by simp [htarget])] at ht
  by_cases hfirst : n = r.first
  · rw [if_pos hfirst] at ht
    cases ht
    simp [hfirst]
  · rw [if_neg hfirst] at ht
    have hcall : (if c.partitioning.isCallNode m.state.location = true then Except.ok .call
        else .ok (.successors m.state m.precision)) = (.ok todo : Except Fault NodeTask) := by
      split at ht
      · rename_i hs
        obtain ⟨b, hb, ht⟩ := except_bind_eq_ok.1 ht
        split at ht
        · rename_i hreturn
          refine absurd ⟨r, f, b, m, hr, hf, Partitioning.block_eq_ok_iff.1 hb, hn, hfirst, hm, ?_⟩
            (hexit hs)
          rw [hreturn, Bool.true_or]
        · exact ht
      · exact ht
    by_cases hnode : c.partitioning.isCallNode m.state.location = true
    · rw [if_pos hnode] at hcall
      cases hcall
      simp [hfirst, hnode]
    · rw [if_neg hnode] at hcall
      cases hcall
      simp [hnode]

theorem processed_of_done (h : c.Sound) (hr : c.sets[s]? = some r) (hn : n ∈ r)
    (hm : c.graph.Live n m) (htarget : m.state.target = false)
    (hexit : s ≠ .topLevel → ¬ c.IsExit s n) {active : List SetId} (hd : c.Done program active n) :
    c.Processed program r n m := by
  obtain ⟨m', hm', rfl⟩ := h.live_of_mem hr hn
  cases hm.unique hm'
  have task : ∀ {p : Node State Tracked} {todo}, c.graph.Live n p → c.task p.set n = .ok todo →
      p = m ∧ todo = _ := fun hp ht => by
    cases hm.unique hp
    exact ⟨rfl, task_of_explored h.toStructured hr hn hm htarget hexit ht⟩
  unfold Processed
  cases hd with
  | stop hp ht =>
    obtain ⟨-, htodo⟩ := task hp ht
    split at htodo <;> cases htodo
  | successors hp ht hv =>
    obtain ⟨-, htodo⟩ := task hp ht
    split at htodo
    · cases htodo
    · rename_i hcall
      cases htodo
      rw [if_neg hcall]
      exact hv
  | @call p t b exits hp ht hl hb hsorted hexits hv hall =>
    obtain ⟨rfl, htodo⟩ := task hp ht
    split at htodo
    · rename_i hcall
      rw [if_pos hcall]
      have hdone : (∀ s, ¬ TransGen c.SetCalls s s) →
          c.Idle t ∧ ∀ x, c.IsExit t x → x ∈ exits := by
        intro hacyclic
        rcases hall with ⟨-, hidle, hx⟩ | ⟨q, hq⟩
        · exact ⟨hidle, hx⟩
        · refine absurd (TransGen.mono (fun a b hab => ?_) _ _ hq) (hacyclic q)
          obtain ⟨k, mk, hmk, hset, hk, -⟩ := hab
          exact ⟨k, mk, hmk, hset, hk⟩
      refine ⟨⟨t, hl, fun hacyclic => ⟨b, exits, hb, ?_, hv⟩⟩, fun hacyclic t' hl' => ?_⟩
      · exact blockExits_eq h hl hsorted fun x => ⟨hexits x, (hdone hacyclic).2 x⟩
      · cases hl.symm.trans hl'
        exact (hdone hacyclic).1
    · cases htodo

theorem fixpoint_of_settled (h : c.Sound) (hidle : c.IdleBut [])
    (hsettled : ∀ k, c.Settled program [.topLevel] k) : c.Fixpoint program where
  idle := by
    intro s r hr
    rw [ReachedSet.hasWaiting, hidle s List.not_mem_nil r hr]
    rfl
  node := by
    intro s r n m hr hn hm hcover htarget hexit
    have hnot : ¬ c.Waits n := by
      rintro ⟨t, q, hq, hw⟩
      rw [hidle t List.not_mem_nil q hq] at hw
      cases hw
    have hp := processed_of_done h hr hn hm htarget hexit
      ((hsettled n m hm hcover).resolve_left hnot)
    unfold Processed at hp
    split at hp
    · rename_i hcall
      rw [if_pos hcall]
      exact hp.1
    · rename_i hcall
      rw [if_neg hcall]
      exact hp

/-! ### The fresh context, in which only the first node waits -/

section Fresh

variable (partitioning : Partitioning) (reducer : Reducer) (state : State) (precision : Tracked)
  (options : Options) (shutdown : Shutdown)

theorem sound_fresh :
    Sound { Context.start partitioning reducer state precision options with shutdown } :=
  Grows.sound_quiet (sound_start partitioning reducer state precision options) {} shutdown

theorem open_fresh (k : NodeId) :
    Open { Context.start partitioning reducer state precision options with shutdown } k := by
  rcases Nat.eq_zero_or_pos k with rfl | hk
  · exact Or.inl ⟨SetId.topLevel, _, rfl, List.mem_singleton.2 rfl⟩
  · exact Or.inr hk

theorem bare_fresh :
    Bare { Context.start partitioning reducer state precision options with shutdown } := by
  intro k hk
  have hlt := (sound_fresh partitioning reducer state precision options shutdown).lt_of_waits hk
  obtain rfl : k = 0 := Nat.lt_one_iff.1 hlt
  rfl

theorem idleBut_fresh :
    IdleBut { Context.start partitioning reducer state precision options with shutdown }
      [.topLevel] := by
  intro t ht r hr
  have hlt := lt_size_of_sets hr
  exact absurd (List.mem_singleton.2 (Nat.lt_one_iff.1 hlt)) ht

end Fresh

end Context

/-- A run of a fresh context that succeeds is a fixpoint. -/
theorem run_fixpoint {partitioning : Partitioning} {reducer : Reducer} {state : State}
    {precision : Tracked} {options : Options} (shutdown : Shutdown) {fuel : Nat}
    {targets : List NodeId} (hrun : run program fuel
      { Context.start partitioning reducer state precision options with shutdown } =
        .ok targets c) : c.Fixpoint program := by
  have hstart := sound_fresh partitioning reducer state precision options shutdown
  obtain ⟨g, -, hsettled⟩ := (run_spec fuel hstart).of_ok hrun
  obtain ⟨hidle, hsettled⟩ := hsettled
    (bare_fresh partitioning reducer state precision options shutdown)
    (idleBut_fresh partitioning reducer state precision options shutdown)
  exact fixpoint_of_settled (g.sound hstart) hidle fun k => hsettled k
    (open_fresh partitioning reducer state precision options shutdown k)

theorem two_calls_fixpoint :
    (value? (run Sample.program 100 (Sample.start {}))).isSome = true ∧
      (finalState (run Sample.program 100 (Sample.start {}))).Fixpoint Sample.program := by
  have hsome : (value? (run Sample.program 100 (Sample.start {}))).isSome = true := by
    decide +kernel
  obtain ⟨targets, hrun⟩ := ok_of_value? hsome
  exact ⟨hsome, run_fixpoint .never hrun⟩

end Blockwise
