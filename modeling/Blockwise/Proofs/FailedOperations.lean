import Blockwise.Proofs.Context.Placed
import Blockwise.Proofs.Exploration.Expansions
import Blockwise.Proofs.Operations

/-!
Operations that fail. Each operation finds out whether it can succeed before it changes anything, so
a failure leaves the context as it was. The one exception is a node to be covered: it is added below
its parent before the covering node is asked for, and if that one is not there, the new node stays
behind in the graph without belonging to any reached set.
-/
namespace Blockwise

open Context

variable {c : Context} {parent cover n : NodeId} {p : Node State Tracked} {state : State}

/-! ### A node that is to be covered -/

namespace Context

/-- A node below `parent` can be added, but `cover` cannot cover it. -/
def Strands (c : Context) (parent cover : NodeId) : Prop :=
  (∃ p, c.graph.Live parent p) ∧ cover ≠ c.graph.size ∧ ∀ m, ¬ c.graph.Live cover m

/-- One more node is in the graph, below `parent`, and it is in no reached set. -/
def Strays (c : Context) (parent : NodeId) (state : State) (c' : Context) : Prop :=
  (∃ p, c.graph.Live parent p ∧
    c' = { c with graph := c.graph.sprout parent state p.precision p.set none }) ∧
  (∃ m, c'.graph.Live c.graph.size m) ∧
  ∀ (s : SetId) (r : ReachedSet), c'.sets[s]? = some r → c.graph.size ∉ r

structure Expandable (c : Context) (n : NodeId) (exits : List NodeId) : Prop extends Placed c where
  call : ∃ p b, c.graph.Live n p ∧ c.partitioning.block? p.state.location = some b
  live : ∀ x ∈ exits, ∃ m, c.graph.Live x m

theorem Placed.strays (h : c.Placed) (hp : c.graph.Live parent p) (state : State) :
    c.Strays parent state
      { c with graph := c.graph.sprout parent state p.precision p.set none } := by
  refine ⟨⟨p, hp, rfl⟩, ⟨_, Graph.live_size_sprout hp.lt_size (by simp)⟩, fun s r hr hn => ?_⟩
  exact Nat.lt_irrefl _ (h.mem_lt hr hn)

end Context

namespace Action

theorem addCoveredSuccessor_unchanged (h : c.Placed) (hs : ¬ c.Strands parent cover) :
    Ensures (addCoveredSuccessor parent state cover) c (fun _ _ => True) (fun _ c' => c' = c) := by
  refine (addCoveredSuccessor_cases h parent state cover).imp (fun _ _ _ => trivial)
    fun fault c' hc' => ?_
  rcases hc' with ⟨-, rfl⟩ | ⟨p, hp, hfault, -⟩
  · rfl
  · obtain ⟨hne, hcover⟩ := (Graph.cover_sprout_eq_error hp.lt_size).1 hfault
    refine absurd ⟨⟨p, hp⟩, hne, fun m hm => ?_⟩ hs
    rw [Graph.liveNode_eq_ok.2 hm] at hcover
    cases hcover

theorem addCoveredSuccessor_strays (h : c.Placed) (hs : c.Strands parent cover) :
    Ensures (addCoveredSuccessor parent state cover) c (fun _ _ => False)
      (fun fault c' => c.graph.liveNode cover = .error fault ∧ c.Strays parent state c') := by
  obtain ⟨⟨p, hp⟩, hne, hdead⟩ := hs
  refine (addCoveredSuccessor_cases h parent state cover).imp (fun n c' hc' => ?_)
    fun fault c' hc' => ?_
  · obtain ⟨p', -, g, hp', -, hg, -⟩ := hc'
    cases hcover : c.graph.liveNode cover with
    | ok m => exact hdead m (Graph.liveNode_eq_ok.1 hcover)
    | error fault =>
      rw [(Graph.cover_sprout_eq_error hp'.lt_size).2 ⟨hne, hcover⟩] at hg
      cases hg
  · rcases hc' with ⟨hfault, -⟩ | ⟨p', hp', hfault, rfl⟩
    · rw [Graph.liveNode_eq_ok.2 hp] at hfault
      cases hfault
    · exact ⟨((Graph.cover_sprout_eq_error hp'.lt_size).1 hfault).2, h.strays hp' state⟩

/-! ### The other operations -/

theorem addSuccessor_unchanged (h : c.Placed) (parent : NodeId) (state : State) :
    Ensures (addSuccessor parent state) c (fun _ _ => True) (fun _ c' => c' = c) :=
  (addSuccessor_cases h parent state).imp (fun _ _ _ => trivial) fun _ _ hc' => hc'.2

theorem resolveCall_unchanged (callNode : NodeId) :
    Ensures (resolveCall callNode) c (fun _ _ => True) (fun _ c' => c' = c) :=
  (resolveCall_cases c callNode).imp (fun _ _ _ => trivial) fun _ _ hc' => hc'.2

theorem expandExit_next {exits : List NodeId} {x : NodeId} (h : c.Expandable n exits)
    (hx : x ∈ exits) : Ensures (expandExit n x) c (fun _ c' => c'.Expandable n exits)
      (fun _ _ => False) := by
  obtain ⟨p, b, hp, hb⟩ := h.call
  obtain ⟨r, hr⟩ := h.exists_set hp.1
  obtain ⟨m, hm⟩ := h.live x hx
  have hok := expandExit_eq_ok hp hr hb hm
  have hkept : ∀ {k q}, c.graph.Live k q →
      (c.sprout n p r (c.reducer.expand p.state b m.state) none).graph.Live k
        (c.graph.grown n none k q) :=
    fun hq => (Graph.live_sprout_iff hp.lt_size (by simp)).2 (Or.inr ⟨_, hq, rfl⟩)
  rw [ensures_of_ok hok]
  exact {
    toPlaced := (placed_expandExit n x c h.toPlaced).of_ok hok
    call := ⟨_, b, hkept hp, hb⟩
    live := by
      intro y hy
      obtain ⟨q, hq⟩ := h.live y hy
      exact ⟨_, hkept hq⟩ }

theorem expandExits_unchanged (h : c.Placed) (hp : c.graph.Live n p) {exits : List NodeId}
    (hlive : ∀ x ∈ exits, ∃ m, c.graph.Live x m) :
    Ensures (exits.mapM (expandExit n)) c (fun _ _ => True) (fun _ c' => c' = c) := by
  cases hb : c.partitioning.block? p.state.location with
  | none => exact (expandExits_of_no_block hp hb exits).imp (fun _ _ _ => trivial) fun _ _ => id
  | some b =>
    have hexp : c.Expandable n exits := ⟨h, ⟨p, b, hp, hb⟩, hlive⟩
    have loop := Ensures.mapM (I := fun _ (d : Context) => d.Expandable n exits)
      (fun _ _ _ hx hd => expandExit_next hd hx) [] hexp
    exact loop.imp (fun _ _ _ => trivial) fun _ _ => False.elim

theorem expandBlockExits_unchanged (h : c.Placed) (callNode : NodeId) (s : SetId) :
    Ensures (expandBlockExits callNode s) c (fun _ _ => True) (fun _ c' => c' = c) := by
  refine ensures_expandBlockExits (fun _ => rfl) fun hexits _ hp => ?_
  exact (expandExits_unchanged h hp fun x hx =>
    live_of_mem_blockExits hexits (List.mem_filter.1 hx).1).imp (fun _ _ _ => trivial) fun _ _ => id

end Action

/-! ### Failures after any operations -/

/-- The contexts that the operations lead to, whether they succeed or fail, where any node may be
added as covered by any other. -/
inductive Handled : Context → Prop
  | start (partitioning : Partitioning) (reducer : Reducer) (state : State) (precision : Tracked)
      (options : Options) : Handled (.start partitioning reducer state precision options)
  | flag {c : Context} (o : Handled c) (shutdown : Shutdown) : Handled { c with shutdown }
  | run {c : Context} (o : Handled c) (program : Program) (fuel : Nat) :
      Handled (finalState (run program fuel c))
  | newReachedSet {c : Context} (o : Handled c) (state : State) (precision : Tracked) :
      Handled (finalState (Action.newReachedSet state precision c))
  | addSuccessor {c : Context} (o : Handled c) (parent : NodeId) (state : State) :
      Handled (finalState (Action.addSuccessor parent state c))
  | addCoveredSuccessor {c : Context} (o : Handled c) (parent : NodeId) (state : State)
      (cover : NodeId) : Handled (finalState (Action.addCoveredSuccessor parent state cover c))
  | resolveCall {c : Context} (o : Handled c) (callNode : NodeId) :
      Handled (finalState (Action.resolveCall callNode c))
  | expandBlockExits {c : Context} (o : Handled c) (callNode : NodeId) (set : SetId) :
      Handled (finalState (Action.expandBlockExits callNode set c))
  | repair {c : Context} (o : Handled c) (fuel : Nat) (path : Path) (target : PathIndex)
      (increments : List (Increment Tracked)) :
      Handled (finalState (repairPath fuel path target increments c))

theorem Handled.placed (o : Handled c) : c.Placed := by
  induction o with
  | start partitioning reducer state precision options =>
    exact placed_start partitioning reducer state precision options
  | @flag c o shutdown ih => exact ih.rest c.cache c.links c.statistics shutdown
  | run o program fuel ih => exact (placed_run program fuel).final ih
  | newReachedSet o state precision ih =>
    exact (Action.placed_newReachedSet state precision).final ih
  | addSuccessor o parent state ih => exact (Action.placed_addSuccessor parent state).final ih
  | addCoveredSuccessor o parent state cover ih =>
    exact (Action.placed_addCoveredSuccessor parent state cover).final ih
  | resolveCall o callNode ih => exact (Action.placed_resolveCall callNode).final ih
  | expandBlockExits o callNode set ih =>
    exact (Action.placed_expandBlockExits callNode set).final ih
  | repair o fuel path target increments ih =>
    exact (repairsKeep_placed.repairPath fuel path target increments).final ih

/-- An operation that fails changes nothing, except for a node that was to be covered by a node that
is not there: that one strays. -/
theorem failures_change_nothing (o : Handled c) :
    (∀ parent state, Ensures (Action.addSuccessor parent state) c (fun _ _ => True)
      (fun _ c' => c' = c)) ∧
    (∀ callNode, Ensures (Action.resolveCall callNode) c (fun _ _ => True)
      (fun _ c' => c' = c)) ∧
    (∀ callNode set, Ensures (Action.expandBlockExits callNode set) c (fun _ _ => True)
      (fun _ c' => c' = c)) ∧
    ∀ parent state cover,
      (¬ c.Strands parent cover →
        Ensures (Action.addCoveredSuccessor parent state cover) c (fun _ _ => True)
          (fun _ c' => c' = c)) ∧
      (c.Strands parent cover →
        Ensures (Action.addCoveredSuccessor parent state cover) c (fun _ _ => False)
          (fun fault c' => c.graph.liveNode cover = .error fault ∧ c.Strays parent state c')) :=
  have h := o.placed
  ⟨Action.addSuccessor_unchanged h, Action.resolveCall_unchanged,
    Action.expandBlockExits_unchanged h, fun _ _ _ =>
      ⟨Action.addCoveredSuccessor_unchanged h, Action.addCoveredSuccessor_strays h⟩⟩

namespace CoveredChild

def start : Context := .start (.ofList [.of 1 [] [2]]) (.ofList []) { location := 0 } ∅ {}

def grown : Context := finalState (Action.addCoveredSuccessor 0 { location := 0 } 0 start)

theorem strands_grown : grown.Strands 1 99 := by
  refine ⟨Graph.isDestroyed_eq_false.1 (by decide +kernel), by decide +kernel, ?_⟩
  exact Graph.dead_iff.2 (by decide +kernel)

theorem grown_failures : Handled grown ∧
    error? (Action.expandBlockExits 1 0 grown) = some (.noBlockAt 0) ∧
    Ensures (Action.expandBlockExits 1 0) grown (fun _ _ => True) (fun _ c' => c' = grown) ∧
    Ensures (Action.addCoveredSuccessor 1 { location := 1 } 99) grown (fun _ _ => False)
      (fun fault c' => grown.graph.liveNode 99 = .error fault ∧
        grown.Strays 1 { location := 1 } c') := by
  have o : Handled grown := .addCoveredSuccessor (.start ..) 0 { location := 0 } 0
  exact ⟨o, by decide +kernel, (failures_change_nothing o).2.2.1 1 0,
    ((failures_change_nothing o).2.2.2 1 { location := 1 } 99).2 strands_grown⟩

theorem stray_child_stays : Handled start ∧
    error? (Action.addCoveredSuccessor 0 { location := 1 } 99 start) = some (.unknownNode 99) ∧
    (finalState (Action.addCoveredSuccessor 0 { location := 1 } 99 start)).graph.liveCount = 2 ∧
    start.graph.liveCount = 1 :=
  ⟨.start .., by decide +kernel, by decide +kernel, by decide +kernel⟩

end CoveredChild

end Blockwise
