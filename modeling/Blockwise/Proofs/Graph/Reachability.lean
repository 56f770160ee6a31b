import Blockwise.Proofs.Graph.Arena
import Blockwise.Proofs.Graph.Dependents
import Mathlib.Algebra.BigOperators.Group.Finset.Basic

/-!
The subgraph below a node as a search that takes one entry from its stack at a time. A node may be
on the stack many times, and the child edges may run in cycles. But a node is marked once, and only
then are its children pushed; so the search comes to an end after at most one entry for each edge
and one for the node where it starts. It marks what the child edges reach from there.
-/
namespace Blockwise

open Relation (ReflTransGen)

namespace Graph

variable {σ π : Type} {g : Graph σ π} {stack rest : List NodeId} {seen below : IdSet}
  {out : Except Fault IdSet} {id root a : NodeId} {n : Node σ π} {k budget : ℕ} {fault : Fault}

/-- A search that has marked `seen` and goes on from `stack`, top first, ends with `out` after it
has taken so many entries. -/
inductive Collects (g : Graph σ π) : ℕ → List NodeId → IdSet → Except Fault IdSet → Prop
  | done (seen : IdSet) : Collects g 0 [] seen (.ok seen)
  | skip {k : ℕ} {id : NodeId} {rest : List NodeId} {seen : IdSet} {out : Except Fault IdSet}
      (hid : id ∈ seen) (next : Collects g k rest seen out) :
      Collects g (k + 1) (id :: rest) seen out
  | mark {k : ℕ} {id : NodeId} {rest : List NodeId} {seen : IdSet} {out : Except Fault IdSet}
      {n : Node σ π} (hid : id ∉ seen) (hn : g.liveNode id = .ok n)
      (next : Collects g k (n.children.toList.reverse ++ rest) (seen.insert id) out) :
      Collects g (k + 1) (id :: rest) seen out
  | fail {id : NodeId} {rest : List NodeId} {seen : IdSet} {fault : Fault} (hid : id ∉ seen)
      (hn : g.liveNode id = .error fault) : Collects g 1 (id :: rest) seen (.error fault)

/-! ### The search ends -/

def outDegree (g : Graph σ π) (a : NodeId) : ℕ := ((g.node? a).elim ∅ (·.children)).size

def edgesLeft (g : Graph σ π) (seen : IdSet) : ℕ :=
  ∑ a ∈ (Finset.range g.size).filter (· ∉ seen), g.outDegree a

theorem edgesLeft_insert (hn : g.Live id n) (hid : id ∉ seen) :
    g.edgesLeft seen = n.children.size + g.edgesLeft (seen.insert id) := by
  have hdegree : g.outDegree id = n.children.size := by rw [outDegree, hn.1, Option.elim_some]
  have hmem : id ∈ (Finset.range g.size).filter (· ∉ seen) :=
    Finset.mem_filter.2 ⟨Finset.mem_range.2 hn.lt_size, hid⟩
  have hrest : (Finset.range g.size).filter (· ∉ seen.insert id) =
      ((Finset.range g.size).filter (· ∉ seen)).erase id := by
    ext a
    simp only [Finset.mem_filter, Finset.mem_erase, SortedSet.mem_insert, not_or]
    exact and_left_comm
  rw [edgesLeft, edgesLeft, hrest, ← hdegree, Finset.add_sum_erase _ _ hmem]

theorem collects_within (g : Graph σ π) (stack : List NodeId) (seen : IdSet) :
    ∃ k out, k ≤ stack.length + g.edgesLeft seen ∧ g.Collects k stack seen out := by
  -- an edge that is left will put one entry on the stack, or none
  induction hload : stack.length + g.edgesLeft seen generalizing stack seen with
  | zero =>
    have hstack : stack = [] := List.length_eq_zero_iff.1 (by omega)
    subst hstack
    exact ⟨0, _, Nat.le_refl 0, .done seen⟩
  | succ load ih =>
    cases stack with
    | nil => exact ⟨0, _, Nat.zero_le _, .done seen⟩
    | cons id rest =>
      rw [List.length_cons] at hload
      by_cases hid : id ∈ seen
      · obtain ⟨k, out, hk, hout⟩ := ih rest seen (by omega)
        exact ⟨k + 1, out, by omega, .skip hid hout⟩
      · cases hn : g.liveNode id with
        | error fault => exact ⟨1, _, by omega, .fail hid hn⟩
        | ok n =>
          have hedges := edgesLeft_insert (liveNode_eq_ok.1 hn) hid
          have hpushed : (n.children.toList.reverse ++ rest).length =
              n.children.size + rest.length := by
            rw [List.length_append, List.length_reverse]
            rfl
          obtain ⟨k, out, hk, hout⟩ :=
            ih (n.children.toList.reverse ++ rest) (seen.insert id) (by omega)
          exact ⟨k + 1, out, by omega, .mark hid hn hout⟩

/-! ### What it ends with -/

theorem Collects.collectBelow_eq (h : g.Collects k stack seen out)
    (hb : unmarked g.size seen < budget) : g.collectBelow budget stack seen = out := by
  induction h generalizing budget with
  | done seen =>
    obtain ⟨budget, rfl⟩ := Nat.exists_eq_succ_of_ne_zero (by omega : budget ≠ 0)
    rfl
  | @skip k id rest seen out hid _ ih =>
    have hsame : g.collectBelow budget (id :: rest) seen = g.collectBelow budget rest seen := by
      obtain ⟨budget, rfl⟩ := Nat.exists_eq_succ_of_ne_zero (by omega : budget ≠ 0)
      rw [collectBelow, collectBelow, List.dropWhile_cons_of_pos (by simpa using hid)]
    rw [hsame]
    exact ih hb
  | @mark k id rest seen out n hid hn _ ih =>
    obtain ⟨budget, rfl⟩ := Nat.exists_eq_succ_of_ne_zero (by omega : budget ≠ 0)
    have hlt : unmarked g.size (seen.insert id) < unmarked g.size seen :=
      unmarked_lt (fun a ha => SortedSet.mem_insert.2 (Or.inr ha)) (liveNode_eq_ok.1 hn).lt_size hid
        (SortedSet.mem_insert.2 (Or.inl rfl))
    rw [collectBelow, List.dropWhile_cons_of_neg (by simpa using hid)]
    simp only [hn, bind, Except.bind]
    exact ih (by omega)
  | @fail id rest seen fault hid hn =>
    obtain ⟨budget, rfl⟩ := Nat.exists_eq_succ_of_ne_zero (by omega : budget ≠ 0)
    rw [collectBelow, List.dropWhile_cons_of_neg (by simpa using hid)]
    simp only [hn, bind, Except.bind]

theorem Collects.subgraph_eq (h : g.Collects k [root] ∅ out) : g.subgraph root = out := by
  have hbudget : g.collectBelow (g.size + 1) [root] ∅ = out := h.collectBelow_eq (by
    rw [unmarked_empty]
    omega)
  cases hn : g.liveNode root with
  | ok n =>
    rw [subgraph, hn]
    exact hbudget
  | error fault =>
    rw [subgraph, hn]
    cases h with
    | skip hid => exact absurd hid (SortedSet.not_mem_empty root)
    | mark _ hok =>
      rw [hn] at hok
      cases hok
    | fail _ herror => rw [← hn, herror]; rfl

theorem liveNode_eq_error : g.liveNode id = .error fault ↔
    g.node? id = none ∧ fault = .unknownNode id ∨
      (∃ n, g.node? id = some n ∧ n.destroyed = true) ∧ fault = .destroyedNode id := by
  unfold liveNode
  cases hn : g.node? id with
  | none =>
    simp only [true_and, Except.error.injEq, reduceCtorEq, false_and, exists_false, or_false]
    exact eq_comm
  | some n =>
    cases hd : n.destroyed with
    | true =>
      simp only [hd, if_true, Except.error.injEq, reduceCtorEq, false_and, Option.some.injEq,
        exists_eq_left', true_and, false_or]
      exact eq_comm
    | false =>
      simp only [hd, Bool.false_eq_true, if_false, reduceCtorEq, false_and, Option.some.injEq,
        exists_eq_left', or_self]

theorem WellFormed.subgraph_of_live (h : g.WellFormed) (hn : g.Live root n) :
    ∃ below, g.subgraph root = .ok below := by
  have hclosed (a b : NodeId) (_ : ∃ n, g.Live a n) (hab : g.Edge a b) : ∃ n, g.Live b n :=
    h.live_of_parent (h.edge_iff.1 hab)
  exact subgraph_ok (fun _ ha => ha) hclosed ⟨n, hn⟩

theorem WellFormed.subgraph_eq_error (h : g.WellFormed) :
    g.subgraph root = .error fault ↔ g.liveNode root = .error fault := by
  cases hn : g.liveNode root with
  | error fault' =>
    have hfails : g.subgraph root = .error fault' := by
      rw [subgraph, hn]
      rfl
    rw [hfails]
    simp only [Except.error.injEq]
  | ok n =>
    obtain ⟨below, hbelow⟩ := h.subgraph_of_live (liveNode_eq_ok.1 hn)
    rw [hbelow]
    simp only [reduceCtorEq]

theorem WellFormed.live_of_reached (h : g.WellFormed) (hn : ∃ n, g.Live root n)
    (ha : ReflTransGen g.Edge root a) : ∃ n, g.Live a n := by
  induction ha with
  | refl => exact hn
  | tail _ hab _ => exact h.live_of_parent (h.edge_iff.1 hab)

/-- The search below a node ends, with an error if the node is unknown or destroyed, and otherwise
with the nodes that child edges reach from it. -/
theorem subgraph_computes_reachability (changes : List (GraphChange σ π)) (root : NodeId) :
    let g := (Arena.after changes ∅).graph
    (∃ k ≤ g.edgesLeft ∅ + 1, g.Collects k [root] ∅ (g.subgraph root)) ∧
    (∀ k out, g.Collects k [root] ∅ out → out = g.subgraph root) ∧
    (∀ fault, g.subgraph root = .error fault ↔
      g.node? root = none ∧ fault = .unknownNode root ∨
        (∃ n, g.node? root = some n ∧ n.destroyed = true) ∧ fault = .destroyedNode root) ∧
    ∀ n, g.Live root n → ∃ below, g.subgraph root = .ok below ∧
      ∀ a, (a ∈ below ↔ ReflTransGen g.Edge root a) ∧ (a ∈ below → ∃ m, g.Live a m) := by
  intro g
  have hw : g.WellFormed := (Arena.sane_empty.after changes).1.wellFormed
  refine ⟨?_, fun k out hout => hout.subgraph_eq.symm, fun fault => ?_, fun n hn => ?_⟩
  · obtain ⟨k, out, hk, hout⟩ := g.collects_within [root] ∅
    rw [List.length_singleton] at hk
    refine ⟨k, by omega, ?_⟩
    rw [hout.subgraph_eq]
    exact hout
  · rw [hw.subgraph_eq_error, liveNode_eq_error]
  · obtain ⟨below, hbelow⟩ := hw.subgraph_of_live hn
    refine ⟨below, hbelow, fun a => ⟨mem_subgraph_iff hbelow a, fun ha => ?_⟩⟩
    exact hw.live_of_reached ⟨n, hn⟩ ((mem_subgraph_iff hbelow a).1 ha)

namespace Cyclic

def changes : List (GraphChange Unit Unit) :=
  [.addNode () () 0, .addNode () () 0, .addNode () () 0, .addNode () () 0, .addNode () () 0,
    .addEdge 0 1, .addEdge 1 0, .addEdge 1 1, .addEdge 1 2, .addEdge 0 2, .addEdge 1 3,
    .addEdge 4 0, .destroy 3]

theorem cycle_subgraph :
    let g := (Arena.after changes ∅).graph
    (∃ n, g.Live 0 n) ∧ (∃ below, g.subgraph 0 = .ok below ∧ below.toList = [0, 1, 2] ∧
      ∀ a, (a ∈ below ↔ ReflTransGen g.Edge 0 a) ∧ (a ∈ below → ∃ m, g.Live a m)) ∧
    g.subgraph 3 = .error (.destroyedNode 3) := by
  intro g
  obtain ⟨-, -, -, hreach⟩ := subgraph_computes_reachability changes 0
  have hlive : ∃ n, g.liveNode 0 = .ok n := isDestroyed_eq_false_iff.1 (by decide +kernel)
  obtain ⟨n, hn⟩ := hlive
  have hn := liveNode_eq_ok.1 hn
  obtain ⟨below, hbelow, hmem⟩ := hreach n hn
  refine ⟨⟨n, hn⟩, ⟨below, hbelow, ?_, hmem⟩, by decide +kernel⟩
  have hset : g.subgraph 0 = .ok (.ofList [0, 1, 2]) := by decide +kernel
  cases hset.symm.trans hbelow
  decide

end Cyclic

end Graph

end Blockwise
