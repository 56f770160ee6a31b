import Blockwise.Path
import Blockwise.Proofs.Graph.WellFormed
import Mathlib.Logic.Relation

/-!
Climbing the first parents of a node, in a graph with any edges. A climb that ends comes to each
node once, for it goes on in one way only. So it takes no more nodes than are live, and a climb that
would take one more never ends.
-/
namespace Blockwise

open Relation (ReflTransGen)

namespace Graph

variable {σ π : Type} {g : Graph σ π} {n p a : NodeId} {chain chain' : List NodeId}

theorem WellFormed.live_of_child (h : g.WellFormed) (hp : g.Parent n p) : ∃ m, g.Live p m :=
  h.live_of_edge (h.edge_iff.2 hp)

def FirstParent (g : Graph σ π) (n p : NodeId) : Prop :=
  g.Parent n p ∧ ∀ q, g.Parent n q → p ≤ q

theorem FirstParent.unique {q : NodeId} (h : g.FirstParent n p) (h' : g.FirstParent n q) : q = p :=
  Nat.le_antisymm (h'.2 p h.1) (h.2 q h'.1)

/-- The first parents above `n`, from a node without parents down to `n`. -/
inductive Lineage (g : Graph σ π) : NodeId → List NodeId → Prop
  | top {n : NodeId} (hn : ∀ p, ¬ g.Parent n p) : Lineage g n [n]
  | down {p n : NodeId} {chain : List NodeId} (hp : g.FirstParent n p) (h : Lineage g p chain) :
      Lineage g n (chain ++ [n])

namespace Lineage

theorem unique (h : g.Lineage n chain) (h' : g.Lineage n chain') : chain' = chain := by
  induction h generalizing chain' with
  | top hn =>
    cases h' with
    | top => rfl
    | down hp => exact absurd hp.1 (hn _)
  | down hp _ ih =>
    cases h' with
    | top hn => exact absurd hp.1 (hn _)
    | down hp' h' =>
      cases hp.unique hp'
      rw [ih h']

theorem of_mem (h : g.Lineage n chain) (ha : a ∈ chain) :
    ∃ above, g.Lineage a above ∧ above <+: chain := by
  induction h with
  | @top n hn =>
    rw [List.mem_singleton.1 ha]
    exact ⟨[n], .top hn, List.prefix_rfl⟩
  | @down p n chain hp h ih =>
    rcases List.mem_append.1 ha with ha | ha
    · obtain ⟨above, habove, hfront⟩ := ih ha
      exact ⟨above, habove, hfront.trans (List.prefix_append ..)⟩
    · cases List.mem_singleton.1 ha
      exact ⟨_, .down hp h, List.prefix_rfl⟩

theorem nodup (h : g.Lineage n chain) : chain.Nodup := by
  induction h with
  | top => exact List.pairwise_singleton ..
  | @down p n chain hp h ih =>
    have hfresh : n ∉ chain := by
      intro hn
      obtain ⟨above, habove, hfront⟩ := h.of_mem hn
      have hlong := hfront.length_le
      rw [(Lineage.down hp h).unique habove, List.length_append, List.length_singleton] at hlong
      omega
    exact List.nodup_append.2 ⟨ih, List.pairwise_singleton .., by rintro a ha b hb rfl; simp_all⟩

theorem length_pos (h : g.Lineage n chain) : 0 < chain.length := by
  cases h <;> simp

theorem live (hw : g.WellFormed) (h : g.Lineage n chain) (hn : ∃ m, g.Live n m) :
    ∀ a ∈ chain, ∃ m, g.Live a m := by
  induction h with
  | top => simpa using hn
  | @down p n chain hp _ ih =>
    intro a ha
    rcases List.mem_append.1 ha with ha | ha
    · exact ih (hw.live_of_child hp.1) a ha
    · exact List.mem_singleton.1 ha ▸ hn

theorem length_le (hw : g.WellFormed) (h : g.Lineage n chain) (hn : ∃ m, g.Live n m) :
    chain.length ≤ g.liveCount := by
  exact length_le_liveCount h.nodup (h.live hw hn)

end Lineage

theorem exists_lineage_iff : (∃ chain, g.Lineage n chain) ↔
    ∃ a, ReflTransGen g.FirstParent n a ∧ ∀ p, ¬ g.Parent a p := by
  constructor
  · rintro ⟨chain, h⟩
    induction h with
    | @top n hn => exact ⟨n, .refl, hn⟩
    | down hp _ ih =>
      obtain ⟨a, ha, hno⟩ := ih
      exact ⟨a, .head hp ha, hno⟩
  · rintro ⟨a, ha, hno⟩
    induction ha using ReflTransGen.head_induction_on with
    | refl => exact ⟨_, .top hno⟩
    | head hp _ ih =>
      obtain ⟨chain, h⟩ := ih
      exact ⟨_, .down hp h⟩

theorem Live.first_parent {m : Node σ π} (hn : g.Live n m) (hmin : m.parents.min? = some p) :
    g.FirstParent n p := by
  obtain ⟨hp, hle⟩ := SortedSet.min?_spec hmin
  refine ⟨⟨m, hn.1, hp⟩, fun q hq => ?_⟩
  obtain ⟨m', hm', hq⟩ := hq
  cases Option.some.inj (hn.1.symm.trans hm')
  rcases hle q hq with rfl | hlt
  · exact Nat.le_refl q
  · exact Nat.le_of_lt hlt

theorem Live.no_parent {m : Node σ π} (hn : g.Live n m) (hmin : m.parents.min? = none) :
    ∀ p, ¬ g.Parent n p := by
  rintro p ⟨m', hm', hp⟩
  cases Option.some.inj (hn.1.symm.trans hm')
  exact SortedSet.min?_eq_none.1 hmin p hp

end Graph

/-! ### The climb -/

namespace Path

variable {g : Graph State Tracked} {n : NodeId} {chain : List NodeId}

theorem climb_cases (hw : g.WellFormed) (origin : NodeId) (budget : Nat) (rest : List NodeId)
    (hn : ∃ m, g.Live n m) :
    (∃ chain, g.Lineage n chain ∧ chain.length ≤ budget + 1 ∧
      climb g origin budget n rest = .ok (chain ++ rest)) ∨
    ((∀ chain, g.Lineage n chain → budget + 1 < chain.length) ∧
      climb g origin budget n rest = .error (.malformedPath (.parentCycle origin))) := by
  induction budget generalizing n rest with
  | zero =>
    obtain ⟨m, hm⟩ := hn
    rw [climb]
    simp only [Graph.liveNode_eq_ok.2 hm, bind, Except.bind]
    cases hmin : m.parents.min? with
    | none => exact .inl ⟨[n], .top (hm.no_parent hmin), Nat.le_refl 1, rfl⟩
    | some p =>
      refine .inr ⟨fun chain hchain => ?_, rfl⟩
      cases hchain with
      | top hno => exact absurd (hm.first_parent hmin).1 (hno p)
      | down _ h =>
        have := h.length_pos
        rw [List.length_append, List.length_singleton]
        omega
  | succ budget ih =>
    obtain ⟨m, hm⟩ := hn
    rw [climb]
    simp only [Graph.liveNode_eq_ok.2 hm, bind, Except.bind]
    cases hmin : m.parents.min? with
    | none => exact .inl ⟨[n], .top (hm.no_parent hmin), by simp, rfl⟩
    | some p =>
      have hp := hm.first_parent hmin
      rcases ih (n :: rest) (hw.live_of_child hp.1) with
        ⟨chain, hchain, hlen, hclimb⟩ | ⟨hlong, hclimb⟩
      · refine .inl ⟨chain ++ [n], .down hp hchain, ?_, ?_⟩
        · rw [List.length_append, List.length_singleton]
          omega
        · rw [List.append_assoc]
          exact hclimb
      · refine .inr ⟨fun chain hchain => ?_, hclimb⟩
        cases hchain with
        | top hno => exact absurd hp.1 (hno p)
        | down hp' h =>
          cases hp.unique hp'
          have := hlong _ h
          rw [List.length_append, List.length_singleton]
          omega

theorem ancestors_cases (hw : g.WellFormed) (hn : ∃ m, g.Live n m) :
    (∃ chain, g.Lineage n chain ∧ ancestors g n = .ok chain) ∨
    ((∀ chain, ¬ g.Lineage n chain) ∧
      ancestors g n = .error (.malformedPath (.parentCycle n))) := by
  unfold ancestors
  rcases climb_cases hw n (g.liveCount - 1) [] hn with
    ⟨chain, hchain, -, hclimb⟩ | ⟨hlong, hclimb⟩
  · exact .inl ⟨chain, hchain, by rw [hclimb, List.append_nil]⟩
  · refine .inr ⟨fun chain hchain => ?_, hclimb⟩
    have hle := hchain.length_le hw hn
    have hlt := hlong chain hchain
    omega

theorem ancestors_eq (hw : g.WellFormed) (hn : ∃ m, g.Live n m) (h : g.Lineage n chain) :
    ancestors g n = .ok chain := by
  rcases ancestors_cases hw hn with ⟨chain', hchain', heq⟩ | ⟨hno, -⟩
  · rw [heq, h.unique hchain']
  · exact absurd h (hno chain)

end Path

end Blockwise
