import Blockwise.Proofs.Context.Consistency
import Blockwise.Proofs.Graph.Lineage
import Blockwise.Proofs.LinkChains

/-!
The path to a node of a context whose links are between live nodes. There is one to each live node.
All nodes on it are live, none but the first is the first of a reached set, and it ends at the node.
Behind each of its nodes the links lead to a node without a link.
-/
namespace Blockwise

open Context

variable {c : Context} {n p x t : NodeId} {chain nodes : List NodeId}

/-! ### Following links inwards -/

namespace Links

variable {l : Links} (hdown : ∀ {e x}, l.reducedOf e = some x → x < e)

def below (l : Links) (n : NodeId) : Nat := (l.exits.entries.filter (·.1 ≤ n)).length

include hdown

theorem below_lt {x : NodeId} (hx : l.reducedOf n = some x) : l.below x < l.below n := by
  have hlt := hdown hx
  have hmem : (n, x) ∈ l.exits.entries := Table.mem_entries_iff.2 hx
  have hfilter : l.exits.entries.filter (·.1 ≤ x) =
      (l.exits.entries.filter (·.1 ≤ n)).filter (·.1 ≤ x) := by
    rw [List.filter_filter]
    refine List.filter_congr fun e _ => ?_
    by_cases he : e.1 ≤ x
    · simp [he, he.trans (Nat.le_of_lt hlt)]
    · simp [he]
  unfold below
  rw [hfilter, List.length_filter_lt_length_iff_exists]
  exact ⟨(n, x), List.mem_filter.2 ⟨hmem, by simp⟩, by simpa using hlt⟩

omit hdown in
theorem below_mono (hnp : n ≤ p) : l.below n ≤ l.below p := by
  unfold below
  refine List.Sublist.length_le (List.monotone_filter_right _ fun e he => ?_)
  simp only [decide_eq_true_eq] at he ⊢
  exact he.trans hnp

end Links

theorem Context.Agreed.mostInner_spec (h : c.Agreed) {m : Node State Tracked}
    (hm : c.graph.Live n m) (hn : ¬ c.Heads n) :
    (∃ k, c.graph.Live (c.links.mostInner n) k) ∧ ¬ c.Heads (c.links.mostInner n) ∧
      c.links.reducedOf (c.links.mostInner n) = none := by
  have hend := (Links.acyclic_of_descending fun hx => (h.exit hx).lt).reducedOf_mostInner n
  rcases (c.links.reaches_follow (c.links.exits.size + 1) n).cases_tail with hself | ⟨e, -, he⟩
  · have hself : c.links.mostInner n = n := hself
    rw [hself] at hend ⊢
    exact ⟨⟨m, hm⟩, hn, hend⟩
  · exact ⟨(h.tidy e _ he).2, (h.exit he).exit_not_head, hend⟩

/-! ### Ancestors -/

namespace Context.Structured

variable (h : c.Structured)

include h

theorem firstParent_of_edge (he : c.graph.Edge p n) : c.graph.FirstParent n p := by
  refine ⟨h.graph.edge_iff.1 he, fun q hq => ?_⟩
  rw [h.parent_unique he (h.graph.edge_iff.2 hq)]

theorem no_parent_of_heads (hn : c.Heads n) : ∀ p, ¬ c.graph.Parent n p :=
  fun _ hp => h.not_heads_of_edge (h.graph.edge_iff.2 hp) hn

theorem heads_of_no_parent {m : Node State Tracked} (hm : c.graph.Live n m)
    (hn : ∀ p, ¬ c.graph.Parent n p) : c.Heads n := by
  by_contra hh
  obtain ⟨p, -, hp, -⟩ := h.parent hm hh
  refine hn p ⟨m, hm.1, ?_⟩
  rw [hp]
  exact SortedSet.mem_singleton.2 rfl

theorem exists_lineage {m : Node State Tracked} (hm : c.graph.Live n m) :
    ∃ chain, c.graph.Lineage n chain := by
  induction n using Nat.strong_induction_on generalizing m with
  | _ n ih =>
    by_cases hn : c.Heads n
    · exact ⟨_, .top (h.no_parent_of_heads hn)⟩
    · obtain ⟨p, mp, hp, hlt, hlive, -⟩ := h.parent hm hn
      obtain ⟨chain, hchain⟩ := ih p hlt hlive
      refine ⟨_, .down (h.firstParent_of_edge (h.graph.edge_iff.2 ⟨m, hm.1, ?_⟩)) hchain⟩
      rw [hp]
      exact SortedSet.mem_singleton.2 rfl

end Context.Structured

/-! ### The path to a node -/

namespace Context

/-- The path to the node above, then the inside of the path to the exit if `n` is the view of one,
and `n`. -/
inductive PathTo (c : Context) : NodeId → List NodeId → Prop
  | first {n : NodeId} (hn : c.Heads n) : PathTo c n [n]
  | step {p n : NodeId} {nodes : List NodeId} (he : c.graph.Edge p n)
      (hx : c.links.reducedOf n = none) (hp : PathTo c p nodes) : PathTo c n (nodes ++ [n])
  | leave {p n x : NodeId} {nodes inner : List NodeId} (he : c.graph.Edge p n)
      (hx : c.links.reducedOf n = some x) (hp : PathTo c p nodes) (hi : PathTo c x inner) :
      PathTo c n (nodes ++ (inner.tail.dropLast ++ [n]))

end Context

/-- What a node adds to a path: itself, and before it, when it is expanded from an exit, the inside
of the path to this exit. -/
def Path.part (c : Context) (depth : Nat) (a : NodeId) : Except Halt (List NodeId) := do
  match c.links.reducedOf a with
  | some exit => return (← flatten c depth exit).tail.dropLast ++ [a]
  | none => return [a]

theorem Path.flatten_succ {depth : Nat} {chain : List NodeId} {parts : List (List NodeId)}
    (hchain : Path.ancestors c.graph n = .ok chain)
    (hparts : chain.mapM (Path.part c depth) = .ok parts) :
    Path.flatten c (depth + 1) n = .ok parts.flatten := by
  rw [flatten, hchain]
  change (do
    let parts ← chain.mapM (Path.part c depth)
    return parts.flatten) = _
  rw [hparts]
  rfl

theorem Path.flatten_eq (h : c.Sound) (ht : c.Tidy) {depth : Nat} {m : Node State Tracked}
    (hm : c.graph.Live n m) (hdepth : c.links.below n < depth) :
    ∃ nodes, Path.flatten c depth n = .ok nodes ∧ c.PathTo n nodes := by
  induction depth generalizing n m with
  | zero => omega
  | succ depth ih =>
    obtain ⟨chain, hchain⟩ := h.toStructured.exists_lineage hm
    have heq := ancestors_eq h.graph ⟨m, hm⟩ hchain
    have hparts : ∃ parts, chain.mapM (part c depth) = .ok parts ∧ c.PathTo n parts.flatten := by
      clear heq
      induction hchain generalizing m with
      | @top n hn =>
        have hn := h.heads_of_no_parent hm hn
        have hno := h.reducedOf_first hn
        refine ⟨[[n]], ?_, .first hn⟩
        simp only [List.mapM_cons, List.mapM_nil, part, hno]
        rfl
      | @down p n chain hp _ ihc =>
        have he := h.graph.edge_iff.2 hp.1
        obtain ⟨mp, -, hmp, -, -, hlt, -⟩ := h.live_of_edge he
        obtain ⟨parts, hparts, hto⟩ := ihc hmp
          (Nat.lt_of_le_of_lt (Links.below_mono (Nat.le_of_lt hlt)) hdepth)
        have hmapM : ∀ last, part c depth n = .ok last →
            (chain ++ [n]).mapM (part c depth) = .ok (parts ++ [last]) := by
          intro last hlast
          simp only [List.mapM_append, List.mapM_cons, List.mapM_nil, hparts, hlast]
          rfl
        cases hx : c.links.reducedOf n with
        | none =>
          refine ⟨parts ++ [[n]], hmapM [n] ?_, ?_⟩
          · simp only [part, hx]
            rfl
          · rw [List.flatten_append, List.flatten_singleton]
            exact .step he hx hto
        | some x =>
          obtain ⟨-, mx, hmx⟩ := ht n x hx
          have hbelow := Links.below_lt (fun hx => (h.exit hx).lt) hx
          obtain ⟨inner, hinner, hin⟩ := ih hmx (by omega)
          refine ⟨parts ++ [inner.tail.dropLast ++ [n]], hmapM _ ?_, ?_⟩
          · simp only [part, hx, hinner]
            rfl
          · rw [List.flatten_append, List.flatten_singleton]
            exact .leave he hx hto hin
    obtain ⟨parts, hparts, hto⟩ := hparts
    exact ⟨parts.flatten, Path.flatten_succ heq hparts, hto⟩

theorem Path.toTarget_eq (h : c.Sound) (ht : c.Tidy) {m : Node State Tracked}
    (hm : c.graph.Live n m) : ∃ path, Path.toTarget c n = .ok path ∧ c.PathTo n path.nodes := by
  have hbelow : c.links.below n < c.links.exits.size + 1 :=
    Nat.lt_succ_of_le (List.length_filter_le ..)
  obtain ⟨nodes, hnodes, hto⟩ := flatten_eq h ht hm hbelow
  refine ⟨⟨nodes⟩, ?_, hto⟩
  rw [toTarget, hnodes]
  rfl

structure Context.LeadsTo (c : Context) (n : NodeId) (nodes : List NodeId) : Prop where
  last : nodes.getLast? = some n
  live : ∀ a ∈ nodes, ∃ m, c.graph.Live a m
  tail : ∀ a ∈ nodes.tail, ¬ c.Heads a

theorem Context.PathTo.leadsTo (h : c.Structured) (hp : c.PathTo n nodes) : c.LeadsTo n nodes := by
  -- a node below another one heads no set, and so does not stand in front
  have extend : ∀ {p n nodes inner}, c.graph.Edge p n → c.LeadsTo p nodes →
      (∀ a ∈ inner, (∃ m, c.graph.Live a m) ∧ ¬ c.Heads a) →
        c.LeadsTo n (nodes ++ (inner ++ [n])) := by
    intro p n nodes inner he hp hinner
    obtain ⟨-, m, -, hm, -⟩ := h.live_of_edge he
    have hadded : ∀ a ∈ inner ++ [n], (∃ m, c.graph.Live a m) ∧ ¬ c.Heads a := by
      intro a ha
      rcases List.mem_append.1 ha with ha | ha
      · exact hinner a ha
      · rw [List.mem_singleton.1 ha]
        exact ⟨⟨m, hm⟩, h.not_heads_of_edge he⟩
    refine ⟨?_, fun a ha => ?_, fun a ha => ?_⟩
    · rw [← List.append_assoc]
      exact List.getLast?_concat ..
    · exact (List.mem_append.1 ha).elim (hp.live a) fun ha => (hadded a ha).1
    · have hne : nodes ≠ [] := by
        rintro rfl
        cases hp.last
      rw [List.tail_append_of_ne_nil hne] at ha
      exact (List.mem_append.1 ha).elim (hp.tail a) fun ha => (hadded a ha).2
  induction hp with
  | first hn => exact ⟨rfl, by simpa using h.live_of_heads hn, by simp⟩
  | step he hx _ ih => exact extend he ih (List.forall_mem_nil _)
  | leave he hx _ _ ih ihx =>
    refine extend he ih fun a ha => ?_
    have ha := List.dropLast_subset _ ha
    exact ⟨ihx.live a (List.mem_of_mem_tail ha), ihx.tail a ha⟩

theorem Path.toTarget_leadsTo (h : c.Agreed) {path : Path} (hp : Path.toTarget c t = .ok path) :
    c.LeadsTo t path.nodes := by
  obtain ⟨m, hm⟩ : ∃ m, c.graph.Live t m := by
    rw [← Graph.isDestroyed_eq_false, ← Bool.not_eq_true, ← Graph.dead_iff]
    intro hdead
    cases ht : c.graph.liveNode t with
    | ok m => exact hdead m (Graph.liveNode_eq_ok.1 ht)
    | error e =>
      have hfail : Path.toTarget c t = .error (.fault e) := by
        unfold Path.toTarget Path.flatten Path.ancestors
        cases c.graph.liveCount - 1 <;> simp [climb, ht, Except.mapError, bind, Except.bind]
      rw [hfail] at hp
      cases hp
  obtain ⟨path', hpath', hto⟩ := toTarget_eq h.toSound h.tidy hm
  cases hp.symm.trans hpath'
  exact hto.leadsTo h.toStructured

end Blockwise
