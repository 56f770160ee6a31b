import Blockwise.Graph.Subgraph
import Blockwise.Proofs.Graph.WellFormed
import Blockwise.Proofs.Outcome
import Blockwise.ReachedSet.Removal
import Mathlib.Data.Finset.Card
import Mathlib.Data.List.TakeWhile
import Mathlib.Logic.Relation

/-!
What is collected when a subtree is removed. Both searches run on a budget, but a step marks a node
that was not marked before, and only nodes of the graph are marked; so the budget never ends them,
and what they return is closed.
-/
namespace Blockwise

open Relation (ReflTransGen)

/-! ### Skipping the marked entries of a worklist -/

section Skip

variable {marked : IdSet} {work rest : List NodeId} {a id : NodeId}

theorem marked_of_skip_nil (h : work.dropWhile (· ∈ marked) = []) (ha : a ∈ work) :
    a ∈ marked := by
  simpa using List.dropWhile_eq_nil_iff.1 h a ha

theorem marked_or_of_skip_cons (h : work.dropWhile (· ∈ marked) = id :: rest) (ha : a ∈ work) :
    a ∈ marked ∨ a = id ∨ a ∈ rest := by
  rw [← List.takeWhile_append_dropWhile (p := (· ∈ marked)) (l := work), h] at ha
  rcases List.mem_append.1 ha with ha | ha
  · exact Or.inl (by simpa using List.mem_takeWhile_imp ha)
  · exact Or.inr (List.mem_cons.1 ha)

theorem mem_of_skip_cons (h : work.dropWhile (· ∈ marked) = id :: rest) :
    id ∉ marked ∧ id ∈ work ∧ ∀ a ∈ rest, a ∈ work := by
  have hsub : ∀ a ∈ id :: rest, a ∈ work := by
    intro a ha
    exact (List.dropWhile_sublist _).subset (h ▸ ha)
  refine ⟨?_, hsub id (List.mem_cons_self ..), fun a ha => hsub a (List.mem_cons_of_mem _ ha)⟩
  have hne : work.dropWhile (· ∈ marked) ≠ [] := by simp [h]
  have hhead := List.head_dropWhile_not (· ∈ marked) hne
  simpa [h] using hhead

end Skip

def unmarked (bound : Nat) (marked : IdSet) : Nat :=
  ((Finset.range bound).filter (· ∉ marked)).card

theorem unmarked_empty (bound : Nat) : unmarked bound ∅ = bound := by
  simp [unmarked]

theorem unmarked_lt {bound : Nat} {marked marked' : IdSet} {id : NodeId}
    (hsub : ∀ a ∈ marked, a ∈ marked') (hlt : id < bound) (hid : id ∉ marked)
    (hid' : id ∈ marked') : unmarked bound marked' < unmarked bound marked := by
  refine Finset.card_lt_card ((Finset.ssubset_iff_of_subset ?_).2 ⟨id, ?_, ?_⟩)
  · intro a ha
    rw [Finset.mem_filter] at ha ⊢
    exact ⟨ha.1, fun h => ha.2 (hsub a h)⟩
  · exact Finset.mem_filter.2 ⟨Finset.mem_range.2 hlt, hid⟩
  · intro h
    exact (Finset.mem_filter.1 h).2 hid'

/-! ### The invariant of both searches -/

/-- The search from `origin` along `R` has marked these nodes, and goes on from those in `work`. -/
structure Search (R : NodeId → NodeId → Prop) (origin : NodeId) (work : List NodeId)
    (marked : IdSet) : Prop where
  start : origin ∈ marked ∨ origin ∈ work
  closed : ∀ a ∈ marked, ∀ b, R a b → b ∈ marked ∨ b ∈ work
  reached : ∀ a, a ∈ marked ∨ a ∈ work → ReflTransGen R origin a

namespace Search

variable {R : NodeId → NodeId → Prop} {origin a id : NodeId} {work rest next : List NodeId}
  {marked marked' : IdSet}

theorem init (R : NodeId → NodeId → Prop) (origin : NodeId) : Search R origin [origin] ∅ where
  start := Or.inr (List.mem_singleton.2 rfl)
  closed := fun a ha => absurd ha (SortedSet.not_mem_empty a)
  reached := by
    rintro a (ha | ha)
    · exact absurd ha (SortedSet.not_mem_empty a)
    · cases List.mem_singleton.1 ha
      exact .refl

theorem mem_iff (h : Search R origin work marked) (hdone : work.dropWhile (· ∈ marked) = []) :
    a ∈ marked ↔ ReflTransGen R origin a := by
  refine ⟨fun ha => h.reached a (Or.inl ha), fun ha => ?_⟩
  induction ha with
  | refl => exact h.start.elim id (marked_of_skip_nil hdone)
  | tail _ hab ih => exact (h.closed _ ih _ hab).elim id (marked_of_skip_nil hdone)

theorem round (h : Search R origin work marked) (hskip : work.dropWhile (· ∈ marked) = id :: rest)
    (more : NodeId → Prop) (hmarked : ∀ a, a ∈ marked' ↔ a ∈ marked ∨ more a) (hid : more id)
    (hmore : ∀ a, more a → ReflTransGen R id a) (hnext : ∀ b ∈ next, ∃ a, more a ∧ R a b)
    (hclosed : ∀ a, more a → ∀ b, R a b → more b ∨ b ∈ next) :
    Search R origin (next ++ rest) marked' := by
  obtain ⟨-, hmem, hrest⟩ := mem_of_skip_cons hskip
  have kept : ∀ a, a ∈ marked ∨ a ∈ work → a ∈ marked' ∨ a ∈ next ++ rest := by
    rintro a (ha | ha)
    · exact Or.inl ((hmarked a).2 (Or.inl ha))
    rcases marked_or_of_skip_cons hskip ha with ha | rfl | ha
    · exact Or.inl ((hmarked a).2 (Or.inl ha))
    · exact Or.inl ((hmarked a).2 (Or.inr hid))
    · exact Or.inr (List.mem_append_right _ ha)
  have behind : ∀ a, more a → ReflTransGen R origin a := fun a ha =>
    (h.reached id (Or.inr hmem)).trans (hmore a ha)
  refine ⟨kept origin h.start, fun a ha b hab => ?_, ?_⟩
  · rcases (hmarked a).1 ha with ha | ha
    · exact kept b (h.closed a ha b hab)
    · rcases hclosed a ha b hab with hb | hb
      · exact Or.inl ((hmarked b).2 (Or.inr hb))
      · exact Or.inr (List.mem_append_left _ hb)
  · rintro a (ha | ha)
    · exact ((hmarked a).1 ha).elim (fun ha => h.reached a (Or.inl ha)) (behind a)
    · rcases List.mem_append.1 ha with ha | ha
      · obtain ⟨b, hb, hba⟩ := hnext a ha
        exact (behind b hb).tail hba
      · exact h.reached a (Or.inr (hrest a ha))

end Search

namespace Graph

variable {σ π : Type} {g : Graph σ π} {origin : NodeId}

theorem collectBelow_spec {budget : Nat} {stack : List NodeId} {seen below : IdSet}
    (hr : g.collectBelow budget stack seen = .ok below) (hb : unmarked g.size seen < budget)
    (h : Search g.Edge origin stack seen) (a : NodeId) :
    a ∈ below ↔ ReflTransGen g.Edge origin a := by
  induction budget generalizing stack seen with
  | zero => exact absurd hb (Nat.not_lt_zero _)
  | succ budget ih =>
    rw [collectBelow] at hr
    split at hr
    · rename_i hskip
      cases hr
      exact h.mem_iff hskip
    · rename_i id rest hskip
      obtain ⟨n, hn, hr⟩ := except_bind_eq_ok.1 hr
      have hlive := liveNode_eq_ok.1 hn
      have hedge : ∀ {b}, g.Edge id b ↔ b ∈ n.children.toList.reverse := by
        simp [Edge, hlive.1]
      have hlt : unmarked g.size (seen.insert id) < unmarked g.size seen :=
        unmarked_lt (fun a ha => SortedSet.mem_insert.2 (Or.inr ha)) hlive.lt_size
          (mem_of_skip_cons hskip).1 (SortedSet.mem_insert.2 (Or.inl rfl))
      refine ih hr (by omega) (h.round hskip (· = id) (fun a => ?_) rfl ?_ ?_ ?_)
      · rw [SortedSet.mem_insert, or_comm]
      · rintro a rfl
        exact .refl
      · exact fun b hb => ⟨id, rfl, hedge.2 hb⟩
      · rintro a rfl b hab
        exact Or.inr (hedge.1 hab)

theorem mem_subgraph_iff {root : NodeId} {below : IdSet} (hr : g.subgraph root = .ok below)
    (a : NodeId) : a ∈ below ↔ ReflTransGen g.Edge root a := by
  obtain ⟨-, -, hr⟩ := except_bind_eq_ok.1 hr
  exact collectBelow_spec hr (by rw [unmarked_empty]; exact Nat.lt_succ_self _) (.init _ _) a

theorem lt_size_of_subgraph {root : NodeId} {below : IdSet} (hr : g.subgraph root = .ok below) :
    root < g.size := by
  obtain ⟨n, hn, -⟩ := except_bind_eq_ok.1 hr
  exact (liveNode_eq_ok.1 hn).lt_size

theorem collectBelow_ok {inside : NodeId → Prop} (hlive : ∀ a, inside a → ∃ n, g.Live a n)
    (hedge : ∀ a b, inside a → g.Edge a b → inside b) {budget : Nat} {stack : List NodeId}
    (hstack : ∀ a ∈ stack, inside a) (seen : IdSet) :
    ∃ below, g.collectBelow budget stack seen = .ok below := by
  induction budget generalizing stack seen with
  | zero => exact ⟨seen, rfl⟩
  | succ budget ih =>
    rw [collectBelow]
    split
    · exact ⟨seen, rfl⟩
    · rename_i id rest hskip
      obtain ⟨-, hmem, hrest⟩ := mem_of_skip_cons hskip
      obtain ⟨n, hn⟩ := hlive id (hstack id hmem)
      rw [liveNode_eq_ok.2 hn]
      refine ih (fun a ha => ?_) _
      rcases List.mem_append.1 ha with ha | ha
      · have hchild : a ∈ n.children := by simpa using ha
        exact hedge id a (hstack id hmem) ⟨n, hn.1, hchild⟩
      · exact hstack a (hrest a ha)

theorem subgraph_ok {inside : NodeId → Prop} (hlive : ∀ a, inside a → ∃ n, g.Live a n)
    (hedge : ∀ a b, inside a → g.Edge a b → inside b) {root : NodeId} (hroot : inside root) :
    ∃ below, g.subgraph root = .ok below := by
  obtain ⟨n, hn⟩ := hlive root hroot
  rw [subgraph, liveNode_eq_ok.2 hn]
  exact collectBelow_ok hlive hedge (by simpa using hroot) ∅

/-- `b` stands on `a`: it is a child of `a`, or `a` covers it. -/
def Supports (g : Graph σ π) (a b : NodeId) : Prop := g.Edge a b ∨ g.Covers a b

theorem WellFormed.live_of_supports (h : g.WellFormed) {a b : NodeId} (hab : g.Supports a b) :
    ∃ n, g.Live b n := by
  rcases hab with hab | hab
  · exact h.live_of_parent (h.edge_iff.1 hab)
  · exact h.live_of_coveredBy (h.covers_iff.1 hab)

end Graph

namespace Region

variable {σ π : Type} {r : Region σ π}

theorem mem_coveredByAny {g : Graph σ π} {ids : IdSet} {b : NodeId} :
    b ∈ coveredByAny g ids ↔ ∃ a ∈ ids, g.Covers a b := by
  simp only [coveredByAny, List.mem_reverse, List.mem_flatMap, SortedSet.mem_toList, Graph.Covers]
  refine exists_congr fun a => and_congr_right fun _ => ?_
  cases g.node? a <;> simp

theorem collectRemoved_spec {origin : NodeId} {budget : Nat} {roots : List NodeId}
    {removed out : IdSet} (hr : r.collectRemoved budget roots removed = .ok out)
    (hb : unmarked r.graph.size removed < budget) (h : Search r.graph.Supports origin roots removed)
    (hin : ∀ a ∈ removed, a ∈ r.reached) :
    (∀ a, a ∈ out ↔ ReflTransGen r.graph.Supports origin a) ∧ ∀ a ∈ out, a ∈ r.reached := by
  induction budget generalizing roots removed with
  | zero => exact absurd hb (Nat.not_lt_zero _)
  | succ budget ih =>
    rw [collectRemoved] at hr
    split at hr
    · rename_i hskip
      cases hr
      exact ⟨fun a => h.mem_iff hskip, hin⟩
    · rename_i root rest hskip
      obtain ⟨below, hs, hr⟩ := except_bind_eq_ok.1 hr
      split at hr
      · cases hr
      rename_i hfind
      have hbelow := Graph.mem_subgraph_iff hs
      have hself : root ∈ below := (hbelow root).2 .refl
      have hlt : unmarked r.graph.size (removed.union below) < unmarked r.graph.size removed :=
        unmarked_lt (fun a ha => SortedSet.mem_union.2 (Or.inl ha)) (Graph.lt_size_of_subgraph hs)
          (mem_of_skip_cons hskip).1 (SortedSet.mem_union.2 (Or.inr hself))
      -- a round marks a whole subtree, and what its nodes cover is left for the next ones
      refine ih hr (by omega) (h.round hskip (· ∈ below) (fun a => SortedSet.mem_union)
        hself (fun a ha => ?_) (fun b hb => ?_) fun a ha b hab => ?_) fun a ha => ?_
      · exact ReflTransGen.mono (fun _ _ => Or.inl) _ _ ((hbelow a).1 ha)
      · obtain ⟨a, ha, hab⟩ := mem_coveredByAny.1 hb
        exact ⟨a, ha, Or.inr hab⟩
      · rcases hab with hab | hab
        · exact Or.inl ((hbelow b).2 (((hbelow a).1 ha).tail hab))
        · exact Or.inr (mem_coveredByAny.2 ⟨a, ha, hab⟩)
      · rcases SortedSet.mem_union.1 ha with ha | ha
        · exact hin a ha
        · simpa using List.find?_eq_none.1 hfind a ha

theorem collectRemoved_cases (inside : NodeId → Prop)
    (hlive : ∀ a, inside a → ∃ n, r.graph.Live a n)
    (hclosed : ∀ a b, inside a → r.graph.Supports a b → inside b) (budget : Nat)
    {roots : List NodeId} (hroots : ∀ a ∈ roots, inside a) (removed : IdSet) :
    (∃ out, r.collectRemoved budget roots removed = .ok out) ∨
      ∃ a, inside a ∧ a ∉ r.reached ∧
        r.collectRemoved budget roots removed = .error (.notInReachedSet a r.reached.id) := by
  induction budget generalizing roots removed with
  | zero => exact Or.inl ⟨removed, rfl⟩
  | succ budget ih =>
    rw [collectRemoved]
    split
    · exact Or.inl ⟨removed, rfl⟩
    · rename_i root rest hskip
      obtain ⟨-, hmem, hrest⟩ := mem_of_skip_cons hskip
      obtain ⟨below, hs⟩ := Graph.subgraph_ok hlive
        (fun a b ha hab => hclosed a b ha (Or.inl hab)) (hroots root hmem)
      have hin : ∀ a ∈ below, inside a := by
        intro a ha
        have hdown := (Graph.mem_subgraph_iff hs a).1 ha
        clear ha
        induction hdown with
        | refl => exact hroots root hmem
        | tail _ hab ih => exact hclosed _ _ ih (Or.inl hab)
      cases hfind : below.toList.find? (· ∉ r.reached) with
      | some foreign =>
        refine Or.inr ⟨foreign, hin foreign (List.mem_of_find?_eq_some hfind), ?_, ?_⟩
        · simpa using List.find?_some hfind
        · simp only [hs, hfind, bind, Except.bind]
      | none =>
        simp only [hs, hfind, bind, Except.bind]
        refine ih (fun a ha => ?_) _
        rcases List.mem_append.1 ha with ha | ha
        · obtain ⟨b, hb, hcover⟩ := mem_coveredByAny.1 ha
          exact hclosed b a (hin b hb) (Or.inr hcover)
        · exact hroots a (hrest a ha)

theorem collectRemoved_ok (hlive : ∀ a ∈ r.reached, ∃ n, r.graph.Live a n)
    (hclosed : ∀ a ∈ r.reached, ∀ b, r.graph.Supports a b → b ∈ r.reached) (budget : Nat)
    {roots : List NodeId} (hroots : ∀ a ∈ roots, a ∈ r.reached) (removed : IdSet) :
    ∃ out, r.collectRemoved budget roots removed = .ok out := by
  rcases collectRemoved_cases (· ∈ r.reached) hlive (fun a b ha => hclosed a ha b) budget hroots
    removed with hok | ⟨a, ha, hforeign, -⟩
  · exact hok
  · exact absurd ha hforeign

end Region

end Blockwise
