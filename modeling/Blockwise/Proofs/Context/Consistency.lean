import Blockwise.Context.Consistency
import Blockwise.Proofs.Context.Sound

/-!
What the consistency check adds to soundness: every expanded node hangs below a call node that is
linked to the set of its exit, and the recorded exits of a result are members of it. The parts of
this that a sound context can lose on its way are named, too.
-/
namespace Blockwise

namespace Context

variable {c : Context} {s : SetId} {n e x : NodeId} {K : Key}

/-- A live expanded node hangs below a call node that is linked to the set of its live exit. -/
def LinksAgree (c : Context) : Prop :=
  ∀ e x p m, c.links.reducedOf e = some x → c.graph.Live e m → p ∈ m.parents →
    ∃ k, c.graph.Live x k ∧ c.links.setOfEntry p = some k.set

/-- The exits recorded for a stored result are live members of it. -/
def ReturnsAgree (c : Context) : Prop :=
  ∀ K s xs, c.cache.lookup K = some s → c.cache.returnEntry K = some xs →
    ∀ x ∈ xs, ∃ m, c.graph.Live x m ∧ m.set = s

theorem checkMember_eq_ok {r : ReachedSet} : checkMember r n = .ok () ↔ n ∈ r := by
  unfold checkMember
  split <;> simp_all

theorem checkEntry_eq_ok (h : c.Sound) (hs : c.cache.lookup K = some s) :
    c.checkEntry K s = .ok () ↔ ∀ xs, c.cache.returnEntry K = some xs →
      ∀ x ∈ xs, ∃ m, c.graph.Live x m ∧ m.set = s := by
  obtain ⟨-, ⟨r, f, hr, hf, rfl⟩, -⟩ := h.stored hs
  have hmembers : c.checkLive r.nodes.toList = .ok () := by
    refine checkLive_eq_ok.2 fun n hn => ?_
    obtain ⟨m, hm, -⟩ := h.live_of_mem hr hn
    exact ⟨m, hm⟩
  have hexit : ∀ x, (do let _ ← c.graph.liveNode x; checkMember r x) = .ok () ↔
      ∃ m, c.graph.Live x m ∧ m.set = s := by
    intro x
    rw [except_bind_eq_ok, ← h.mem_iff hr]
    constructor
    · rintro ⟨m, -, hx⟩
      exact checkMember_eq_ok.1 hx
    · intro hx
      obtain ⟨m, hm, -⟩ := h.live_of_mem hr hx
      exact ⟨m, Graph.liveNode_eq_ok.2 hm, checkMember_eq_ok.2 hx⟩
  simp only [checkEntry, bind, Except.bind, reachedSet_eq_ok.2 hr, Graph.liveNode_eq_ok.2 hf,
    hmembers, ne_eq, not_true_eq_false, or_self, if_false] at hexit ⊢
  rw [except_forM_eq_ok]
  simp only [hexit]
  cases c.cache.returnEntry _ <;> simp

theorem checkMember_owner_eq_ok (h : c.Sound) {p : NodeId} :
    (do
      let r ← c.reachedSet (← c.ownerReachedSet p)
      checkMember r x) = .ok () ↔
      ∃ k, c.graph.Live x k ∧ c.links.setOfEntry p = some k.set := by
  rw [except_bind_eq_ok]
  constructor
  · rintro ⟨s, hs, hr⟩
    obtain ⟨r, hr, hmem⟩ := except_bind_eq_ok.1 hr
    obtain ⟨k, hk, rfl⟩ := h.live_of_mem (reachedSet_eq_ok.1 hr) (checkMember_eq_ok.1 hmem)
    exact ⟨k, hk, ownerReachedSet_eq_ok.1 hs⟩
  · rintro ⟨k, hk, hs⟩
    obtain ⟨r, hr, hmem⟩ := h.set_of_live hk
    refine ⟨k.set, ownerReachedSet_eq_ok.2 hs, ?_⟩
    exact except_bind_eq_ok.2 ⟨r, reachedSet_eq_ok.2 hr, checkMember_eq_ok.2 hmem⟩

theorem checkExpansion_eq_ok (h : c.Sound) (hx : c.links.reducedOf e = some x) :
    c.checkExpansion e x = .ok () ↔ ∀ m p, c.graph.Live e m → p ∈ m.parents →
      ∃ k, c.graph.Live x k ∧ c.links.setOfEntry p = some k.set := by
  unfold checkExpansion
  by_cases hgone : c.graph.isDestroyed e = true
  · rw [if_pos hgone]
    refine iff_of_true rfl fun m p hm _ => ?_
    exact absurd hm (Graph.dead_iff.2 hgone m)
  obtain ⟨m, hm⟩ := Graph.isDestroyed_eq_false.1 (by simpa using hgone)
  obtain ⟨p, -, hp, -⟩ := h.parent hm (h.exit hx).expanded_not_head
  have hmin : m.parents.min? = some p := by
    rw [hp]
    rfl
  rw [if_neg hgone, except_bind_eq_ok]
  constructor
  · rintro ⟨k, -, hrest⟩ m' p' hm' hp'
    obtain ⟨n, hn, hrest⟩ := except_bind_eq_ok.1 hrest
    cases (Graph.liveNode_eq_ok.1 hn).unique hm
    cases hm.unique hm'
    rw [hp, SortedSet.mem_singleton] at hp'
    subst hp'
    rw [hmin] at hrest
    exact (checkMember_owner_eq_ok h).1 hrest
  · intro hagree
    have hmem : p ∈ m.parents := hp ▸ SortedSet.mem_singleton.2 rfl
    obtain ⟨k, hk, hs⟩ := hagree m p hm hmem
    refine ⟨k, Graph.liveNode_eq_ok.2 hk, ?_⟩
    refine except_bind_eq_ok.2 ⟨m, Graph.liveNode_eq_ok.2 hm, ?_⟩
    rw [hmin]
    exact (checkMember_owner_eq_ok h).2 ⟨k, hk, hs⟩

theorem forM_checkEntry_eq_ok (h : c.Sound) :
    c.cache.reached.entries.forM (fun e => c.checkEntry e.1 e.2) = .ok () ↔ c.ReturnsAgree := by
  rw [except_forM_eq_ok]
  constructor
  · intro hcheck K s xs hs
    exact (checkEntry_eq_ok h hs).1 (hcheck (K, s) (Table.mem_entries_iff.2 hs)) xs
  · rintro hagree ⟨K, s⟩ hmem
    have hs : c.cache.lookup K = some s := Table.mem_entries_iff.1 hmem
    exact (checkEntry_eq_ok h hs).2 fun xs => hagree K s xs hs

theorem forM_checkExpansion_eq_ok (h : c.Sound) :
    c.links.exits.entries.forM (fun e => c.checkExpansion e.1 e.2) = .ok () ↔ c.LinksAgree := by
  rw [except_forM_eq_ok]
  constructor
  · intro hcheck e x p m hx hm hp
    exact (checkExpansion_eq_ok h hx).1 (hcheck (e, x) (Table.mem_entries_iff.2 hx)) m p hm hp
  · rintro hagree ⟨e, x⟩ hmem
    have hx : c.links.reducedOf e = some x := Table.mem_entries_iff.1 hmem
    exact (checkExpansion_eq_ok h hx).2 fun m p hm hp => hagree e x p m hx hm hp

theorem checkConsistency_eq_ok (h : c.Sound) :
    c.checkConsistency = .ok () ↔ c.LinksAgree ∧ c.ReturnsAgree := by
  obtain ⟨top, htop⟩ : ∃ top, c.sets[SetId.topLevel]? = some top :=
    ⟨_, Array.getElem?_eq_getElem h.topLevel⟩
  have hentries : c.checkLive (c.cache.blockEntries.entries.map (·.2)) = .ok () := by
    refine checkLive_eq_ok.2 fun n hn => ?_
    obtain ⟨⟨K, n'⟩, hK, rfl⟩ := List.mem_map.1 hn
    exact h.live_of_heads (h.entry (Table.mem_entries_iff.1 hK))
  have hmembers : c.checkLive top.nodes.toList = .ok () := by
    refine checkLive_eq_ok.2 fun n hn => ?_
    obtain ⟨m, hm, -⟩ := h.live_of_mem htop hn
    exact ⟨m, hm⟩
  rw [← forM_checkEntry_eq_ok h, ← forM_checkExpansion_eq_ok h]
  unfold checkConsistency
  rw [except_bind_eq_ok]
  constructor
  · rintro ⟨⟨⟩, hr, hrest⟩
    obtain ⟨-, -, hrest⟩ := except_bind_eq_ok.1 hrest
    obtain ⟨r, -, hrest⟩ := except_bind_eq_ok.1 hrest
    obtain ⟨-, -, hl⟩ := except_bind_eq_ok.1 hrest
    exact ⟨hl, hr⟩
  · rintro ⟨hl, hr⟩
    refine ⟨(), hr, except_bind_eq_ok.2 ⟨(), hentries, ?_⟩⟩
    refine except_bind_eq_ok.2 ⟨top, reachedSet_eq_ok.2 htop, ?_⟩
    exact except_bind_eq_ok.2 ⟨(), hmembers, hl⟩

/-- An expanded node hangs below a call node that is linked to the set of the exit, even if the exit
is gone. -/
def Faithful (c : Context) : Prop :=
  ∀ e x p m k, c.links.reducedOf e = some x → c.graph.Live e m → p ∈ m.parents →
    c.graph.node? x = some k → c.links.setOfEntry p = some k.set

def Returned (c : Context) : Prop :=
  ∀ K xs, c.cache.returnEntry K = some xs →
    ∃ s, c.cache.lookup K = some s ∧ ∀ x ∈ xs, ∃ m, c.graph.Live x m ∧ m.set = s

def Tidy (c : Context) : Prop :=
  ∀ e x, c.links.reducedOf e = some x → (∃ m, c.graph.Live e m) ∧ ∃ m, c.graph.Live x m

structure Agreed (c : Context) : Prop extends Sound c where
  faithful : c.Faithful
  returned : c.Returned
  tidy : c.Tidy

theorem Agreed.consistent (h : c.Agreed) : c.checkConsistency = .ok () := by
  refine (checkConsistency_eq_ok h.toSound).2 ⟨fun e x p m hx hm hp => ?_, fun K s xs hs hxs => ?_⟩
  · obtain ⟨-, k, hk⟩ := h.tidy e x hx
    exact ⟨k, hk, h.faithful e x p m k hx hm hp hk.1⟩
  · obtain ⟨t, ht, hmem⟩ := h.returned K xs hxs
    cases Option.some.inj (hs.symm.trans ht)
    exact hmem

end Context

end Blockwise
