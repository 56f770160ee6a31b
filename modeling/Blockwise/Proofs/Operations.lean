import Blockwise.Proofs.Exploration.Regular
import Blockwise.Proofs.Repair.Traced
import Blockwise.Proofs.Sessions

/-!
The operations on a context in any order, with any arguments and outcomes. Two invariants hold
throughout: the live nodes form one tree for each reached set, and every cached result stands under
the key that its first node tells.
-/
namespace Blockwise

open Context

variable {c : Context}

/-- The contexts that the operations lead to, whether they succeed or fail. -/
inductive Operated : Context → Prop
  | start (partitioning : Partitioning) (reducer : Reducer) (state : State) (precision : Tracked)
      (options : Options) : Operated (.start partitioning reducer state precision options)
  | flag {c : Context} (o : Operated c) (shutdown : Shutdown) : Operated { c with shutdown }
  | run {c : Context} (o : Operated c) (program : Program) (fuel : Nat) :
      Operated (finalState (run program fuel c))
  | newReachedSet {c : Context} (o : Operated c) (state : State) (precision : Tracked) :
      Operated (finalState (Action.newReachedSet state precision c))
  | addSuccessor {c : Context} (o : Operated c) (parent : NodeId) (state : State) :
      Operated (finalState (Action.addSuccessor parent state c))
  | resolveCall {c : Context} (o : Operated c) (callNode : NodeId) :
      Operated (finalState (Action.resolveCall callNode c))
  | expandBlockExits {c : Context} (o : Operated c) (callNode : NodeId) (set : SetId) :
      Operated (finalState (Action.expandBlockExits callNode set c))
  | repair {c : Context} (o : Operated c) (fuel : Nat) (path : Path) (target : PathIndex)
      (increments : List (Increment Tracked)) :
      Operated (finalState (repairPath fuel path target increments c))

theorem Operated.regular (o : Operated c) : c.Regular := by
  have since : ∀ {α ε : Type} {d : Context} {action : EStateM ε Context α}, d.Regular →
      Maintains d.RegularSince action → (finalState (action d)).Regular :=
    fun h hm => (hm.final (RegularSince.refl h)).regular
  induction o with
  | start partitioning reducer state precision options =>
    exact regular_start partitioning reducer state precision options
  | @flag c o shutdown ih => exact ih.quiet c.statistics shutdown
  | run o program fuel ih => exact since ih (regular_run program fuel)
  | newReachedSet o state precision ih => exact ih.addReachedSet state precision
  | addSuccessor o parent state ih => exact since ih (Action.regular_addSuccessor parent state)
  | resolveCall o callNode ih => exact since ih (Action.regular_resolveCall callNode)
  | expandBlockExits o callNode set ih =>
    exact since ih (Action.regular_expandBlockExits callNode set)
  | repair o fuel path target increments ih =>
    exact (regular_repairPath fuel path target increments).final ih

/-- The live nodes are the members of the reached sets, each a tree below its first node. -/
structure Context.Forest (c : Context) : Prop where
  recorded : ∀ {n : NodeId} {m}, c.graph.Live n m →
    ∀ s : SetId, s = m.set ↔ ∃ r, c.sets[s]? = some r ∧ n ∈ r
  live : ∀ {s : SetId} {r : ReachedSet} {n : NodeId}, c.sets[s]? = some r → n ∈ r →
    ∃ m, c.graph.Live n m
  first : ∀ {s : SetId} {r : ReachedSet}, c.sets[s]? = some r →
    r.first ∈ r ∧ ∃ m, c.graph.Live r.first m ∧ m.parents = ∅ ∧ m.coveredBy = none
  parent : ∀ {n : NodeId} {m}, c.graph.Live n m → ¬ c.Heads n →
    ∃ p q, m.parents = .singleton p ∧ p < n ∧ c.graph.Live p q ∧ q.set = m.set
  waitlist : ∀ {s : SetId} {r : ReachedSet}, c.sets[s]? = some r →
    r.waitlist.Nodup ∧ ∀ n ∈ r.waitlist, n ∈ r
  last : ∀ {s : SetId} {r : ReachedSet}, c.sets[s]? = some r → r.last ∈ r ∧ ∀ n ∈ r, n ≤ r.last
  exit : ∀ {e x : NodeId} {m}, c.graph.Live e m → c.links.reducedOf e = some x → x < e

/-- The reached sets stay trees of older and younger nodes, whatever is done to the context. -/
theorem forest_of_operated (o : Operated c) : c.Forest := by
  have h := o.regular
  exact {
    recorded := by
      intro n m hm s
      constructor
      · rintro rfl
        exact h.set_of_live hm
      · rintro ⟨r, hr, hn⟩
        obtain ⟨m', hm', rfl⟩ := h.live_of_mem hr hn
        rw [hm.unique hm']
    live := by
      intro s r n hr hn
      obtain ⟨m, hm, -⟩ := h.live_of_mem hr hn
      exact ⟨m, hm⟩
    first := by
      intro s r hr
      obtain ⟨m, hm, -⟩ := h.live_first hr
      exact ⟨h.first_mem hr, m, hm, h.head hm ⟨s, r, hr, rfl⟩⟩
    parent := h.parent
    waitlist := h.waitlist
    last := fun hr => h.last hr
    exit := fun _ hx => h.exit hx }

theorem forest_of_misplaced_exits : Operated Relinking.explored ∧
    Relinking.explored.links.setOfEntry 1 = some 1 ∧
    (value? (Action.expandBlockExits 1 2 Relinking.explored)).isSome = true ∧
    (finalState (Action.expandBlockExits 1 2 Relinking.explored)).Forest :=
  have o : Operated Relinking.explored := .run (.start ..) Relinking.program 100
  ⟨o, by decide +kernel, by decide +kernel, forest_of_operated (.expandBlockExits o 1 2)⟩

/-- Cached results and their keys stay in step, whatever is done to the context. -/
theorem keyOf_of_cached (o : Operated c) :
    (∀ entry ∈ c.cache.reached.entries,
      c.keyOf entry.2 = .ok entry.1 ∧ c.cache.containsPrecise entry.1 = true) ∧
    (c.cache.reached.entries.map (·.2)).Nodup := by
  have h := o.regular
  have stored : ∀ entry ∈ c.cache.reached.entries,
      c.HasKey entry.2 entry.1 ∧ c.cache.containsPrecise entry.1 = true := by
    intro entry he
    obtain ⟨-, hkey, hp⟩ := h.stored (Table.mem_entries_iff.1 he)
    exact ⟨hkey, hp⟩
  refine ⟨fun entry he => ?_, ?_⟩
  · obtain ⟨hkey, hp⟩ := stored entry he
    exact ⟨keyOf_eq_ok.2 hkey, hp⟩
  · -- two keys of one set would both be told by its first node
    rw [List.Nodup, List.pairwise_map]
    refine c.cache.reached.distinct.imp_of_mem fun {a b} ha hb hne hsame => hne ?_
    have hkey := (stored a ha).1
    rw [hsame] at hkey
    exact (stored b hb).1.unique hkey

theorem keyOf_of_cached_refined : Operated Relinking.exploredAgain ∧
    Relinking.exploredAgain.cache.size = 4 ∧
    (∀ entry ∈ Relinking.exploredAgain.cache.reached.entries,
      Relinking.exploredAgain.keyOf entry.2 = .ok entry.1 ∧
        Relinking.exploredAgain.cache.containsPrecise entry.1 = true) ∧
    (Relinking.exploredAgain.cache.reached.entries.map (·.2)).Nodup :=
  have o : Operated Relinking.exploredAgain :=
    .run (.repair (.run (.start ..) Relinking.program 100) 100 Relinking.path 4
      Relinking.increments) Relinking.program 100
  ⟨o, by decide +kernel, keyOf_of_cached o⟩

end Blockwise
