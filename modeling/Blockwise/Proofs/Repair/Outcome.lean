import Blockwise.Proofs.Repair.Repairs

/-!
The outcome of a repair. The links of destroyed nodes are dropped at the end, whether the repair
succeeds or not, and by then links, recorded exits and reached sets agree again.
-/
namespace Blockwise

open Context

variable {c c' d : Context} {roots : List NodeId} {e x n : NodeId}

theorem Shrinks.aggressive (g : Shrinks c roots c') :
    c'.cache.aggressive = c.cache.aggressive := by
  induction g with
  | start => rfl
  | quiet _ _ _ ih => exact ih
  | forgetReturns _ _ ih => exact ih
  | forgetEntry _ _ ih => exact ih
  | fresh _ _ _ ih => exact ih
  | remove _ rm ih =>
    cases rm with
    | none => exact ih
    | cut _ _ hcache => exact hcache.aggressive.trans ih
  | stale _ _ _ rm ih =>
    cases rm with
    | none => exact ih
    | cut _ _ hcache => exact hcache.aggressive.trans ih

namespace Context

theorem Sound.finishRepair (h : c.Sound) : c.finishRepair.Sound := by
  have hp := h.prune c.graph.isDestroyed fun hm => hm.isDestroyed
  exact { hp with }

theorem reducedOf_finishRepair : c.finishRepair.links.reducedOf e = some x ↔
    c.links.reducedOf e = some x ∧ (∃ m, c.graph.Live e m) ∧ ∃ m, c.graph.Live x m := by
  change (c.links.prune _).reducedOf e = some x ↔ _
  rw [Links.reducedOf_prune, Option.filter_eq_some_iff, ← Graph.isDestroyed_eq_false,
    ← Graph.isDestroyed_eq_false]
  simp

theorem setOfEntry_finishRepair {m : Node State Tracked} (hm : c.graph.Live n m) :
    c.finishRepair.links.setOfEntry n = c.links.setOfEntry n := by
  change (c.links.prune _).setOfEntry n = _
  rw [Links.setOfEntry_prune, hm.isDestroyed]
  cases c.links.setOfEntry n <;> rfl

theorem Tidy.finishRepair : c.finishRepair.Tidy := by
  intro e x hx
  exact (reducedOf_finishRepair.1 hx).2

theorem Faithful.finishRepair (h : c.Sound) (hf : c.Faithful) : c.finishRepair.Faithful := by
  intro e x p m k hx hm hp hk
  obtain ⟨mp, -, hmp, -⟩ := h.live_of_edge (h.graph.edge_iff.2 ⟨m, hm.1, hp⟩)
  rw [setOfEntry_finishRepair hmp]
  exact hf e x p m k (reducedOf_finishRepair.1 hx).1 hm hp hk

theorem Agreed.finishRepair (h : c.Agreed) (g : Shrinks c roots d) : d.finishRepair.Agreed where
  toSound := (g.sound h.toSound).finishRepair
  faithful := (g.faithful h.toSound h.faithful).finishRepair (g.sound h.toSound)
  returned := by
    have hr : d.Returned := g.returned h.toSound h.returned
    exact hr
  tidy := .finishRepair

end Context

theorem repairTarget_spec (h : c.Sound) (fuel : Nat) (path : Path) (target : PathIndex)
    (increments : List (Increment Tracked)) :
    Ensures (repairTarget fuel path target increments) c
      (fun report c' => ∃ t, c.reachedState path target = .ok t ∧
        ((∀ m, ¬ c.graph.Live t m) ∧ report = {} ∧ c' = c ∨
          (∃ m, c.graph.Live t m) ∧ Repaired c path t report c'))
      (fun _ c' => ∃ roots, Shrinks c roots c') := by
  simp only [repairTarget, ensures_bind, ensures_get]
  rw [ensures_liftFault]
  refine ⟨fun t ht => ?_, fun _ _ => ⟨[], .start⟩⟩
  simp only [ensures_ite, ensures_pure]
  refine ⟨fun hgone => ⟨t, ht, Or.inl ⟨Graph.dead_iff.2 hgone, trivial, trivial⟩⟩, fun hlive => ?_⟩
  obtain ⟨m, hm⟩ := Graph.isDestroyed_eq_false.1 (by simpa using hlive)
  refine (removeTarget_spec h fuel path target ⟨m, hm.1⟩ increments).imp (fun report c' hd => ?_)
    (fun _ _ => id)
  exact ⟨t, ht, Or.inr ⟨⟨m, hm⟩, hd⟩⟩

theorem ensures_repairPath {fuel : Nat} {path : Path} {target : PathIndex}
    {increments : List (Increment Tracked)} {ok : Report → Context → Prop}
    {bad : Halt → Context → Prop} :
    Ensures (repairPath fuel path target increments) c ok bad ↔
      Ensures (repairTarget fuel path target increments) c
        (fun report d => ok report d.finishRepair)
        (fun halt d => bad halt d.finishRepair) := by
  unfold Ensures repairPath
  cases repairTarget fuel path target increments c <;> rfl

theorem repairPath_spec (h : c.Sound) (fuel : Nat) (path : Path) (target : PathIndex)
    (increments : List (Increment Tracked)) :
    Ensures (repairPath fuel path target increments) c
      (fun report c' => ∃ t d, c.reachedState path target = .ok t ∧ c' = d.finishRepair ∧
        ((∀ m, ¬ c.graph.Live t m) ∧ report = {} ∧ d = c ∨
          (∃ m, c.graph.Live t m) ∧ Repaired c path t report d))
      (fun _ c' => ∃ roots d, Shrinks c roots d ∧ c' = d.finishRepair) := by
  rw [ensures_repairPath]
  refine (repairTarget_spec h fuel path target increments).imp (fun report d hd => ?_)
    (fun _ d hd => ?_)
  · obtain ⟨t, ht, hd⟩ := hd
    exact ⟨t, d, ht, rfl, hd⟩
  · obtain ⟨roots, g⟩ := hd
    exact ⟨roots, d, g, rfl⟩

theorem repairPath_shrinks (h : c.Sound) (fuel : Nat) (path : Path) (target : PathIndex)
    (increments : List (Increment Tracked)) : ∃ roots d, Shrinks c roots d ∧
      finalState (repairPath fuel path target increments c) = d.finishRepair := by
  have spec := (repairPath_spec h fuel path target increments).imp
    (Q := fun _ c' => ∃ roots d, Shrinks c roots d ∧ c' = d.finishRepair)
    (fun report c' hd => ?_) (fun _ _ => id)
  · exact spec.final
  · obtain ⟨t, d, -, rfl, ⟨-, -, rfl⟩ | ⟨-, hd⟩⟩ := hd
    · exact ⟨[], d, .start, rfl⟩
    · obtain ⟨roots, g⟩ := hd.repairs.shrinks
      exact ⟨roots, d, g, rfl⟩

end Blockwise
