import Blockwise.Proofs.Repair.Outcome
import Blockwise.Proofs.Repair.Unfailing

/-!
A repair that fails leaves nothing half done. Its parts fail before they remove anything or not at
all, except that the removal of stale expansions may be out of fuel. So whatever else a repair ends
with, no live node is left whose exit is gone.
-/
namespace Blockwise

open Context

variable {c c' c'' d : Context}

namespace Context

/-- A part of a repair after which no more live nodes are without their exits than before. -/
def Clears (c c' : Context) : Prop :=
  ∃ roots, Shrinks c roots c' ∧
    (c.Faithful → c.Owed [] (fun _ => False) → c'.Owed [] fun _ => False)

theorem Clears.refl (c : Context) : c.Clears c := ⟨[], .start, fun _ => id⟩

theorem Clears.trans (h : c.Sound) (k : c.Clears c') (k' : c'.Clears c'') : c.Clears c'' := by
  obtain ⟨roots, g, ho⟩ := k
  obtain ⟨roots', g', ho'⟩ := k'
  exact ⟨_, g.trans g', fun hf hc => ho' (g.faithful h hf) (ho hf hc)⟩

theorem Clears.sound (h : c.Sound) (k : c.Clears c') : c'.Sound := by
  obtain ⟨roots, g, -⟩ := k
  exact g.sound h

theorem Keeps.clears (h : c.Sound) (k : c.Keeps c') : c.Clears c' := by
  refine ⟨[], k.1, fun _ ho => ?_⟩
  refine k.1.owed h ho (fun {n m} hm hlost => ?_) (fun _ => id) (fun _ => id)
  obtain ⟨m', hm'⟩ := k.2 n m hm
  exact absurd hm' (hlost m')

def Stops (c : Context) (halt : Halt) (c' : Context) : Prop := halt = .outOfFuel ∨ c.Clears c'

theorem Stops.after (h : c.Sound) (k : c.Clears c') {halt : Halt} (hs : c'.Stops halt c'') :
    c.Stops halt c'' :=
  hs.imp_right (k.trans h)

end Context

theorem Repairs.clears {report report' : Report} {asked : NodeId → Prop}
    (t : Repairs c report asked report' c') : c.Clears c' := by
  obtain ⟨roots, g, -, -, ho⟩ := t
  exact ⟨roots, g, ho⟩

theorem clears_quiet (h : c.Sound) (shutdown : Shutdown) : c.Clears { c with shutdown } :=
  ((Keeps.refl c).quiet c.statistics shutdown).clears h

theorem removeCachedSubtree_stops (h : c.Sound) (fuel : Nat) (outer node : NodeId)
    (increments : List (Increment Tracked)) (report : Report) :
    Ensures (removeCachedSubtree fuel outer node increments report) c (fun _ c' => c.Clears c')
      (fun halt c' => c.Stops halt c') := by
  have hstops : Ensures (removeCachedSubtree fuel outer node increments report) c
      (fun _ _ => True) (fun halt c' => c.Stops halt c') := by
    refine ensures_removeCachedSubtree (fun _ => Or.inr (.refl c)) (fun _ _ => trivial)
      fun {s r n key adjustment} hread => ?_
    have hstands : c.Stands s key := hread.stands fun hl => (h.call hl).answers
    refine (Action.removeFromSet_spec h.toStructured h.results hread.reached hstands report).imp
      (fun report' d hd => ?_) (fun _ d hd => Or.inr ?_)
    · exact (removeStaleExpansions_halts fuel _ (hd.shrinks.sound h)).imp (fun _ _ => id)
        fun _ _ hhalt => Or.inl hhalt
    · obtain ⟨g, hgraph, -⟩ := hd
      exact Keeps.clears h ⟨g, fun n m hm => ⟨m, hgraph ▸ hm⟩⟩
  exact ((removeCachedSubtree_spec h fuel outer node increments report).and hstops).imp
    (fun _ _ hd => hd.1.1.clears) (fun _ _ hd => hd.2)

theorem removePair_stops (h : c.Sound) (fuel : Nat) (innermost : NodeId) (targetParents : IdSet)
    (increments : List (Increment Tracked)) (report : Report) (pair : CallPair) :
    Ensures (removePair fuel innermost targetParents increments report pair) c
      (fun _ c' => c.Clears c') (fun halt c' => c.Stops halt c') := by
  simp only [removePair, ensures_bind, ensures_liftAction]
  refine Action.poll_spec.imp (fun _ d hd => ?_) (fun _ d hd => Or.inr (hd.2 ▸ .refl c))
  obtain ⟨shutdown, rfl⟩ := hd
  have k := clears_quiet h shutdown
  simp only [ensures_get]
  rw [ensures_liftFault]
  refine ⟨fun refines _ => ?_, fun _ _ => Or.inr k⟩
  exact (removeCachedSubtree_stops (k.sound h) fuel pair.1 pair.2 _ report).imp
    (fun _ _ k' => k.trans h k') (fun _ _ hs => hs.after h k)

theorem removePairs_stops (h : c.Sound) (fuel : Nat) (innermost : NodeId) (targetParents : IdSet)
    (increments : List (Increment Tracked)) (pairs : List CallPair) (report : Report) :
    Ensures (pairs.foldlM (removePair fuel innermost targetParents increments) report) c
      (fun _ c' => c.Clears c') (fun halt c' => c.Stops halt c') := by
  refine Ensures.foldlM (I := fun _ _ d => c.Clears d) (fun pair rest report' d k => ?_) (.refl c)
  exact (removePair_stops (k.sound h) fuel innermost targetParents increments report' pair).imp
    (fun _ _ k' => k.trans h k') (fun _ _ hs => hs.after h k)

theorem removeScheduled_stops (h : c.Sound) (k : c.Clears d) (fuel : Nat) (path : Path)
    (t innermost : NodeId) (increments : List (Increment Tracked)) (pairs : List CallPair)
    (report : Report) : Ensures (removeScheduled fuel path t innermost increments pairs report) d
      (fun _ c' => c.Clears c') (fun halt c' => c.Stops halt c') := by
  simp only [removeScheduled, ensures_bind, ensures_get]
  rw [ensures_liftFault]
  refine ⟨fun n _ => ?_, fun _ _ => Or.inr k⟩
  refine (removePairs_stops (k.sound h) fuel innermost n.parents increments pairs report).imp
    (fun r₁ d₁ k₁ => ?_) (fun _ _ hs => hs.after h k)
  replace k₁ := k.trans h k₁
  rw [ensures_liftAction]
  refine Action.poll_spec.imp (fun _ d₂ hd₂ => ?_) (fun _ d₂ hd₂ => Or.inr (hd₂.2 ▸ k₁))
  obtain ⟨shutdown, rfl⟩ := hd₂
  have k₂ := k₁.trans h (clears_quiet (k₁.sound h) shutdown)
  refine (removeCachedSubtree_stops (k₂.sound h) fuel innermost t increments r₁).imp
    (fun r₃ d₃ k₃ => ?_) (fun _ _ hs => hs.after h k₂)
  replace k₃ := k₂.trans h k₃
  rw [ensures_liftAction]
  exact (removePathEnd_spec (k₃.sound h) path r₃).imp (fun _ _ t₄ => k₃.trans h t₄.1.clears)
    (fun _ _ hd₄ => Or.inr (hd₄ ▸ k₃))

theorem removeTarget_stops (h : c.Sound) (fuel : Nat) (path : Path) (target : PathIndex)
    (t : NodeId) (increments : List (Increment Tracked)) :
    Ensures (removeTarget fuel path target t increments) c
      (fun _ c' => c.Clears c') (fun halt c' => c.Stops halt c') := by
  refine ensures_removeTarget (I := fun _ _ d => c.Clears d) (fun _ _ => Or.inr (.refl c))
    (fun _ _ => .refl c) (fun hcalls _ => ?_) fun {_ innermost hits _} _ _ k => ?_
  · exact (Action.ensureExactHits_spec h path target increments
      (pairsCall_zip (openCallNodes_call hcalls)) _).imp (fun _ _ hd => hd.1.clears h)
        fun _ _ k => Or.inr (k.clears h)
  · exact removeScheduled_stops h k fuel path t innermost increments hits.1 hits.2

theorem repairTarget_stops (h : c.Sound) (fuel : Nat) (path : Path) (target : PathIndex)
    (increments : List (Increment Tracked)) :
    Ensures (repairTarget fuel path target increments) c
      (fun _ c' => c.Clears c') (fun halt c' => c.Stops halt c') := by
  simp only [repairTarget, ensures_bind, ensures_get]
  rw [ensures_liftFault]
  refine ⟨fun t _ => ?_, fun _ _ => Or.inr (.refl c)⟩
  simp only [ensures_ite, ensures_pure]
  exact ⟨fun _ => .refl c, fun _ => removeTarget_stops h fuel path target t increments⟩

theorem repairPath_clears (h : c.Sound) {fuel : Nat} {path : Path} {target : PathIndex}
    {increments : List (Increment Tracked)}
    (hfuel : ∀ c', repairPath fuel path target increments c ≠ .error .outOfFuel c') :
    ∃ d, c.Clears d ∧
      finalState (repairPath fuel path target increments c) = d.finishRepair := by
  have spec := repairTarget_stops h fuel path target increments
  unfold repairPath at hfuel ⊢
  cases hx : repairTarget fuel path target increments c with
  | ok report d => exact ⟨d, spec.of_ok hx, rfl⟩
  | error halt d =>
    rw [hx] at hfuel
    refine ⟨d, ((ensures_of_error hx).1 spec).resolve_left ?_, rfl⟩
    rintro rfl
    exact hfuel _ rfl

end Blockwise
