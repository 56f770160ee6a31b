import Blockwise.Proofs.Repair.OpenCalls
import Blockwise.Proofs.Repair.Removal

/-!
The parts of a repair, each opened once. A removal reads the context before its first change, and a
repair knows all the pairs before its first removal. What is proved of a part is proved from the
rules of this module, without opening the part again.
-/
namespace Blockwise

open Context

variable {c : Context} {s : SetId} {outer node n : NodeId} {r : ReachedSet} {key : Option Key}
  {adjustment : Adjustment Tracked} {increments : List (Increment Tracked)} {fuel : Nat}
  {report : Report} {ok : Report → Context → Prop} {bad : Halt → Context → Prop}

/-! ### A removal with all that was derived from it -/

namespace Context

theorem reachedSetFor_cases (hs : c.reachedSetFor outer = .ok s) :
    s = .topLevel ∨ c.links.setOfEntry outer = some s := by
  unfold reachedSetFor at hs
  obtain ⟨r, -, hs⟩ := except_bind_eq_ok.1 hs
  split at hs
  · cases hs
    exact Or.inl rfl
  · exact Or.inr (ownerReachedSet_eq_ok.1 hs)

theorem stands_of_storedKey (hcall : s ≠ .topLevel → c.Answers outer s) (hr : c.sets[s]? = some r)
    (hkey : c.storedKey outer s r.first = .ok key) : c.Stands s key := by
  unfold storedKey at hkey
  by_cases htop : s = .topLevel
  · rw [if_pos htop] at hkey
    cases hkey
    exact htop
  · rw [if_neg htop] at hkey
    obtain ⟨K, hK, hkey⟩ := except_bind_eq_ok.1 hkey
    obtain ⟨f, hf, hkey⟩ := except_bind_eq_ok.1 hkey
    cases hkey
    obtain ⟨m, b, hm, hb, hpos, r', f', hr', hf', hstate⟩ := hcall htop
    obtain ⟨m', b', hm', hb', hKs, -, -, hblock⟩ := reducedFor_spec hK
    cases Option.some.inj (hm.symm.trans hm')
    cases Option.some.inj (hb.symm.trans hb')
    cases Option.some.inj (hr.symm.trans hr')
    have hlive := Graph.liveNode_eq_ok.1 hf
    cases hlive.unique hf'
    refine ⟨hpos, r, f, hr, hlive, ?_⟩
    have hsame : K.state = f.state := hKs.trans hstate.symm
    rw [hblock, hsame]

/-- What the removal of `node` below `outer` reads. -/
structure Removal (c : Context) (outer node : NodeId) (increments : List (Increment Tracked))
    (s : SetId) (r : ReachedSet) (n : NodeId) (key : Option Key)
    (adjustment : Adjustment Tracked) : Prop where
  index : c.reachedSetFor outer = .ok s
  reached : c.sets[s]? = some r
  inside : c.nodeIn s node = .ok n
  live : ∃ m, c.graph.Live n m
  stored : c.storedKey outer s r.first = .ok key
  adjusted : c.removalAdjustment key n increments = .ok adjustment

theorem Removal.stands (h : c.Removal outer node increments s r n key adjustment)
    (hcall : ∀ {t}, c.links.setOfEntry outer = some t → c.Answers outer t) : c.Stands s key :=
  stands_of_storedKey (fun htop => hcall ((reachedSetFor_cases h.index).resolve_left htop))
    h.reached h.stored

end Context

theorem ensures_removeCachedSubtree (hbad : ∀ halt, bad halt c)
    (hgone : ∀ {s n}, c.nodeIn s node = .ok n → c.graph.isDestroyed n = true →
      ok { report with skipped := report.skipped + 1 } c)
    (hremove : ∀ {s r n key adjustment}, c.Removal outer node increments s r n key adjustment →
      Ensures (Action.removeFromSet s r.first key n adjustment report) c
        (fun report' d => Ensures (removeStaleExpansions fuel ⟨[s], report'⟩) d ok bad)
        fun fault d => bad (.fault fault) d) :
    Ensures (removeCachedSubtree fuel outer node increments report) c ok bad := by
  simp only [removeCachedSubtree, ensures_bind, ensures_get]
  rw [ensures_liftFault]
  refine ⟨fun s hs => ?_, fun _ _ => hbad _⟩
  cases hn : c.nodeIn s node with
  | error halt => exact hbad halt
  | ok n =>
    simp only [ensures_ite, ensures_bind]
    refine ⟨hgone hn, fun hlive => ?_⟩
    rw [ensures_liftFault]
    refine ⟨fun r hr => ?_, fun _ _ => hbad _⟩
    rw [ensures_liftFault]
    refine ⟨fun key hkey => ?_, fun _ _ => hbad _⟩
    rw [ensures_liftFault]
    refine ⟨fun adjustment hadjustment => ?_, fun _ _ => hbad _⟩
    rw [ensures_liftAction]
    exact hremove ⟨hs, reachedSet_eq_ok.1 hr, hn,
      Graph.isDestroyed_eq_false.1 (by simpa using hlive), hkey, hadjustment⟩

theorem Context.Removal.ensures (h : c.Removal outer node increments s r n key adjustment) :
    Ensures (removeCachedSubtree fuel outer node increments report) c ok bad ↔
      Ensures (Action.removeFromSet s r.first key n adjustment report) c
        (fun report' d => Ensures (removeStaleExpansions fuel ⟨[s], report'⟩) d ok bad)
        fun fault d => bad (.fault fault) d := by
  have hlive : ¬ c.graph.isDestroyed n = true := by
    simp [Graph.isDestroyed_eq_false.2 h.live]
  simp only [removeCachedSubtree, ensures_bind, ensures_get]
  rw [ensures_liftFault_of_ok h.index]
  simp only [h.inside, if_neg hlive, ensures_bind]
  rw [ensures_liftFault_of_ok (reachedSet_eq_ok.2 h.reached), ensures_liftFault_of_ok h.stored,
    ensures_liftFault_of_ok h.adjusted, ensures_liftAction]

theorem removeCachedSubtree_of_destroyed (hs : c.reachedSetFor outer = .ok s)
    (hn : c.nodeIn s node = .ok n) (hgone : c.graph.isDestroyed n = true) :
    removeCachedSubtree fuel outer node increments report c =
      .ok { report with skipped := report.skipped + 1 } c := by
  rw [← ensures_eq_ok_iff]
  simp only [removeCachedSubtree, ensures_bind, ensures_get]
  rw [ensures_liftFault_of_ok hs]
  simp only [hn, if_pos hgone, ensures_pure]
  exact ⟨trivial, trivial⟩

/-! ### All the removals of a repair -/

def removeScheduled (fuel : Nat) (path : Path) (targetNode innermost : NodeId)
    (increments : List (Increment Tracked)) (pairs : List CallPair) (report : Report) :
    Repairing Report := do
  let targetParents := (← (← get).graph.node targetNode).parents
  let report ← pairs.foldlM (removePair fuel innermost targetParents increments) report
  Action.poll
  let report ← removeCachedSubtree fuel innermost targetNode increments report
  removePathEnd path report

theorem ensures_removeTarget {path : Path} {target : PathIndex} {targetNode : NodeId}
    {I : List NodeId → List CallPair × Report → Context → Prop}
    (hcalls : ∀ fault, c.openCallNodes path target = .error fault → bad (.fault fault) c)
    (hplain : ∀ {calls}, c.openCallNodes path target = .ok calls → c.cache.aggressive = false →
      I calls ((calls.zip calls.tail).foldl schedule [], { relevantCalls := calls }) c)
    (hexact : ∀ {calls}, c.openCallNodes path target = .ok calls → c.cache.aggressive = true →
      Ensures (Action.ensureExactHits path target increments
        ((calls.zip calls.tail).foldl schedule []) { relevantCalls := calls }) c (I calls)
        fun fault d => bad (.fault fault) d)
    (hremove : ∀ {calls innermost hits d}, c.openCallNodes path target = .ok calls →
      calls.getLast? = some innermost → I calls hits d →
      Ensures (removeScheduled fuel path targetNode innermost increments hits.1 hits.2) d ok bad) :
    Ensures (removeTarget fuel path target targetNode increments) c ok bad := by
  simp only [removeTarget, ensures_bind, ensures_get]
  rw [ensures_liftFault]
  refine ⟨fun calls hc => ?_, hcalls⟩
  rw [ensures_ite_bind]
  refine Ensures.imp (?_ : Ensures _ c (I calls) bad) (fun hits d hd => ?_) fun _ _ => id
  · rw [ensures_ite, ensures_liftAction]
    exact ⟨fun hagg => hexact hc hagg, fun hagg => hplain hc (by simpa using hagg)⟩
  · cases hlast : calls.getLast? with
    | none =>
      -- the call of the whole program is open on every path
      exact absurd (List.getLast?_eq_none_iff.1 hlast) (openCallNodes_ne_nil hc)
    | some innermost => exact hremove hc hlast hd

end Blockwise
