import Blockwise.Proofs.Context.Placed
import Blockwise.Proofs.Exploration.Expansions
import Blockwise.Proofs.Operations

/-!
Every exit is expanded exactly once at each call. Which exits have a view below a call node is read
off its children and their links. Runs and single operations add both together, and repairs take
children and links away, but add none. So over any history below one node an exit has one view at
most, and an expansion adds just the views that are missing.
-/
namespace Blockwise

open Context

variable {c c' : Context} {n : NodeId} {p : Node State Tracked} {s : SetId} {K : Key}

/-! ### Repairs -/

namespace Action

theorem within_removeSubtree (s : SetId) (node : NodeId) (adjustment : Adjustment Tracked) :
    Maintains c.Within (removeSubtree s node adjustment) := by
  intro d w
  cases hr : d.reachedSet s with
  | error fault =>
    simp only [Ensures, removeSubtree, hr]
    exact w
  | ok r =>
    rw [ensures_removeSubtree (reachedSet_eq_ok.1 hr)]
    refine Region.maintains_removeSubtree (P := fun region => c.Within (d.putRegion s region))
      (fun plan region w => ?_) node ⟨d.graph, r⟩ ⟨w.size, w.edge, w.exit⟩
    have hcut : region.graph.Maps
        (Graph.cutOut (· ∈ plan.removed) (Region.reprice adjustment plan.frontier))
        (Region.applyRemoval adjustment plan region).graph := Region.node?_applyRemoval
    have hsize : region.graph.size ≤ (Region.applyRemoval adjustment plan region).graph.size :=
      Nat.le_of_not_lt fun hlt => Nat.lt_irrefl _ (hcut.lt_size hlt)
    exact ⟨w.size.trans hsize, fun he => w.edge ((Graph.edge_of_cutOut hcut).1 he).1, w.exit⟩

end Action

theorem removalsKeep_within : RemovalsKeep c.Within where
  rest := fun _ _ _ _ w => ⟨w.size, w.edge, w.exit⟩
  remove := Action.within_removeSubtree
  fresh := by
    intro K d w
    rw [ensures_of_ok (Action.cacheNewSet_eq_ok d K)]
    exact within_cacheSet w K

theorem within_repairPath (fuel : Nat) (path : Path) (target : PathIndex)
    (increments : List (Increment Tracked)) :
    Maintains c.Within (repairPath fuel path target increments) := by
  refine removalsKeep_within.repairPath (fun d w => ⟨w.size, w.edge, fun {e x} hx => ?_⟩) fuel path
    target increments
  exact w.exit (Links.reducedOf_of_prune hx)

theorem unrepeated_repairPath (h : c.Regular) (u : c.Unrepeated) (fuel : Nat) (path : Path)
    (target : PathIndex) (increments : List (Increment Tracked)) :
    (finalState (repairPath fuel path target increments c)).Unrepeated := by
  have w := (within_repairPath fuel path target increments).final (.refl c)
  have hsteps : ∃ report, ResultSteps increments ({}, c)
      (report, finalState (repairPath fuel path target increments c)) :=
    Ensures.final (p := fun d => ∃ report, ResultSteps increments ({}, c) (report, d))
      ((traces_repairPath fuel path target increments c (.start h)).imp
        (fun report _ t => ⟨report, t.steps⟩) fun _ _ ⟨report, t⟩ => ⟨report, t.steps⟩)
  obtain ⟨report, steps⟩ := hsteps
  refine u.within w fun {K s} hs => ?_
  have hrefines : ∃ q, c.Refines increments K.block q := by
    rcases steps.source hs with hs | ⟨hp, -⟩
    · obtain ⟨b, hb⟩ := u.block hs
      exact ⟨_, b, ∅, hb, rfl⟩
    · exact ⟨_, steps.refines_iff.1 hp⟩
  obtain ⟨q, hq⟩ := hrefines
  obtain ⟨b, -, hb, -⟩ := steps.refines_iff.2 hq
  exact ⟨b, hb⟩

/-! ### All operations -/

theorem unrepeated_start (partitioning : Partitioning) (reducer : Reducer) (state : State)
    (precision : Tracked) (options : Options) :
    (Context.start partitioning reducer state precision options).Unrepeated := by
  refine Action.unrepeated_newReachedSet ⟨?_, ?_, ?_⟩ state precision
  · rintro a x e e' ⟨he, -⟩
    obtain ⟨m, hm, -⟩ := he
    cases hm
  · intro e x hx
    cases hx
  · intro K s hs
    cases hs

theorem Operated.unrepeated (o : Operated c) : c.Unrepeated := by
  induction o with
  | start partitioning reducer state precision options =>
    exact unrepeated_start partitioning reducer state precision options
  | @flag c o shutdown ih => exact ih.quiet c.sets c.statistics shutdown
  | run o program fuel ih => exact unrepeated_run program fuel o.regular ih
  | newReachedSet o state precision ih => exact Action.unrepeated_newReachedSet ih state precision
  | addSuccessor o parent state ih =>
    exact (Action.unrepeated_addSuccessor o.regular.toStructured ih parent state).final
  | resolveCall o callNode ih => exact (Action.unrepeated_resolveCall callNode).final ih
  | expandBlockExits o callNode set ih =>
    exact (Action.unrepeated_expandBlockExits o.regular.toStructured ih callNode set).final
  | repair o fuel path target increments ih =>
    exact unrepeated_repairPath o.regular ih fuel path target increments

/-! ### One expansion -/

namespace Context

structure ViewsExit (c : Context) (n : NodeId) (p : Node State Tracked) (b : Block) (x e : NodeId) :
    Prop where
  child : c.ExpandedAt n x e
  shown : ∃ mx m, c.graph.Live x mx ∧ c.graph.Live e m ∧
    m.state = c.reducer.expand p.state b mx.state ∧ m.precision = p.precision ∧ m.set = p.set
  waits : ∃ r, c.sets[p.set]? = some r ∧ e ∈ r ∧ e ∈ r.waitlist

/-- The exits without a view below `n` get one, in ascending order. -/
structure ExpandsOnce (c : Context) (n : NodeId) (p : Node State Tracked) (b : Block)
    (exits nodes : List NodeId) (c' : Context) : Prop where
  added : ∃ fresh : List NodeId, fresh.Pairwise (· < ·) ∧
    (∀ x, x ∈ fresh ↔ x ∈ exits ∧ ∀ e, ¬ c.ExpandedAt n x e) ∧
    nodes = List.range' c.graph.size fresh.length ∧
    ∀ x e, (x, e) ∈ fresh.zip nodes → c'.ViewsExit n p b x e
  size : c'.graph.size = c.graph.size + nodes.length
  once : ∀ x ∈ exits, ∃! e, c'.ExpandedAt n x e
  live : ∀ x e, c'.ExpandedAt n x e → ∃ m, c'.graph.Live e m

theorem Grafts.viewsExit {fresh nodes : List NodeId} {b : Block} (g : c.Grafts n fresh nodes c')
    (h' : c'.Structured) (hp : c.graph.Live n p)
    (hb : c.partitioning.block? p.state.location = some b) {x e : NodeId}
    (he : (x, e) ∈ fresh.zip nodes) : c'.ViewsExit n p b x e := by
  obtain ⟨p', b', mx, m, r, hp', hb', hx, hm, hstate, hprec, hset, hr, hw⟩ := g.views he
  obtain ⟨q, hq, hps, hpp, hpset, -⟩ := g.extension.node hp
  cases hp'.unique hq
  rw [g.extension.evolves.partitioning, hps, hb] at hb'
  cases hb'
  exact {
    child := g.expandedAt_iff.2 (Or.inr ⟨rfl, he⟩)
    shown := ⟨mx, m, hx, hm, hps ▸ hstate, hprec.trans hpp, hset.trans hpset⟩
    waits := ⟨r, hpset ▸ hr, (h'.waitlist hr).2 e hw, hw⟩ }

theorem Grafts.blockExits {exits fresh nodes : List NodeId} (g : c.Grafts n fresh nodes c')
    (hp : c.graph.Live n p) (hout : p.set ≠ s)
    (hexits : c.blockExits s = .ok exits) : c'.blockExits s = .ok exits := by
  obtain ⟨r, f, b, hr, hf, hb, hlive, rfl⟩ := blockExits_eq_ok.1 hexits
  obtain ⟨f', hf', hfs, -⟩ := g.extension.node hf
  refine blockExits_eq_ok.2 ⟨r, f', b, (g.others hp hout).trans hr, hf', ?_, fun x hx => ?_, ?_⟩
  · rw [g.extension.evolves.partitioning, hfs, hb]
  · obtain ⟨m, hm⟩ := hlive x hx
    obtain ⟨m', hm', -⟩ := g.extension.node hm
    exact ⟨m', hm'⟩
  · refine List.filter_congr fun x hx => ?_
    obtain ⟨m, hm⟩ := hlive x hx
    obtain ⟨m', hm', hms, -⟩ := g.extension.node hm
    rw [stateAt_iff hm, stateAt_iff hm', hms]

end Context

theorem Action.expandBlockExits_of_expanded {exits : List NodeId}
    (hn : ∃ p, c.graph.Live n p) (hexits : c.blockExits s = .ok exits) (hK : c.keyOf s = .ok K)
    (hall : ∀ x ∈ exits, ∃ e, c.ExpandedAt n x e) :
    expandBlockExits n s c = .ok [] { c with cache := c.cache.setReturnEntry K exits } := by
  obtain ⟨p, hp⟩ := hn
  have hnone : exits.filter (· ∉ p.children.toList.filterMap c.links.reducedOf) = [] := by
    refine List.filter_eq_nil_iff.2 fun x hx => ?_
    obtain ⟨e, ⟨m, hm, he⟩, hlink⟩ := hall x hx
    cases Option.some.inj (hm.symm.trans hp.1)
    simpa using ⟨e, he, hlink⟩
  rw [← ensures_eq_ok_iff]
  simp only [expandBlockExits, ensures_bind, ensures_get, ensures_lift_of_ok hexits,
    ensures_lift_of_ok hK, ensures_lift_of_ok (Graph.liveNode_eq_ok.2 hp), hnone, List.mapM_nil,
    ensures_pure, modifyCache, ensures_modify, and_self]

/-- Whatever was done before, the expansion of a cached result at a call node adds a view for each
exit that has none there. -/
theorem every_exit_expanded_once (o : Operated c) (hp : c.graph.Live n p)
    (hcall : c.partitioning.isCallNode p.state.location = true)
    (hs : c.cache.lookup K = some s) (hout : ∀ r, c.sets[s]? = some r → n ∉ r) :
    ∃ b exits nodes c', c.partitioning.block? p.state.location = some b ∧
      c.blockExits s = .ok exits ∧ c.keyOf s = .ok K ∧
      Action.expandBlockExits n s c = .ok nodes c' ∧ c.ExpandsOnce n p b exits nodes c' ∧
      (c'.blockExits s = .ok exits ∧ c'.keyOf s = .ok K ∧ c'.cache.returnEntry K = some exits) ∧
      ∃ c'', Action.expandBlockExits n s c' = .ok [] c'' ∧ c''.graph = c'.graph ∧
        c''.sets = c'.sets ∧ c''.links = c'.links := by
  have h := o.regular
  have u := o.unrepeated
  obtain ⟨b, hb⟩ := Table.contains_eq_true_iff.1 hcall
  -- the result starts a block, so its exits and its key are told
  obtain ⟨hpos, hkey, -⟩ := h.stored hs
  obtain ⟨exits, hexits⟩ : ∃ exits, c.blockExits s = .ok exits := by
    obtain ⟨r, f, hr, hf, rfl⟩ := hkey
    obtain ⟨b', hb'⟩ := u.block hs
    exact exists_blockExits h.toStructured ⟨r, f, b', hr, hf, hb'⟩
  have hset : p.set ≠ s := by
    rintro rfl
    obtain ⟨r, hr, hn⟩ := h.set_of_live hp
    exact hout r hr hn
  have hK := keyOf_eq_ok.2 hkey
  have spec := Action.expandBlockExits_grafts h.toStructured u hp hb hexits hK
  obtain ⟨nodes, c', hok⟩ : ∃ nodes c', Action.expandBlockExits n s c = .ok nodes c' := by
    cases hres : Action.expandBlockExits n s c with
    | ok nodes c' => exact ⟨nodes, c', rfl⟩
    | error fault c' => exact ((ensures_of_error hres).1 spec).elim
  obtain ⟨fresh, d, hsorted, hfresh, hd, g, rfl⟩ := spec.of_ok hok
  have hunique : d.Unrepeated :=
    g.unrepeated u (hsorted.imp Nat.ne_of_lt) fun x hx => ((hfresh x).1 hx).2
  have hviews : ∀ x ∈ exits, ∃ e, d.ExpandedAt n x e := fun x hx => g.exists_expandedAt hfresh hx
  have hlen : nodes.length = fresh.length := g.length_eq
  have hexits' := g.blockExits hp hset hexits
  have hK' := keyOf_eq_ok.2 (g.extension.hasKey hkey)
  have hnode : ∃ p, d.graph.Live n p := by
    obtain ⟨p', hp', -⟩ := g.extension.node hp
    exact ⟨p', hp'⟩
  refine ⟨b, exits, nodes, _, hb, hexits, hK, hok, ?_, ⟨hexits', hK', ?_⟩, ?_⟩
  · exact {
      added := ⟨fresh, hsorted, hfresh, g.nodes_eq, fun x e he =>
        have v := g.viewsExit hd hp hb he
        ⟨v.child, v.shown, v.waits⟩⟩
      size := by rw [hlen, ← g.size]
      once := fun x hx => by
        obtain ⟨e, he⟩ := hviews x hx
        exact ⟨e, he, fun e' he' => hunique.once he' he⟩
      live := fun x e he => by
        obtain ⟨-, m, -, hm, -⟩ := hd.live_of_edge he.1
        exact ⟨m, hm⟩ }
  · exact (Cache.returnEntry_setReturnEntry exits).trans (if_pos rfl)
  · exact ⟨_, Action.expandBlockExits_of_expanded hnode hexits' hK' hviews, rfl, rfl, rfl⟩

theorem Relinking.lost_view_expanded_once : ∃ p b c', Operated repaired ∧ repaired.graph.Live 1 p ∧
    repaired.blockExits 1 = .ok [3, 4] ∧ Action.expandBlockExits 1 1 repaired = .ok [12] c' ∧
    repaired.ExpandsOnce 1 p b [3, 4] [12] c' := by
  have o : Operated repaired := .repair (.run (.start ..) program 100) 100 path 4 increments
  obtain ⟨p, hp⟩ : ∃ p, repaired.graph.Live 1 p :=
    Graph.isDestroyed_eq_false.1 (by decide +kernel)
  have hcall : repaired.partitioning.isCallNode p.state.location = true := by
    have hat : repaired.stateAt 1 fun s => repaired.partitioning.isCallNode s.location := by
      decide +kernel
    rwa [stateAt_iff hp] at hat
  have hout : ∀ r, repaired.sets[1]? = some r → 1 ∉ r := by
    intro r hr hn
    have hno : (repaired.sets[1]?).any (1 ∈ ·) = false := by decide +kernel
    rw [hr, Option.any_some, decide_eq_false_iff_not] at hno
    exact hno hn
  have hcached : repaired.cache.lookup ⟨{ location := 1 }, .ofList ["x"], 1⟩ = some 1 := by
    decide +kernel
  obtain ⟨b, exits, nodes, c', -, hexits, -, hok, honce, -⟩ :=
    every_exit_expanded_once o hp hcall hcached hout
  have hboth : repaired.blockExits 1 = .ok [3, 4] := by decide +kernel
  have hnew : value? (Action.expandBlockExits 1 1 repaired) = some [12] := by decide +kernel
  cases Except.ok.inj (hboth.symm.trans hexits)
  rw [hok] at hnew
  cases Option.some.inj hnew
  exact ⟨p, b, c', o, hp, hexits, hok, honce⟩

end Blockwise
