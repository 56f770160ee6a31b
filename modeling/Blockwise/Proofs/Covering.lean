import Blockwise.Proofs.Exploration.Derivation
import Blockwise.Proofs.Exploration.Kept
import Blockwise.Proofs.Repair.Outcome

/-!
Covered nodes. A covered node stands aside: its cover, which no other node covers, is explored in
its place. Exploration covers a node only when it is added, by a node that is not covered, and works
only at nodes that are not covered. A removal takes covered nodes away together with their covers
and lets only nodes wait that had a successor. So runs and repairs keep this, whatever their order
and their outcomes.
-/
namespace Blockwise

open Context

/-! A loop of two locations with a target beside it: the node that comes back to the first location
is covered, and a repair of the target leaves it so. -/

namespace Returning

def program : Program := [⟨0, .skip, 1⟩, ⟨1, .skip, 0⟩, ⟨1, .error, 2⟩]

def start : Context := .start (.ofList []) (.ofList []) { location := 0 } (.ofList []) {}

def repaired : Context :=
  finalState (repairPath 100 ⟨[0, 1, 3]⟩ 2 [] (finalState (run program 100 start)))

end Returning

variable {program : Program} {c c' : Context} {n parent : NodeId} {p : Node State Tracked}
  {r : ReachedSet} {s t : SetId} {node : NodeId} {roots : List NodeId}

namespace Context

/-- Nothing is done at `n`: it has no successors, does not wait and is linked to no result. -/
structure Aside (c : Context) (n : NodeId) : Prop where
  childless : ∀ k, ¬ c.graph.Edge n k
  idle : ¬ c.Waits n
  unlinked : c.links.setOfEntry n = none

structure Covering (c : Context) : Prop extends Sound c where
  covers : ∀ {n m k}, c.graph.Live n m → m.coveredBy = some k → c.CoversAs k m.set m.state
  aside : ∀ {n m k}, c.graph.Live n m → m.coveredBy = some k → c.Aside n

namespace Covering

theorem free_of_waits (hc : c.Covering) (hn : c.Waits n) : c.Free n := by
  obtain ⟨s, r, hr, hmem⟩ := hn
  obtain ⟨m, hm, -⟩ := hc.live_of_mem hr ((hc.waitlist hr).2 n hmem)
  refine ⟨m, hm, ?_⟩
  cases hcover : m.coveredBy with
  | none => rfl
  | some k => exact absurd ⟨s, r, hr, hmem⟩ (hc.aside hm hcover).idle

theorem carry (hc : c.Covering) (hs : c'.Sound)
    (covered : ∀ {n m' k}, c'.graph.Live n m' → m'.coveredBy = some k →
      ∃ m, c.graph.Live n m ∧ m.coveredBy = some k ∧ m'.set = m.set ∧ m'.state = m.state)
    (cover : ∀ {n m' k set state}, c'.graph.Live n m' → m'.coveredBy = some k →
      c.CoversAs k set state → c'.CoversAs k set state)
    (aside : ∀ {n m k}, c.graph.Live n m → m.coveredBy = some k → c.Aside n → c'.Aside n) :
    c'.Covering where
  toSound := hs
  covers := by
    intro n m' k hm' hk
    obtain ⟨m, hm, hk₀, hset, hstate⟩ := covered hm' hk
    rw [hset, hstate]
    exact cover hm' hk (hc.covers hm hk₀)
  aside := by
    intro n m' k hm' hk
    obtain ⟨m, hm, hk₀, -⟩ := covered hm' hk
    exact aside hm hk₀ (hc.aside hm hk₀)

theorem carry_graph (hc : c.Covering) (hs : c'.Sound) (hg : c'.graph = c.graph)
    (hw : ∀ n, c'.Waits n → c.Waits n)
    (hl : ∀ n, (∃ m k, c.graph.Live n m ∧ m.coveredBy = some k) → c.links.setOfEntry n = none →
      c'.links.setOfEntry n = none) : c'.Covering := by
  refine hc.carry hs (fun {n m' k} hm hk => ?_) (fun {n m' k set state} _ _ hcover => ?_)
    fun {n m k} hm hk ha => ⟨?_, fun hn => ha.idle (hw n hn), hl n ⟨m, k, hm, hk⟩ ha.unlinked⟩
  · exact ⟨m', hg ▸ hm, hk, rfl, rfl⟩
  · unfold CoversAs
    rwa [hg]
  · rw [hg]
    exact ha.childless

theorem quiet (hc : c.Covering) (statistics : Statistics) (shutdown : Shutdown) :
    Covering { c with statistics, shutdown } :=
  hc.carry_graph (Grows.sound_quiet hc.toSound statistics shutdown) rfl (fun _ => id) fun _ _ => id

/-! ### Exploration -/

theorem addReachedSet (hc : c.Covering) {state : State} {precision : Tracked}
    (hs : (c.addReachedSet state precision).Sound) :
    (c.addReachedSet state precision).Covering := by
  refine hc.carry hs (fun {n m' k} hm hk => ?_) (fun {n m' k set state} _ _ hcover => ?_)
    fun {n m k} hm hk ha => ⟨fun j he => ?_, fun hn => ?_, ha.unlinked⟩
  · rcases live_addReachedSet_iff.1 hm with ⟨-, rfl⟩ | hm
    · cases hk
    · exact ⟨m', hm, hk, rfl, rfl⟩
  · obtain ⟨mk, hmk, hset, hfree, hstate⟩ := hcover
    exact ⟨mk, live_addReachedSet_iff.2 (Or.inr hmk), hset, hfree, hstate⟩
  · obtain ⟨m', hm', hj⟩ := he
    rcases Graph.node?_addNode_eq_some_iff.1 hm' with ⟨-, rfl⟩ | hm'
    · exact absurd hj (SortedSet.not_mem_empty j)
    · exact ha.childless j ⟨m', hm', hj⟩
  · rcases waits_addReachedSet hn with hn | hge
    · exact ha.idle hn
    · exact absurd hm.lt_size (Nat.not_lt.2 hge)

theorem cacheSet (hc : c.Covering) {K : Key} (hK : K.block = K.state.location) :
    (c.cacheSet K).Covering :=
  (hc.addReachedSet (hc.toSound.addReachedSet K.state K.precision)).carry_graph
    (hc.toSound.cacheSet hK) rfl (fun _ => id) fun _ _ => id

theorem unlinked_linkEntry (hn : c.Free n) (k : NodeId)
    (hk : ∃ m a, c.graph.Live k m ∧ m.coveredBy = some a) (hno : c.links.setOfEntry k = none) :
    (c.links.linkEntry n t).setOfEntry k = none := by
  obtain ⟨m, a, hm, ha⟩ := hk
  obtain ⟨m', hm', hfree⟩ := hn
  rw [Links.setOfEntry_linkEntry, if_neg ?_, hno]
  rintro rfl
  cases hm.unique hm'
  rw [ha] at hfree
  cases hfree

theorem resolve (hc : c.Covering) (hn : c.Free n) (st : Resolves n c t c') : c'.Covering := by
  have hs := (st.spec hc.toSound).1
  cases st with
  | stored => exact hc.carry_graph hs rfl (fun _ => id) (unlinked_linkEntry hn)
  | similar => exact hc.carry_graph hs rfl (fun _ => id) (unlinked_linkEntry hn)
  | @fresh p K hp ht hK =>
    obtain ⟨-, -, -, -, -, -, -, hblock⟩ := reducedFor_spec hK
    obtain ⟨m, hm, hfree⟩ := hn
    have hn' : (c.cacheSet K).Free n := ⟨m, live_addReachedSet_iff.2 (Or.inr hm), hfree⟩
    exact (hc.cacheSet hblock).carry_graph hs rfl (fun _ => id) (unlinked_linkEntry hn')

theorem sprout (hc : c.Covering) (hn : c.Free parent) {state : State} {cover : Option NodeId}
    (hf : c.Fertile parent p r cover)
    (hcover : ∀ k, cover = some k → c.CoversAs k p.set state) :
    (c.sprout parent p r state cover).Covering := by
  have e : c.Extends (c.sprout parent p r state cover) := extends_sprout hf
  have hparent : ∀ {m k}, c.graph.Live parent m → m.coveredBy ≠ some k := by
    intro m k hm hk
    obtain ⟨m', hm', hfree⟩ := hn
    cases hm.unique hm'
    rw [hk] at hfree
    cases hfree
  refine ⟨hc.toSound.sprout hf, fun {n m k} hm hk => ?_, fun {n m k} hm hk => ?_⟩
  · rcases (live_sprout_iff hf).1 hm with ⟨-, rfl⟩ | ⟨m₀, hm₀, rfl⟩
    · exact e.coversAs (hcover k hk)
    · have hold : c.CoversAs k m₀.set m₀.state := hc.covers hm₀ hk
      exact e.coversAs hold
  · rcases (live_sprout_iff hf).1 hm with ⟨rfl, rfl⟩ | ⟨m₀, hm₀, rfl⟩
    · -- The new node is covered, so it is added without waiting.
      refine ⟨fun j he => ?_, ?_, ?_⟩
      · rcases (Graph.edge_sprout hf.parent_lt hf.cover_lt).1 he with ⟨m, hm, -⟩ | ⟨heq, -⟩
        · exact Nat.lt_irrefl _ (Graph.lt_size_of_node? hm)
        · exact Nat.ne_of_gt hf.parent_lt heq
      · rintro ⟨t, q, hq, hmem⟩
        obtain ⟨q₀, hq₀, -, -, -, hw | ⟨-, hnone, -⟩⟩ := mem_of_sets_sprout hf hq
        · exact Nat.lt_irrefl _ (hc.lt_of_waits ⟨t, q₀, hq₀, hw ▸ hmem⟩)
        · rw [show cover = some k from hk] at hnone
          cases hnone
      · cases hs : c.links.setOfEntry c.graph.size with
        | none => exact hs
        | some t =>
          obtain ⟨m, -, -, -, hm, -⟩ := hc.call hs
          exact absurd (Graph.lt_size_of_node? hm) (Nat.lt_irrefl _)
    · have ha := hc.aside hm₀ hk
      refine ⟨fun j he => ?_, fun hw => ?_, ha.unlinked⟩
      · rcases (Graph.edge_sprout hf.parent_lt hf.cover_lt).1 he with he | ⟨rfl, -⟩
        · exact ha.childless j he
        · exact hparent hm₀ hk
      · rcases waits_sprout hf hw with hw | hge
        · exact ha.idle hw
        · exact absurd hm₀.lt_size (Nat.not_lt.2 hge)

theorem unfold (hc : c.Covering) (hn : c.Free n) (st : Unfolds program n c c') : c'.Covering := by
  have hs := (st.spec hc.toSound).1
  cases st with
  | @successor p r state precision next cover hp hr ht hmem hcover =>
    refine hc.sprout hn (fertile_of_findCover hc.toStructured hp hr hcover) ?_
    rintro k rfl
    obtain ⟨hk, mk, hmk, hfree, hstate⟩ := Graph.findCover_spec hcover
    obtain ⟨mk', hmk', hset⟩ := hc.live_of_mem hr hk
    cases hmk.unique hmk'
    exact ⟨mk, hmk, hset, hfree, hstate⟩
  | @expand p m r t x b hp hr =>
    have hf : c.Fertile n p r none := ⟨hp, hr, by simp⟩
    exact (hc.sprout hn hf (by simp)).carry_graph hs rfl (fun _ => id) fun _ _ => id
  | record => exact hc.carry_graph hs rfl (fun _ => id) fun _ _ => id

theorem stepsKeep (program : Program) : StepsKeep program Covering where
  free := fun _ _ hc hn => hc.free_of_waits hn
  quiet := fun _ statistics shutdown _ hc => hc.quiet statistics shutdown
  pop := fun _ _ _ h hc hr => hc.carry_graph (Grows.sound_pop h hr).1 rfl
    (fun _ hn => Grows.waits_pop h.toStructured hr hn) fun _ _ => id
  resolve := fun _ _ _ _ _ hc hn st => hc.resolve hn st
  unfold := fun _ _ _ _ hc hn st => hc.unfold hn st

/-! ### Removal -/

end Covering

theorem Cuttable.waits_of_cut {root : NodeId} {gone : IdSet} {adjustment : Adjustment Tracked}
    (hc : c.Cuttable s r root gone) (h : c.Structured)
    (hn : (c.cut s r adjustment gone).Waits n) : c.Waits n ∨ ∃ k, c.graph.Edge n k := by
  obtain ⟨t, q, hq, hmem⟩ := hn
  obtain ⟨q', -, -, hmem', hwait, hsets⟩ := sets_cut adjustment gone hc.set
  by_cases hst : s = t
  · subst hst
    have hq' := (hsets s).symm.trans hq
    rw [if_pos rfl] at hq'
    cases hq'
    obtain ⟨hnd, hsub⟩ := h.waitlist hc.set
    have hkept := ((hmem' n).1 ((hwait hnd hsub).2 n hmem)).2
    rcases (mem_waitlist_cut hc.set hq hkept).1 hmem with hw | ⟨hfrontier, -⟩
    · exact Or.inl ⟨s, r, hc.set, hw⟩
    · obtain ⟨-, b, -, hb⟩ := Region.mem_frontier.1 hfrontier
      exact Or.inr ⟨b, h.graph.edge_iff.2 hb⟩
  · rw [hsets, if_neg hst] at hq
    exact Or.inl ⟨t, q, hq, hmem⟩

namespace Covering

theorem sheds (hc : c.Covering) (st : c.Sheds s node c') : c'.Covering := by
  have hs := st.sound hc.toSound
  cases st with
  | none => exact hc
  | @cut r root gone adjustment cache hcut =>
    refine hc.carry hs (fun {n m' k} hm' hk => ?_) (fun {n m' k set state} hm' hk hcover => ?_)
      fun {n m k} hm hk ha => ⟨fun j he => ?_, fun hw => ?_, ha.unlinked⟩
    · obtain ⟨m, hm, -, rfl⟩ := (live_cut_iff (s := s)).1 hm'
      exact ⟨m, hm, (Graph.coveredBy_cutOut.1 hk).1, Graph.set_cutOut, Graph.state_cutOut⟩
    · obtain ⟨m, -, -, rfl⟩ := (live_cut_iff (s := s)).1 hm'
      obtain ⟨mk, hmk, hset, hfree, hstate⟩ := hcover
      have hkept := (Graph.coveredBy_cutOut.1 hk).2.2
      refine ⟨_, (live_cut_iff (s := s)).2 ⟨mk, hmk, by simpa using hkept, rfl⟩,
        Graph.set_cutOut.trans hset, ?_, Graph.state_cutOut.trans hstate⟩
      refine Option.eq_none_iff_forall_ne_some.2 fun a ha => ?_
      rw [(Graph.coveredBy_cutOut.1 ha).1] at hfree
      cases hfree
    · exact ha.childless j ((Graph.edge_of_cutOut (node?_cut (s := s))).1 he).1
    · rcases hcut.waits_of_cut hc.toStructured hw with hw | ⟨j, he⟩
      · exact ha.idle hw
      · exact ha.childless j he

theorem shrinks (hc : c.Covering) (g : Shrinks c roots c') : c'.Covering := by
  induction g with
  | start => exact hc
  | quiet _ statistics shutdown ih => exact ih.quiet statistics shutdown
  | forgetReturns _ K ih =>
    exact ih.carry_graph (Shrinks.sound_removeReturnEntry ih.toSound K) rfl (fun _ => id)
      fun _ _ => id
  | forgetEntry _ K ih =>
    exact ih.carry_graph (Shrinks.sound_removeBlockEntry ih.toSound K) rfl (fun _ => id)
      fun _ _ => id
  | fresh _ hK _ ih => exact ih.cacheSet hK
  | remove _ rm ih => exact ih.sheds rm
  | stale _ _ _ rm ih => exact ih.sheds rm

theorem finishRepair (hc : c.Covering) : c.finishRepair.Covering :=
  hc.carry_graph hc.toSound.finishRepair rfl (fun _ => id) fun n _ hno => by
    change (c.links.prune _).setOfEntry n = none
    rw [Links.setOfEntry_prune, hno]
    rfl

theorem start (partitioning : Partitioning) (reducer : Reducer) (state : State)
    (precision : Tracked) (options : Options) :
    (Context.start partitioning reducer state precision options).Covering := by
  have hs := sound_start partitioning reducer state precision options
  have hfree : ∀ {n m k},
      (Context.start partitioning reducer state precision options).graph.Live n m →
        m.coveredBy ≠ some k := by
    intro n m k hm
    rw [(hs.head hm (heads_of_live_start hm)).2]
    simp
  exact ⟨hs, fun hm hk => absurd hk (hfree hm), fun hm hk => absurd hk (hfree hm)⟩

end Covering

end Context

/-! ### Runs and repairs in any order -/

/-- The contexts that runs and repairs lead to, in any order and whatever their outcomes. -/
inductive Alternated : Context → Prop
  | start (partitioning : Partitioning) (reducer : Reducer) (state : State) (precision : Tracked)
      (options : Options) : Alternated (.start partitioning reducer state precision options)
  | flag {c : Context} (a : Alternated c) (shutdown : Shutdown) : Alternated { c with shutdown }
  | run {c : Context} (a : Alternated c) (program : Program) (fuel : Nat) :
      Alternated (finalState (run program fuel c))
  | repair {c : Context} (a : Alternated c) (fuel : Nat) (path : Path) (target : PathIndex)
      (increments : List (Increment Tracked)) :
      Alternated (finalState (repairPath fuel path target increments c))

theorem Alternated.covering (a : Alternated c) : c.Covering := by
  induction a with
  | start partitioning reducer state precision options => exact .start ..
  | @flag c a shutdown ih => exact ih.quiet c.statistics shutdown
  | run a program fuel ih =>
    exact keeps_of_stepsKeep (Covering.stepsKeep program) fuel ih.toSound ih
  | repair a fuel path target increments ih =>
    obtain ⟨roots, d, g, hd⟩ := repairPath_shrinks ih.toSound fuel path target increments
    rw [hd]
    exact (ih.shrinks g).finishRepair

/-- A covered node has a live cover of its set with the same state, which is not covered itself;
nothing is done at the covered node. -/
theorem covered_aside (a : Alternated c) {m : Node State Tracked} {k : NodeId}
    (hm : c.graph.Live n m) (hk : m.coveredBy = some k) :
    (∃ mk, c.graph.Live k mk ∧ mk.set = m.set ∧ mk.state = m.state ∧ mk.coveredBy = none) ∧
      m.children = ∅ ∧ (∀ (s : SetId) r, c.sets[s]? = some r → n ∉ r.waitlist) ∧
      c.links.setOfEntry n = none := by
  obtain ⟨mk, hmk, hset, hfree, hstate⟩ := a.covering.covers hm hk
  have ha := a.covering.aside hm hk
  refine ⟨⟨mk, hmk, hset, hstate, hfree⟩, ?_, fun s r hr hn => ha.idle ⟨s, r, hr, hn⟩, ha.unlinked⟩
  refine SortedSet.ext fun j => ⟨fun hj => ?_, fun hj => absurd hj (SortedSet.not_mem_empty j)⟩
  exact absurd ⟨m, hm.1, hj⟩ (ha.childless j)

theorem loop_covered_aside : Alternated Returning.repaired ∧ ∃ m,
    Returning.repaired.graph.Live 2 m ∧ m.coveredBy = some 0 ∧
      (∃ mk, Returning.repaired.graph.Live 0 mk ∧ mk.set = m.set ∧ mk.state = m.state ∧
        mk.coveredBy = none) ∧
      m.children = ∅ ∧ (∀ (s : SetId) r, Returning.repaired.sets[s]? = some r → 2 ∉ r.waitlist) ∧
      Returning.repaired.links.setOfEntry 2 = none := by
  have a : Alternated Returning.repaired := .repair (.run (.start ..) Returning.program 100) ..
  have hcovered : (Returning.repaired.graph.node? 2).map (fun m => (m.destroyed, m.coveredBy)) =
      some (false, some 0) := by decide +kernel
  obtain ⟨m, hm, he⟩ := Option.map_eq_some_iff.1 hcovered
  obtain ⟨hlive, hk⟩ := Prod.mk.inj he
  exact ⟨a, m, ⟨hm, hlive⟩, hk, covered_aside a ⟨hm, hlive⟩ hk⟩

end Blockwise
