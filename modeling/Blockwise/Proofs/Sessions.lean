import Blockwise.Proofs.RecordedExits
import Blockwise.Proofs.Repair.Outcome

/-!
Analysis sessions. When all runs come before all repairs, the consistency check passes after every
repair, also after one that was interrupted or failed. When runs follow repairs, a run may link a
call node anew above nodes that were expanded from the result of its old link; then the check fails.
There is one other way for it to fail, with an aggressive cache only: exits of one result stand
recorded under the key of another.
-/
namespace Blockwise

open Context

/-! A small session: the program has two nested blocks, and the refinement adds `y` to the precision
of the outer one, where the inner call was expanded before. -/

namespace Relinking

def program : Program :=
  [⟨0, .skip, 1⟩, ⟨1, .assign "x" 0, 2⟩, ⟨1, .assign "x" 1, 2⟩, ⟨2, .assume "x" 0 true, 4⟩,
    ⟨4, .error, 5⟩]

def start : Context :=
  .start (.ofList [.of 1 [] [2], .of 2 [] [3]]) (.ofList [(1, ["x", "y"]), (2, ["x"])])
    { location := 0 } (.ofList ["x"]) {}

def explored : Context := finalState (run program 100 start)

def path : Path := ⟨[0, 1, 5, 8, 10]⟩

def increments : List (Increment Tracked) := [Tracked.increment (.ofList ["x", "y"])]

def repaired : Context := finalState (repairPath 100 path 4 increments explored)

def exploredAgain : Context := finalState (run program 100 repaired)

end Relinking

section

variable {program : Program} {c c' d : Context} {cs : List Context}

/-! ### Runs, then repairs -/

/-- The contexts that runs lead to, wherever they stop. -/
inductive Explored (program : Program) : Context → Prop
  | start (partitioning : Partitioning) (reducer : Reducer) (state : State) (precision : Tracked)
      (options : Options) :
      Explored program (.start partitioning reducer state precision options)
  | run {c : Context} (e : Explored program c) (shutdown : Shutdown) (fuel : Nat) :
      Explored program (finalState (run program fuel { c with shutdown }))

/-- The contexts that runs and then repairs lead to, wherever they stop. -/
inductive Maintained (program : Program) : Context → Prop
  | explored {c : Context} (e : Explored program c) : Maintained program c
  | repair {c : Context} (m : Maintained program c) (shutdown : Shutdown) (fuel : Nat) (path : Path)
      (target : PathIndex) (increments : List (Increment Tracked)) :
      Maintained program (finalState (repairPath fuel path target increments { c with shutdown }))

theorem Explored.unrepaired (e : Explored program c) : c.Unrepaired := by
  induction e with
  | start partitioning reducer state precision options =>
    exact .start partitioning reducer state precision options
  | @run c e shutdown fuel ih =>
    have quiet : Grows program c { c with shutdown } := Grows.refl.quiet c.statistics shutdown
    have h : Unrepaired { c with shutdown } := ih.grows quiet
    have g : Grows program { c with shutdown }
        (finalState (Blockwise.run program fuel { c with shutdown })) :=
      run_grows fuel h.toSound
    exact h.grows g

theorem Context.Agreed.withShutdown (h : c.Agreed) (shutdown : Shutdown) :
    Agreed { c with shutdown } :=
  { Grows.sound_quiet h.toSound c.statistics shutdown with
    faithful := h.faithful
    returned := h.returned
    tidy := h.tidy }

theorem Context.Agreed.repairPath (h : c.Agreed) (fuel : Nat) (path : Path) (target : PathIndex)
    (increments : List (Increment Tracked)) :
    (finalState (repairPath fuel path target increments c)).Agreed := by
  obtain ⟨roots, d, g, hd⟩ := repairPath_shrinks h.toSound fuel path target increments
  rw [hd]
  exact h.finishRepair g

theorem Maintained.agreed (m : Maintained program c) : c.Agreed := by
  induction m with
  | explored e => exact e.unrepaired.toAgreed
  | repair _ shutdown fuel path target increments ih =>
    exact (ih.withShutdown shutdown).repairPath fuel path target increments

/-- The check passes after a repair, whatever its path and target are, and wherever it stops. -/
theorem consistent_after_repair (m : Maintained program c) (shutdown : Shutdown) (fuel : Nat)
    (path : Path) (target : PathIndex) (increments : List (Increment Tracked)) :
    (finalState (repairPath fuel path target increments { c with shutdown })).checkConsistency =
      .ok () :=
  ((m.agreed.withShutdown shutdown).repairPath fuel path target increments).consistent

theorem interrupted_repair_consistent :
    Maintained Relinking.program Relinking.explored ∧
      value? (repairPath 100 Relinking.path 4 Relinking.increments
        { Relinking.explored with shutdown := .after 1 }) = none ∧
      (finalState (repairPath 100 Relinking.path 4 Relinking.increments
        { Relinking.explored with shutdown := .after 1 })).checkConsistency = .ok () :=
  have m : Maintained Relinking.program Relinking.explored :=
    .explored (.run (.start ..) Shutdown.never 100)
  ⟨m, by decide +kernel, consistent_after_repair m (.after 1) 100 Relinking.path 4
    Relinking.increments⟩

/-! ### Runs and repairs in turn -/

def Context.OnTop (c : Context) (t : NodeId) : Prop :=
  ∃ r, c.topLevel = .ok r ∧ t ∈ r ∧ c.graph.isDestroyed t = false

/-- The contexts of a session, the latest first. All its calls succeed, and each repair is made on
the path to a live node of the whole program. -/
inductive Session (program : Program) : List Context → Prop
  | start (partitioning : Partitioning) (reducer : Reducer) (state : State) (precision : Tracked)
      (options : Options) :
      Session program [.start partitioning reducer state precision options]
  | run {c c' : Context} {cs : List Context} {fuel : Nat} {targets : List NodeId}
      (s : Session program (c :: cs))
      (h : run program fuel c = .ok targets c') : Session program (c' :: c :: cs)
  | repair {c c' : Context} {cs : List Context} {t : NodeId} {path : Path} {target : PathIndex}
      {fuel : Nat} {increments : List (Increment Tracked)} {report : Report}
      (s : Session program (c :: cs)) (ht : c.OnTop t) (hp : Path.toTarget c t = .ok path)
      (hpos : 0 < target) (hlt : target < path.size)
      (h : repairPath fuel path target increments c = .ok report c') :
      Session program (c' :: c :: cs)

structure Context.Tended (c : Context) : Prop extends Sound c where
  tidy : c.Tidy
  owned : c.Owned
  returned : c.cache.aggressive = false → c.Returned

theorem Context.Agreed.tended (h : c.Agreed) : c.Tended :=
  { h.toSound with
    tidy := h.tidy
    owned := h.returned.owned h.toSound
    returned := fun _ => h.returned }

namespace Context.Tended

theorem grows (h : c.Tended) (g : Grows program c c') : c'.Tended :=
  { g.sound h.toSound with
    tidy := g.tidy h.toSound h.tidy
    owned := g.owned h.toSound h.owned
    returned := by
      intro hagg
      have he := (g.toExtends h.toSound).aggressive
      rw [he] at hagg
      exact g.returned h.toSound (fun h' => absurd h' (by simp [hagg])) (h.returned hagg) }

theorem shrinks {roots : List NodeId} (h : c.Tended) (g : Shrinks c roots d) :
    d.finishRepair.Tended :=
  { (g.sound h.toSound).finishRepair with
    tidy := .finishRepair
    owned := (g.owned h.toSound h.owned).finishRepair
    returned := by
      intro hagg
      have hd : d.Returned := g.returned h.toSound (h.returned (g.aggressive ▸ hagg))
      exact hd }

theorem returnsAgree (h : c.Tended) (hagg : c.cache.aggressive = false) : c.ReturnsAgree := by
  intro K s xs hs hxs
  obtain ⟨t, ht, hmem⟩ := h.returned hagg K xs hxs
  cases Option.some.inj (hs.symm.trans ht)
  exact hmem

theorem linksAgree_iff (h : c.Tended) : c.LinksAgree ↔ c.Faithful := by
  constructor
  · intro hl e x p m k hx hm hp hk
    obtain ⟨k', hk', hs⟩ := hl e x p m hx hm hp
    cases Option.some.inj (hk.symm.trans hk'.1)
    exact hs
  · intro hf e x p m hx hm hp
    obtain ⟨-, k, hk⟩ := h.tidy e x hx
    exact ⟨k, hk, hf e x p m k hx hm hp hk.1⟩

theorem consistent_iff_faithful (h : c.Tended) : c.checkConsistency = .ok () ↔
    c.Faithful ∧ (c.cache.aggressive = true → c.ReturnsAgree) := by
  rw [checkConsistency_eq_ok h.toSound, h.linksAgree_iff]
  refine and_congr_right fun _ => ⟨fun hr _ => hr, fun hr => ?_⟩
  by_cases hagg : c.cache.aggressive = true
  · exact hr hagg
  · exact h.returnsAgree (by simpa using hagg)

theorem returnsAgree_of_consistent (h : c.Tended) (hc : c.checkConsistency = .ok ()) :
    c.ReturnsAgree :=
  ((checkConsistency_eq_ok h.toSound).1 hc).2

theorem faithful_iff_of_grows (h : c.Tended) (hf : c.Faithful) (g : Grows program c c') :
    c'.Faithful ↔ c.KeepsCalls c' := by
  refine ⟨fun hf' e x p hx he he' => ?_, fun hk => g.faithful h.toSound hf hk⟩
  have e' := g.toExtends h.toSound
  obtain ⟨m, hm, hp⟩ := h.graph.edge_iff.1 he
  obtain ⟨-, me, -, hme, -⟩ := h.live_of_edge he
  cases Option.some.inj (hm.symm.trans hme.1)
  have hs' := (g.sound h.toSound).toStructured
  obtain ⟨m', hm', hp'⟩ := hs'.graph.edge_iff.1 he'
  obtain ⟨-, me', -, hme', -⟩ := hs'.live_of_edge he'
  cases Option.some.inj (hm'.symm.trans hme'.1)
  obtain ⟨k, hk, -⟩ := (h.exit hx).exit
  obtain ⟨k', hk', -, hset, -⟩ := e'.evolves.node hk
  rw [hf e x p m k hx hme hp hk, hf' e x p m' k' (e'.exit hx) hme' hp' hk', hset]

theorem keepsCalls_of_shrinks {roots : List NodeId} (h : c.Tended) (g : Shrinks c roots d) :
    c.KeepsCalls d.finishRepair := by
  intro e x p hx he he'
  have hd := g.sound h.toSound
  obtain ⟨mp, -, hmp, -⟩ := hd.live_of_edge (a := p) (b := e) he'
  rw [setOfEntry_finishRepair hmp, g.links h.toSound]

theorem grows_of_run {fuel : Nat} {targets : List NodeId} (h : c.Tended)
    (hr : run program fuel c = .ok targets c') : Grows program c c' :=
  ((run_spec fuel h.toSound).of_ok hr).1

theorem shrinks_of_repair {fuel : Nat} {path : Path} {target : PathIndex}
    {increments : List (Increment Tracked)} {report : Report} (h : c.Tended)
    (hr : repairPath fuel path target increments c = .ok report c') :
    ∃ roots d, Shrinks c roots d ∧ c' = d.finishRepair := by
  obtain ⟨roots, d, g, hd⟩ := repairPath_shrinks h.toSound fuel path target increments
  rw [hr] at hd
  exact ⟨roots, d, g, hd⟩

end Context.Tended

namespace Session

theorem tended (s : Session program cs) : ∀ c ∈ cs, c.Tended := by
  induction s with
  | start partitioning reducer state precision options =>
    intro c hc
    rw [List.mem_singleton.1 hc]
    exact (Unrepaired.start partitioning reducer state precision options).toAgreed.tended
  | run s hr ih =>
    have h := ih _ (List.mem_cons_self ..)
    exact List.forall_mem_cons.2 ⟨h.grows (h.grows_of_run hr), ih⟩
  | repair s _ _ _ _ hr ih =>
    have h := ih _ (List.mem_cons_self ..)
    obtain ⟨roots, d, g, rfl⟩ := h.shrinks_of_repair hr
    exact List.forall_mem_cons.2 ⟨h.shrinks g, ih⟩

end Session

/-- The check passes after every call of a session exactly when no call links a call node above
surviving expanded nodes anew and, if the cache is aggressive, none files the exits of one result
under the key of another. -/
theorem session_consistent_iff (s : Session program cs) :
    (∀ c ∈ cs, c.checkConsistency = .ok ()) ↔ cs.IsChain fun c' c =>
      c.KeepsCalls c' ∧ (c'.cache.aggressive = true → ∀ t, ¬ c.Misfiles c' t) := by
  induction s with
  | start partitioning reducer state precision options =>
    have h := (Unrepaired.start partitioning reducer state precision options).toAgreed.consistent
    simpa using h
  | @run c c' cs fuel targets s hr ih =>
    have h := s.tended c (List.mem_cons_self ..)
    have g := h.grows_of_run hr
    rw [List.forall_mem_cons, List.isChain_cons_cons, ← ih]
    refine and_congr_left fun hall => ?_
    have hf := (h.consistent_iff_faithful.1 (hall c (List.mem_cons_self ..))).1
    have hreturns := h.returnsAgree_of_consistent (hall c (List.mem_cons_self ..))
    have e := (g.toExtends h.toSound).evolves
    rw [(h.grows g).consistent_iff_faithful, h.faithful_iff_of_grows hf g,
      hreturns.iff_not_misfiles h.owned (h.grows g).owned e]
  | @repair c c' cs t path target fuel increments report s ht hp hpos hlt hr ih =>
    have h := s.tended c (List.mem_cons_self ..)
    obtain ⟨roots, d, g, rfl⟩ := h.shrinks_of_repair hr
    rw [List.forall_mem_cons, List.isChain_cons_cons, ← ih]
    refine and_congr_left fun hall => ?_
    have hf := (h.consistent_iff_faithful.1 (hall c (List.mem_cons_self ..))).1
    have hf' := (g.faithful h.toSound hf).finishRepair (g.sound h.toSound)
    have hreturns := h.returnsAgree_of_consistent (hall c (List.mem_cons_self ..))
    have e : c.Evolves d.finishRepair := { g.evolves h.toSound with }
    rw [(h.shrinks g).consistent_iff_faithful,
      hreturns.iff_not_misfiles h.owned (h.shrinks g).owned e]
    exact and_congr_left fun _ => iff_of_true hf' (h.keepsCalls_of_shrinks g)

end

namespace Relinking

theorem session : Session program [exploredAgain, repaired, explored, start] := by
  obtain ⟨targets, hrun⟩ := ok_of_value? (r := run program 100 start) (by decide +kernel)
  obtain ⟨report, hrepair⟩ := ok_of_value? (r := repairPath 100 path 4 increments explored)
    (by decide +kernel)
  obtain ⟨targets', hagain⟩ := ok_of_value? (r := run program 100 repaired) (by decide +kernel)
  obtain ⟨r, hr⟩ : ∃ r, explored.sets[SetId.topLevel]? = some r :=
    Option.isSome_iff_exists.1 (by decide +kernel)
  have hmem : (explored.sets[SetId.topLevel]?).any (10 ∈ ·) = true := by decide +kernel
  rw [hr, Option.any_some, decide_eq_true_iff] at hmem
  have htop : explored.OnTop 10 := ⟨r, reachedSet_eq_ok.2 hr, hmem, by decide +kernel⟩
  have hpath : Path.toTarget explored 10 = .ok path := by decide +kernel
  exact .run (.repair (.run (.start ..) hrun) htop hpath (by decide) (by decide) hrepair) hagain

theorem relinking_breaks_chain : ¬ [exploredAgain, repaired, explored, start].IsChain fun c' c =>
    c.KeepsCalls c' ∧ (c'.cache.aggressive = true → ∀ t, ¬ c.Misfiles c' t) := by
  intro hchain
  have hall := (session_consistent_iff session).2 hchain
  have hcheck := hall exploredAgain (List.mem_cons_self ..)
  exact absurd hcheck (by decide +kernel)

/-- After the last run an expanded node does not agree with its call node. -/
theorem relinking_inconsistent : Session program [exploredAgain, repaired, explored, start] ∧
    exploredAgain.checkConsistency = .error (.notInReachedSet 4 4) :=
  ⟨session, by decide +kernel⟩

end Relinking

end Blockwise
