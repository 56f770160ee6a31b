import Blockwise.Proofs.Repair.Clearing
import Blockwise.Proofs.RepairEffect

/-!
The open calls at the elements of a path. After runs and then repairs the paths of a context are
well bracketed: at each element of the path to a node of the whole program the open calls are found,
each call stands in the reached set of the call before, and the node behind the element stands in
that of the last call.
-/
namespace Blockwise

open Context

section

variable {program : Program} {c c' d : Context} {n p t : NodeId} {s : SetId} {stack : List SetId}
  {path : Path} {opened : List PathIndex} {element : PathIndex}

/-! ### Runs, then repairs -/

theorem Explored.grows (e : Explored program c) : ∃ partitioning reducer state precision options,
    Grows program (.start partitioning reducer state precision options) c := by
  induction e with
  | start partitioning reducer state precision options =>
    exact ⟨partitioning, reducer, state, precision, options, .refl⟩
  | @run c e shutdown fuel ih =>
    obtain ⟨partitioning, reducer, state, precision, options, g⟩ := ih
    have hs := sound_start partitioning reducer state precision options
    have quiet : Grows program c { c with shutdown } := Grows.refl.quiet c.statistics shutdown
    have hrun : Grows program _ _ := run_grows fuel (quiet.sound (g.sound hs))
    exact ⟨partitioning, reducer, state, precision, options,
      g.trans hs ((quiet.trans (g.sound hs)) hrun)⟩

theorem Explored.bracketed (e : Explored program c) : c.Bracketed := by
  obtain ⟨partitioning, reducer, state, precision, options, g⟩ := e.grows
  have hs := sound_start partitioning reducer state precision options
  have hd := Derived.start program partitioning reducer state precision options
  have hcalls : (Context.start partitioning reducer state precision options).LinksCalls := by
    intro n t hn
    cases hn
  exact (hd.grows hs (Nat.le_refl 1) g).bracketed (g.sound hs).toStructured (hcalls.grows hs g)

theorem Context.Bracketed.finishRepair (hb : c.Bracketed) (h : c.Agreed) (k : c.Clears d) :
    d.finishRepair.Bracketed := by
  obtain ⟨roots, g, ho⟩ := k
  have hs := h.toSound
  have hd := g.sound hs
  intro p n he
  have he : d.graph.Edge p n := he
  obtain ⟨mp, mn, hmp, hmn, hpar, -⟩ := hd.live_of_edge he
  obtain ⟨m, hm⟩ := hs.toStructured.live_of_supports ((g.supports_iff hs).1 (Or.inl he)).1
  obtain ⟨-, -, hparents⟩ := g.live hs hmn hm.1
  have hbracket := hb p n (hs.graph.edge_iff.2
    ⟨m, hm.1, (hparents p).1 (hpar ▸ SortedSet.mem_singleton.2 rfl)⟩)
  have hentry : d.finishRepair.links.setOfEntry p = c.links.setOfEntry p := by
    rw [setOfEntry_finishRepair hmp, g.links hs]
  cases hx : c.links.reducedOf n with
  | none =>
    have hno : d.finishRepair.links.reducedOf n = none := by
      refine Option.eq_none_iff_forall_ne_some.2 fun x hx' => ?_
      rw [reducedOf_finishRepair, g.links hs, hx] at hx'
      cases hx'.1
    rw [hx] at hbracket
    rw [hno, hentry]
    exact hbracket
  | some x =>
    rw [hx] at hbracket
    obtain ⟨mx, hmx, hcall⟩ := hbracket
    -- nothing is owed, so the exit is still there
    obtain ⟨kx, hkx, -, hset, -⟩ := (g.evolves hs).node hmx.1
    have hlive : ∃ k, d.graph.Live x k := by
      by_contra hdead
      rcases ho h.faithful h.not_owed n x mn kx (by rw [g.links hs, hx]) hmn hkx
        (not_exists.1 hdead) with hno | hno
      · cases hno
      · exact hno
    obtain ⟨k, hk⟩ := hlive
    cases Option.some.inj (hkx.symm.trans hk.1)
    have hlink : d.finishRepair.links.reducedOf n = some x :=
      reducedOf_finishRepair.2 ⟨by rw [g.links hs, hx], ⟨mn, hmn⟩, kx, hk⟩
    rw [hlink, hentry]
    exact ⟨kx, hk, by rw [hcall, hset]⟩

/-- The contexts that runs and then repairs lead to. No repair is out of fuel. -/
inductive Concluded (program : Program) : Context → Prop
  | explored {c : Context} (e : Explored program c) : Concluded program c
  | repair {c : Context} (m : Concluded program c) (shutdown : Shutdown) (fuel : Nat) (path : Path)
      (target : PathIndex) (increments : List (Increment Tracked))
      (hfuel : ∀ c', repairPath fuel path target increments { c with shutdown } ≠
        .error .outOfFuel c') :
      Concluded program (finalState (repairPath fuel path target increments { c with shutdown }))

theorem Concluded.unflagged (m : Concluded program c) (fuel : Nat) (path : Path)
    (target : PathIndex) (increments : List (Increment Tracked))
    (hfuel : ∀ c', repairPath fuel path target increments c ≠ .error .outOfFuel c') :
    Concluded program (finalState (repairPath fuel path target increments c)) :=
  m.repair c.shutdown fuel path target increments hfuel

theorem Concluded.maintained (m : Concluded program c) : Maintained program c := by
  induction m with
  | explored e => exact .explored e
  | repair _ shutdown fuel path target increments _ ih =>
    exact .repair ih shutdown fuel path target increments

theorem Concluded.bracketed (m : Concluded program c) : c.Bracketed := by
  induction m with
  | explored e => exact e.bracketed
  | @repair c m shutdown fuel path target increments hfuel ih =>
    have h := m.maintained.agreed.withShutdown shutdown
    obtain ⟨d, k, hd⟩ := repairPath_clears h.toSound hfuel
    rw [hd]
    exact Bracketed.finishRepair (c := { c with shutdown }) ih h k

/-! ### The open calls at an element -/

namespace Context

def StandsBelow (c : Context) (outer n : NodeId) : Prop :=
  ∃ s r, c.reachedSetFor outer = .ok s ∧ c.sets[s]? = some r ∧ n ∈ r

def CallsWithin (c : Context) (path : Path) (outer inner : PathIndex) : Prop :=
  ∃ a b, path.reachedNode outer = .ok a ∧ path.reachedNode inner = .ok b ∧ c.StandsBelow a b

theorem Runs.standsBelow (h : c.Sound) (hr : c.Runs p s) {m : Node State Tracked}
    (hm : c.graph.Live n m) (hset : m.set = s) : c.StandsBelow p n := by
  obtain ⟨r, hs, hmem⟩ := h.set_of_live hm
  exact ⟨s, r, hr.reachedSetFor h, hset ▸ hs, hmem⟩

theorem Opened.callsWithin (h : c.Sound) {root : NodeId} (hroot : c.Runs root .topLevel)
    (hfirst : path.reachedNode 0 = .ok root) (ho : c.Opened path opened (s :: stack)) :
    ∃ last outer a, opened ++ [0] = last :: outer ∧ path.reachedNode last = .ok a ∧ c.Runs a s ∧
      (last :: outer).IsChain fun inner outer => c.CallsWithin path outer inner := by
  generalize hst : s :: stack = whole at ho
  induction ho generalizing s stack with
  | none =>
    cases hst
    exact ⟨0, [], root, rfl, hfirst, hroot, .singleton _⟩
  | @call i n m t opened stack hi hm hl ho ih =>
    cases hst
    obtain ⟨last, outer, a, hopen, ha, hruns, hchain⟩ := ih rfl
    have hn : path.reachedNode i = .ok n := Path.reachedNode_eq_ok.2 hi
    refine ⟨i, last :: outer, n, by rw [List.cons_append, hopen], hn, Or.inr hl, ?_⟩
    exact List.isChain_cons_cons.2 ⟨⟨a, n, ha, hn, hruns.standsBelow h hm rfl⟩, hchain⟩

/-- What is to be known of the open calls at an element of a path. -/
structure CallsAt (c : Context) (path : Path) (element : PathIndex) (calls : List PathIndex) :
    Prop where
  relevant : c.relevantCalls path element = .ok calls
  root : ∃ first, path.first = .ok first ∧ calls.head? = some first
  within : calls.IsChain (c.CallsWithin path)
  last : ∃ innermost a b, calls.getLast? = some innermost ∧ path.reachedNode innermost = .ok a ∧
    path.reachedNode element = .ok b ∧ c.StandsBelow a (c.links.mostInner b)

theorem Threads.callsAt (h : c.Sound) {r : ReachedSet} (hr : c.sets[SetId.topLevel]? = some r)
    (hfirst : path.nodes[0]? = some r.first) {out left : List SetId}
    (ht : c.Threads [.topLevel] (path.nodes.take element) out)
    (hn : path.nodes[element]? = some n) (hc : c.Closes out n left) :
    ∃ calls, c.CallsAt path element calls := by
  have hroot : c.Runs r.first .topLevel := Or.inl ⟨rfl, r, hr, rfl⟩
  obtain ⟨opened, hcallsAt, ho⟩ := ht.relevantCalls hfirst
  obtain ⟨m, rest, hm, rfl⟩ := hc.mostInner h
  obtain ⟨last, outer, a, hcalls, ha, hruns, hchain⟩ :=
    ho.callsWithin h hroot (Path.reachedNode_eq_ok.2 hfirst)
  have hreverse : 0 :: opened.reverse = (last :: outer).reverse := by
    rw [← hcalls, List.reverse_append, List.reverse_singleton, List.singleton_append]
  refine ⟨0 :: opened.reverse, hcallsAt, ⟨0, Path.first_eq_ok hfirst, rfl⟩, ?_, last, a, n, ?_, ha,
    Path.reachedNode_eq_ok.2 hn, hruns.standsBelow h hm rfl⟩
  · rw [hreverse]
    exact List.isChain_reverse.2 hchain
  · simp [hreverse]

end Context

/-- The path to a node of the whole program is found, and well bracketed at all its elements. -/
theorem paths_well_bracketed (m : Concluded program c) (ht : c.OnTop t) :
    ∃ path, Path.toTarget c t = .ok path ∧
      ∀ element ∈ path.elements, ∃ calls, c.CallsAt path element calls := by
  have h := m.maintained.agreed
  obtain ⟨r, hr, hmem, -⟩ := ht
  have hset := reachedSet_eq_ok.1 hr
  obtain ⟨n, hn, htop⟩ := h.live_of_mem hset hmem
  obtain ⟨path, hpath, hto⟩ := Path.toTarget_eq h.toSound h.tidy hn
  have hfirst := hto.first_eq h.toSound m.bracketed hn htop hset
  obtain ⟨init, hinit, hthreads⟩ := hto.threads h.toSound m.bracketed
  obtain ⟨out, hthread, hcloses⟩ := hthreads n hn []
  refine ⟨path, hpath, fun element helement => ?_⟩
  have hlt : element < path.nodes.length := List.mem_range.1 helement
  obtain ⟨a, ha⟩ : ∃ a, path.nodes[element]? = some a := ⟨_, List.getElem?_eq_getElem hlt⟩
  rw [htop] at hthread
  obtain ⟨mid, left, hprefix, hat⟩ := hthread.closesAt hcloses (by rw [← hinit]; exact ha)
  rw [← hinit] at hprefix
  exact hprefix.callsAt h.toSound hset hfirst ha hat

end

/-! A program with two nested blocks and two targets behind them. The second target is removed. -/

namespace NestedBlocks

def program : Program :=
  [⟨0, .skip, 1⟩, ⟨1, .skip, 2⟩, ⟨2, .skip, 3⟩, ⟨3, .skip, 4⟩, ⟨4, .error, 5⟩, ⟨4, .skip, 6⟩,
    ⟨6, .error, 7⟩]

def start : Context :=
  .start (.ofList [.of 1 [] [4], .of 2 [] [3]]) (.ofList []) { location := 0 } ∅ {}

def explored : Context := finalState (run program 100 start)

def removed : Path := ⟨[0, 1, 3, 6, 8, 10, 11]⟩

def repaired : Context := finalState (repairPath 100 removed 5 [] explored)

def path : Path := ⟨[0, 1, 3, 6, 8, 9]⟩

theorem concluded : Concluded program repaired := by
  obtain ⟨report, hrepair⟩ := ok_of_value? (r := repairPath 100 removed 5 [] explored)
    (by decide +kernel)
  have e : Explored program explored := .run (.start ..) Shutdown.never 100
  refine (Concluded.explored e).unflagged 100 removed 5 [] fun c' hc' => ?_
  cases hrepair.symm.trans hc'

end NestedBlocks

open NestedBlocks in
theorem nested_path_well_bracketed : repaired.OnTop 9 ∧ Path.toTarget repaired 9 = .ok path ∧
    ∀ element ∈ path.elements, ∃ calls, repaired.CallsAt path element calls := by
  obtain ⟨r, hr⟩ : ∃ r, repaired.sets[SetId.topLevel]? = some r :=
    Option.isSome_iff_exists.1 (by decide +kernel)
  have hmem : (repaired.sets[SetId.topLevel]?).any (9 ∈ ·) = true := by decide +kernel
  rw [hr, Option.any_some, decide_eq_true_iff] at hmem
  have htop : repaired.OnTop 9 := ⟨r, reachedSet_eq_ok.2 hr, hmem, by decide +kernel⟩
  have hpath : Path.toTarget repaired 9 = .ok path := by decide +kernel
  obtain ⟨path', hpath', hcalls⟩ := paths_well_bracketed concluded htop
  cases hpath.symm.trans hpath'
  exact ⟨htop, hpath, hcalls⟩

end Blockwise
