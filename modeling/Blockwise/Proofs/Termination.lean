import Blockwise.Proofs.Fixpoint
import Blockwise.Proofs.Termination.Convergence
import Blockwise.Proofs.Termination.Fuel

/-!
Termination. For a program without calls a run ends, unless a chain of blocks, each of which starts
where the one before returns, leads back to its start: the view of an exit at a call node is called
whether or not an equal state was reached before.
-/
namespace Blockwise

open Context

section

variable {program : Program} {init : State} {tracked : Tracked} {c : Context}

theorem converges_run (hfree : program.CallFree) (h : c.Contained program init tracked)
    (hunchained : c.partitioning.Unchained) : ∃ enough result,
      (∀ fuel, enough ≤ fuel → run program fuel c = result) ∧
        ∀ c', result ≠ .error .outOfFuel c' := by
  obtain ⟨enough, result, hexplore, hresult⟩ :=
    Exploring.converges_explore hfree [] h hunchained h.topLevel
  cases result with
  | error abort d =>
    refine ⟨enough, .error abort.reason d, fun fuel hle => run_of_error (hexplore fuel hle),
      fun c' hc' => ?_⟩
    injection hc' with hreason
    exact hresult hreason
  | ok _ d =>
    refine ⟨enough, (liftM d.targets : EStateM Halt Context (List NodeId)) d,
      fun fuel hle => run_of_ok (hexplore fuel hle), fun c' hc' => ?_⟩
    have htargets : Ensures (liftM d.targets : EStateM Halt Context (List NodeId)) d
        (fun _ _ => True) fun halt _ => halt ≠ .outOfFuel :=
      ensures_liftFault.2 ⟨fun _ _ => trivial, fun _ _ => by simp⟩
    exact (ensures_of_error hc').1 htargets rfl

/-- For a program without calls, and blocks of which no chain leads back, a run of a fresh context
ends. -/
theorem run_terminates {partitioning : Partitioning} (reducer : Reducer) (state : State)
    (precision : Tracked) (options : Options) (shutdown : Shutdown) (hfree : program.CallFree)
    (hunchained : partitioning.Unchained) : ∃ enough result,
      (∀ fuel, enough ≤ fuel → run program fuel
        { Context.start partitioning reducer state precision options with shutdown } = result) ∧
      ∀ c, result ≠ .error .outOfFuel c :=
  converges_run hfree ((Contained.start program partitioning reducer state precision options).grows
    hfree (Grows.refl.quiet {} shutdown)) hunchained

end

theorem inner_loop_terminates :
    Program.CallFree [⟨0, .skip, 1⟩, ⟨1, .skip, 2⟩, ⟨2, .skip, 1⟩, ⟨2, .skip, 3⟩] ∧
    (Partitioning.ofList [.of 1 [2] [3], .of 3 [] [4]]).Unchained ∧ ∃ enough result,
      (∀ fuel, enough ≤ fuel →
        run [⟨0, .skip, 1⟩, ⟨1, .skip, 2⟩, ⟨2, .skip, 1⟩, ⟨2, .skip, 3⟩] fuel
          { Context.start (.ofList [.of 1 [2] [3], .of 3 [] [4]]) (.ofList [])
              { location := 0 } ∅ {} with shutdown := .never } = result) ∧
      ∀ c, result ≠ .error .outOfFuel c := by
  have hfree : Program.CallFree [⟨0, .skip, 1⟩, ⟨1, .skip, 2⟩, ⟨2, .skip, 1⟩, ⟨2, .skip, 3⟩] := by
    simp [Program.CallFree]
  have hunchained : (Partitioning.ofList [.of 1 [2] [3], .of 3 [] [4]]).Unchained :=
    Partitioning.unchained_of_ascending (by decide)
  exact ⟨hfree, hunchained, run_terminates _ _ _ _ .never hfree hunchained⟩

namespace Looping

def program : Program := [⟨0, .skip, 1⟩, ⟨1, .skip, 2⟩, ⟨2, .skip, 1⟩]

def start : Context := .start (.ofList [.of 1 [2] [1]]) (.ofList []) { location := 0 } ∅ {}

def loopHead : State := { location := 1 }

def body : Block := .of 1 [2] [1]

def key : Key := ⟨loopHead, ∅, 1⟩

/-- The call at `n` enters the loop once more, and nothing but `waiting` waits. -/
structure Revisits (c : Context) (waiting : List NodeId) (n : NodeId) : Prop extends Sound c where
  partitioning : c.partitioning = start.partitioning
  reducer : c.reducer = start.reducer
  options : c.options = {}
  shutdown : c.shutdown = .never
  top : ∃ r, c.sets[SetId.topLevel]? = some r ∧ r.waitlist = waiting
  node : ∃ m, c.graph.Live n m ∧ m.state = loopHead ∧ m.precision = ∅ ∧ m.set = .topLevel ∧
    ¬ c.Heads n ∧ m.children = ∅
  cached : c.cache.lookup key = some 1
  idle : c.Idle 1
  leaves : ∃ x m, c.graph.Live x m ∧ m.state = loopHead ∧ ∀ y, c.IsExit 1 y ↔ y = x

theorem nextWaiting_passes {c : Context} {s : SetId} {r : ReachedSet} (hr : c.sets[s]? = some r)
    (hnever : c.shutdown = .never) :
    Ensures (Action.nextWaiting s) c (fun _ c' => c'.shutdown = .never) (fun _ _ => False) := by
  have hcheck : c.shutdown.check = .ok () := by
    rw [hnever]
    rfl
  have hr' : ∀ d : Context, d.sets = c.sets → d.sets[s]? = some r := by
    intro d hd
    rw [hd, hr]
  simp only [Action.nextWaiting, Action.poll, ensures_bind, ensures_get,
    ensures_lift_of_ok hcheck, ensures_set, Action.popWaiting,
    ensures_lift_of_ok (reachedSet_eq_ok.2 (hr' { c with shutdown := c.shutdown.next } rfl)),
    ensures_of_ok (Action.modifySet_eq_ok (hr' { c with shutdown := c.shutdown.next } rfl)),
    ensures_pure]
  change c.shutdown.next = .never
  rw [hnever]
  rfl

namespace Revisits

variable {c d : Context} {n : NodeId} {waiting : List NodeId}

theorem block_eq (h : Revisits c waiting n) : c.partitioning.block? 1 = some body := by
  rw [h.partitioning]
  rfl

theorem calls (h : Revisits c waiting n) : c.task .topLevel n = .ok .call := by
  obtain ⟨r, hr, -⟩ := h.top
  obtain ⟨m, hm, hstate, -, -, hhead, -⟩ := h.node
  obtain ⟨f, hf, -⟩ := h.live_first hr
  have hne : n ≠ r.first := fun hn => hhead ⟨_, r, hr, hn.symm⟩
  rw [task_eq hm hr hf, hstate, if_neg (by decide), if_neg hne, if_neg (by decide), h.partitioning]
  rfl

theorem leaves_extend (h : Revisits c waiting n) (h' : d.Sound) (e : c.Extends d)
    (hf : c.Frozen d 1) :
    ∃ x m, d.graph.Live x m ∧ m.state = loopHead ∧ ∀ y, d.IsExit 1 y ↔ y = x := by
  obtain ⟨x, m, hm, hstate, hx⟩ := h.leaves
  obtain ⟨-, ⟨r, f, hr, -⟩, -⟩ := h.stored h.cached
  obtain ⟨m', hm', hs, -⟩ := e.node hm
  refine ⟨x, m', hm', hs.trans hstate, fun y => ⟨fun hy => (hx y).1 ?_, fun hy => ?_⟩⟩
  · exact hf.isExit h.toStructured h'.toStructured e (lt_size_of_sets hr) hy
  · exact e.isExit ((hx y).2 hy)

theorem next (h : Revisits c [n] n) : Ensures (Action.nextWaiting .topLevel) c
    (fun next d => next = some n ∧ Revisits d [] n) (fun _ _ => False) := by
  obtain ⟨r, hr, hwaiting⟩ := h.top
  obtain ⟨m, hm, hstate, hprecision, hset, hhead, hchildren⟩ := h.node
  obtain ⟨-, hfirst, -, hpop⟩ := ReachedSet.pop_spec (h.waitlist hr).2
  have hpopped : r.pop.1 = some n ∧ r.pop.2.waitlist = [] := by
    rw [hwaiting] at hpop
    split at hpop
    · cases hpop.1
    · rename_i k hk
      have hmem := List.mem_singleton.1 (hpop.mem_iff.1 (List.mem_cons_self ..))
      exact ⟨hmem ▸ hk, List.eq_nil_of_length_eq_zero (Nat.succ.inj hpop.length_eq)⟩
  refine ((nextWaiting_spec hr).and (nextWaiting_passes hr h.shutdown)).imp (fun next d hd => ?_)
    fun _ _ => And.right
  obtain ⟨⟨rfl, shutdown, rfl⟩, hnever⟩ := hd
  obtain ⟨hs, e⟩ := Grows.sound_pop h.toSound hr
  have hs' := Grows.sound_quiet hs c.statistics shutdown
  have e' := e.trans (Grows.extends_quiet c.statistics shutdown)
  have hsets := Exploring.sets_popped shutdown hr
  have htop := (hsets .topLevel).trans (if_pos rfl)
  have hhead' : ¬ Heads { c.putSet .topLevel r.pop.2 with shutdown } n :=
    fun hh => hhead ((heads_putSet hr hfirst).1 hh)
  have hidle : Idle { c.putSet .topLevel r.pop.2 with shutdown } 1 := by
    intro q hq
    rw [hsets, if_neg (by decide)] at hq
    exact h.idle q hq
  exact ⟨hpopped.1, {
    toSound := hs'
    partitioning := h.partitioning
    reducer := h.reducer
    options := h.options
    shutdown := hnever
    top := ⟨r.pop.2, htop, hpopped.2⟩
    node := ⟨m, hm, hstate, hprecision, hset, hhead', hchildren⟩
    cached := h.cached
    idle := hidle
    leaves := h.leaves_extend hs' e' fun _ _ hk _ => hk.lt_size }⟩

theorem enter (h : Revisits c [] n) : Ensures (Action.enterCall 0 n) c
    (fun t d => t = 1 ∧ Revisits d [] n ∧ d.links.setOfEntry n = some 1) (fun _ _ => False) := by
  obtain ⟨m, hm, hstate, hprecision, hset, hhead, hchildren⟩ := h.node
  have hkey : c.reducedFor n = .ok key := by
    have hb : c.partitioning.block? m.state.location = some body := by
      rw [hstate]
      exact h.block_eq
    rw [reducedFor_eq_ok hm.1 hb, hstate, hprecision, h.reducer]
    rfl
  have hlimit : ¬ c.options.maxDepth ≤ 0 := by
    rw [h.options]
    decide
  simp only [Action.enterCall, ensures_bind, ensures_get, ensures_ite, hlimit, false_imp_iff,
    not_false_eq_true, true_imp_iff, true_and, ensures_pure]
  rw [ensures_of_ok (Action.resolveCall_of_stored hkey h.cached)]
  have st := (Resolves.stored hm (hset ▸ h.calls) hkey h.cached).withStatistics
    { c.statistics with hits := c.statistics.hits + 1 }
  obtain ⟨hs, e⟩ := st.spec (Grows.sound_quiet h.toSound _ c.shutdown)
  have e' := (Grows.extends_quiet _ c.shutdown).trans e
  refine ⟨rfl, ?_, ?_⟩
  · exact {
      toSound := hs
      partitioning := h.partitioning
      reducer := h.reducer
      options := h.options
      shutdown := h.shutdown
      top := h.top
      node := ⟨m, hm, hstate, hprecision, hset, hhead, hchildren⟩
      cached := h.cached
      idle := h.idle
      leaves := h.leaves_extend hs e' fun _ _ hk _ => hk.lt_size }
  · exact (Links.setOfEntry_linkEntry ..).trans (if_pos rfl)

theorem expand (h : Revisits c [] n) (hl : c.links.setOfEntry n = some 1) :
    Ensures (Action.expandBlockExits n 1) c
      (fun _ d => Revisits d [c.graph.size] c.graph.size) (fun _ _ => False) := by
  obtain ⟨m, hm, hstate, hprecision, hset, hhead, hchildren⟩ := h.node
  obtain ⟨x, mx, hmx, hxstate, hx⟩ := h.leaves
  obtain ⟨r, hr, hwaiting⟩ := h.top
  have hexits : c.blockExits 1 = .ok [x] := blockExits_eq h.toSound hl (List.pairwise_singleton ..)
    fun y => List.mem_singleton.trans (hx y).symm
  have hr' : c.sets[m.set]? = some r := by rw [hset, hr]
  have hb : c.partitioning.block? m.state.location = some body := by
    rw [hstate]
    exact h.block_eq
  obtain ⟨-, hkey, -⟩ := h.stored h.cached
  have hnone : m.children.toList.filterMap c.links.reducedOf = [] := by
    rw [hchildren]
    rfl
  rw [Action.ensures_expandBlockExits_iff hexits (keyOf_eq_ok.2 hkey) hm, hnone]
  change Ensures ([x].mapM (Action.expandExit n)) c _ _
  simp only [List.mapM_cons, List.mapM_nil, ensures_bind, ensures_pure,
    ensures_of_ok (Action.expandExit_eq_ok hm hr' hb hmx)]
  have hf : c.Fertile n m r none := ⟨hm, hr', by simp⟩
  have hstep : Unfolds program n c
      { c.sprout n m r (c.reducer.expand m.state body mx.state) none with
        links := c.links.linkExpanded c.graph.size x } :=
    .expand hm hr' (hset ▸ h.calls) hl ((hx x).2 rfl) hb hmx
  obtain ⟨hs, e⟩ := hstep.spec h.toSound
  have hne : ∀ p, c.graph.Live n p → p.set ≠ 1 := by
    intro p hp
    rw [hm.unique hp, hset]
    decide
  have hnew : ¬ (c.sprout n m r (c.reducer.expand m.state body mx.state) none).Heads
      c.graph.size := by
    rw [heads_sprout hf]
    intro hh
    obtain ⟨k, hk⟩ := h.live_of_heads hh
    exact Nat.lt_irrefl _ hk.lt_size
  have htop : (c.sprout n m r (c.reducer.expand m.state body mx.state) none).sets[SetId.topLevel]? =
      some (r.add c.graph.size) := (sets_sprout hf).trans (if_pos hset)
  have hidle := hstep.idle h.toSound hne h.idle
  have hleaves := h.leaves_extend hs e (hstep.frozen h.toStructured hne)
  have hstate' : c.reducer.expand m.state body mx.state = loopHead := by
    rw [h.reducer, hstate, hxstate]
    rfl
  exact {
    toSound := hs.setReturnEntries _
    partitioning := h.partitioning
    reducer := h.reducer
    options := h.options
    shutdown := h.shutdown
    top := ⟨r.add c.graph.size, htop, congrArg (· ++ [c.graph.size]) hwaiting⟩
    node := ⟨_, (live_sprout_iff hf).2 (Or.inl ⟨rfl, rfl⟩), hstate', hprecision, hset, hnew, rfl⟩
    cached := h.cached
    idle := hidle
    leaves := hleaves }

theorem explore (h : Revisits c [n] n) (fuel : Nat) :
    Ensures (Exploring.explore program fuel [] .topLevel) c (fun _ _ => False)
      fun abort _ => abort.reason = .outOfFuel := by
  induction fuel generalizing c n with
  | zero => rfl
  | succ fuel ih =>
    simp only [Exploring.explore, ensures_bind, ensures_during]
    refine h.next.imp (fun next d hd => ?_) fun _ _ => False.elim
    obtain ⟨rfl, hd⟩ := hd
    simp only [Action.ask, ensures_bind, ensures_during, ensures_get, ensures_lift_of_ok hd.calls,
      Exploring.perform]
    refine hd.enter.imp (fun t d hd => ?_) fun _ _ => False.elim
    obtain ⟨rfl, hd, hl⟩ := hd
    have hnew : (1 : SetId) ∉ [SetId.topLevel] := by decide
    obtain ⟨-, ⟨q, f, hq, -⟩, -⟩ := hd.stored hd.cached
    have hidle : ¬ q.hasWaiting = true := by
      simp [ReachedSet.hasWaiting, hd.idle q hq]
    simp only [if_pos hnew, ensures_bind, ensures_during, ensures_get,
      ensures_lift_of_ok (reachedSet_eq_ok.2 hq), if_neg hidle, ensures_pure]
    exact (hd.expand hl).imp (fun _ d hd => ih hd) fun _ _ => False.elim

end Revisits

def entered : Context := finalState (Exploring.explore program 5 [] .topLevel start)

theorem explore_start : Exploring.explore program 5 [] .topLevel start =
    .error ⟨.outOfFuel, [.topLevel]⟩ entered := by
  have hactive : (match Exploring.explore program 5 [] .topLevel start with
      | .ok _ _ => none
      | .error abort _ => some abort) = some ⟨.outOfFuel, [.topLevel]⟩ := by
    decide +kernel
  rw [entered]
  cases he : Exploring.explore program 5 [] .topLevel start with
  | ok a c =>
    rw [he] at hactive
    cases hactive
  | error abort c =>
    rw [he] at hactive
    cases hactive
    rfl

theorem grows_entered : Grows program start entered :=
  Exploring.explore_grows 5 [] (sound_start ..) Nat.zero_lt_one (by simp [Encloses])

theorem revisits_entered : Revisits entered [8] 8 := by
  have h := grows_entered.sound (sound_start ..)
  have e := grows_entered.toExtends (sound_start ..)
  have hnode : ∃ m ∈ entered.graph.node? 8, m.destroyed = false ∧ m.state = loopHead ∧
      m.precision = ∅ ∧ m.set = .topLevel ∧ 7 ∈ m.parents ∧ m.children = ∅ := by
    decide +kernel
  obtain ⟨m, hm, hlive, hstate, hprecision, hset, hparent, hchildren⟩ := hnode
  have hexit : ∃ m ∈ entered.graph.node? 4, m.destroyed = false ∧ m.state = loopHead := by
    decide +kernel
  obtain ⟨mx, hmx, hlivex, hxstate⟩ := hexit
  have hexits : entered.blockExits 1 = .ok [4] := by
    have hlist : (match entered.blockExits 1 with
        | .ok exits => exits
        | .error _ => []) = [4] := by decide +kernel
    cases he : entered.blockExits 1 with
    | ok exits =>
      rw [he] at hlist
      exact congrArg Except.ok hlist
    | error f =>
      rw [he] at hlist
      cases hlist
  have hidle : ∀ r ∈ entered.sets[1]?, r.waitlist = [] := by decide +kernel
  have htop : ∃ r ∈ entered.sets[SetId.topLevel]?, r.waitlist = [8] := by decide +kernel
  exact {
    toSound := h
    partitioning := e.evolves.partitioning
    reducer := e.evolves.reducer
    options := e.options
    shutdown := by decide +kernel
    top := htop
    node := by
      refine ⟨m, ⟨hm, hlive⟩, hstate, hprecision, hset, fun hh => ?_, hchildren⟩
      rw [(h.head ⟨hm, hlive⟩ hh).1] at hparent
      exact SortedSet.not_mem_empty _ hparent
    cached := by decide +kernel
    idle := hidle
    leaves := ⟨4, mx, ⟨hmx, hlivex⟩, hxstate, fun y =>
      (mem_blockExits_iff h.toStructured hexits y).symm.trans List.mem_singleton⟩ }

end Looping

/-- Each view of the exit is a call of the block again, and no equal state covers it. -/
theorem loop_block_diverges : Looping.program.CallFree ∧
    ∀ fuel, ∃ c, run Looping.program fuel Looping.start = .error .outOfFuel c := by
  refine ⟨by simp [Program.CallFree, Looping.program], fun fuel => ?_⟩
  have hlong := Looping.revisits_entered.explore fuel
  rw [Ensures, ← Exploring.explore_resume Looping.explore_start fuel] at hlong
  have hout : ∃ active c, Exploring.explore Looping.program fuel [] .topLevel Looping.start =
      .error ⟨.outOfFuel, active⟩ c := by
    by_contra hno
    rw [Exploring.explore_of_le (Nat.le_add_left fuel 5) rfl
      fun active c hc => hno ⟨active, c, hc⟩] at hlong
    cases hr : Exploring.explore Looping.program fuel [] .topLevel Looping.start with
    | ok a c =>
      rw [hr] at hlong
      exact hlong
    | error abort c =>
      rw [hr] at hlong
      exact hno ⟨abort.active, c, by rw [hr, ← hlong]⟩
  obtain ⟨active, c, hc⟩ := hout
  exact ⟨c, bind_eq_of_error (by simp only [EStateM.adaptExcept, hc])⟩

end Blockwise
