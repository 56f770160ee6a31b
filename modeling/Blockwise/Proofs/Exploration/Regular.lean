import Blockwise.Proofs.Context.Regular
import Blockwise.Proofs.Exploration.Explore

/-!
The actions of an exploration keep a context regular, from whichever node and reached set they are
called and however they end.
-/
namespace Blockwise

open Context

structure Context.RegularSince (c₀ c : Context) : Prop where
  regular : c.Regular
  evolves : c₀.Evolves c

variable {c₀ c c' : Context} {n : NodeId} {s t : SetId}

namespace Context.RegularSince

theorem refl (h : c.Regular) : c.RegularSince c := ⟨h, .refl c⟩

theorem trans (h : c₀.RegularSince c) (h' : c.RegularSince c') : c₀.RegularSince c' :=
  ⟨h'.regular, h.evolves.trans h'.evolves⟩

theorem step (h : c₀.RegularSince c) (h' : c'.Regular) (e : c.Evolves c') : c₀.RegularSince c' :=
  ⟨h', h.evolves.trans e⟩

theorem rest (h : c₀.RegularSince c) {links : Links} {cache : Cache State Tracked}
    {statistics : Statistics} {shutdown : Shutdown}
    (h' : Regular { c with links, cache, statistics, shutdown }) :
    c₀.RegularSince { c with links, cache, statistics, shutdown } :=
  h.step h' { Evolves.refl c with }

end Context.RegularSince

namespace Action

theorem addSuccessor_sprouts (h : c.Structured) (parent : NodeId) (state : State) :
    Ensures (addSuccessor parent state) c
      (fun _ c' => ∃ p r, c.Fertile parent p r none ∧ c' = c.sprout parent p r state none)
      (fun _ c' => c' = c) := by
  cases hp : c.graph.liveNode parent with
  | error fault =>
    rw [ensures_of_error (addSuccessor_eq_error hp)]
  | ok p =>
    have hlive := Graph.liveNode_eq_ok.1 hp
    obtain ⟨r, hr, -⟩ := h.set_of_live hlive
    rw [ensures_of_ok (addSuccessor_eq_ok hlive hr)]
    exact ⟨p, r, ⟨hlive, hr, by simp⟩, rfl⟩

theorem addOrCover_sprouts (h : c.Structured) (hn : ∃ m, c.graph.node? n = some m ∧ m.set = s)
    (state : State) : Ensures (addOrCover s n state) c
      (fun _ c' => ∃ p r cover, c.Fertile n p r cover ∧ c' = c.sprout n p r state cover)
      (fun _ c' => c' = c) := by
  obtain ⟨m, hm, rfl⟩ := hn
  simp only [addOrCover, ensures_bind, ensures_get]
  rw [ensures_liftExcept]
  refine ⟨fun r hr => ?_, fun _ _ => rfl⟩
  rw [ensures_liftExcept]
  refine ⟨fun cover hcover => ?_, fun _ _ => rfl⟩
  cases cover with
  | none =>
    rw [ensures_bind]
    refine (addSuccessor_sprouts h n state).imp (fun _ c' hc' => ?_) fun _ _ => id
    obtain ⟨p, r, hf, rfl⟩ := hc'
    exact ⟨p, r, none, hf, rfl⟩
  | some k =>
    cases hp : c.graph.liveNode n with
    | error fault =>
      rw [ensures_bind, ensures_of_error (addCoveredSuccessor_eq_error hp k)]
    | ok p =>
      have hlive := Graph.liveNode_eq_ok.1 hp
      cases Option.some.inj (hm.symm.trans hlive.1)
      have hset := reachedSet_eq_ok.1 hr
      have hf := fertile_of_findCover h hlive hset hcover
      obtain ⟨q, hk, -⟩ := hf.cover k rfl
      simp only [ensures_bind, ensures_of_ok (addCoveredSuccessor_eq_ok hlive hset hk),
        ensures_pure]
      exact ⟨m, r, some k, hf, rfl⟩

theorem regular_addSuccessor (parent : NodeId) (state : State) :
    Maintains c₀.RegularSince (addSuccessor parent state) := by
  intro c h
  refine (addSuccessor_sprouts h.regular.toStructured parent state).imp (fun _ c' hc' => ?_)
    fun _ c' hc' => hc' ▸ h
  obtain ⟨p, r, hf, rfl⟩ := hc'
  exact h.step (h.regular.sprout hf) (evolves_sprout hf)

theorem regular_addOrCover {m : Node State Tracked} (hm : c₀.graph.node? n = some m)
    (state : State) : Maintains c₀.RegularSince (addOrCover m.set n state) := by
  intro c h
  obtain ⟨p, hp, -, hset, -⟩ := h.evolves.node hm
  refine (addOrCover_sprouts h.regular.toStructured ⟨p, hp, hset⟩ state).imp (fun _ c' hc' => ?_)
    fun _ c' hc' => hc' ▸ h
  obtain ⟨p, r, cover, hf, rfl⟩ := hc'
  exact h.step (h.regular.sprout hf) (evolves_sprout hf)

theorem answers_of_reducedFor {K : Key} (hK : c.reducedFor n = .ok K)
    (hs : c.StartsFrom s K.state) : c.Answers n s := by
  obtain ⟨m, b, hm, hb, hstate, -⟩ := reducedFor_spec hK
  exact ⟨m, b, hm, hb, hstate ▸ hs⟩

theorem regular_resolveCall (n : NodeId) : Maintains c₀.RegularSince (resolveCall n) := by
  intro c h
  have hr := h.regular
  refine (resolveCall_cases c n).imp (fun res c' hc' => ?_) fun _ _ hc' => hc'.2 ▸ h
  obtain ⟨K, hK, answer⟩ := hc'
  cases answer with
  | stored hs =>
    obtain ⟨hpos, hkey, -⟩ := hr.stored hs
    have hlinked := hr.linkEntry (answers_of_reducedFor hK (hkey.startsFrom hpos))
    exact h.rest (hlinked.quiet _ c.shutdown)
  | @similar t cache hno hs =>
    have hstarts := startsFrom_of_lookupSimilar hr.stored (fun hs => hr.similar hs) hs
    have hans : Answers { c with cache } n t := answers_of_reducedFor hK hstarts
    have hlinked := (hr.lookupSimilar hs).linkEntry hans
    exact h.rest (hlinked.quiet _ c.shutdown)
  | fresh hno hs =>
    obtain ⟨m, b, hm, hb, hstate, -, -, hblock⟩ := reducedFor_spec hK
    have hfresh := hr.cacheSet hblock
    obtain ⟨hpos, hkey, -⟩ := hfresh.stored (lookup_cacheSet.trans (if_pos rfl))
    have e : c.Evolves (c.cacheSet K) := evolves_cacheSet
    obtain ⟨m', hm', hms, -⟩ := e.node hm
    have hans : (c.cacheSet K).Answers n c.sets.size := by
      refine ⟨m', b, hm', hms ▸ hb, ?_⟩
      rw [hms]
      exact hstate ▸ hkey.startsFrom hpos
    exact (h.step hfresh e).rest ((hfresh.linkEntry hans).quiet _ c.shutdown)

theorem regular_expandExit (n exit : NodeId) : Maintains c₀.RegularSince (expandExit n exit) := by
  intro c h
  simp only [expandExit, ensures_bind, ensures_get]
  rw [ensures_liftExcept]
  refine ⟨fun p hp => ?_, fun _ _ => h⟩
  rw [ensures_liftExcept]
  refine ⟨fun b hb => ?_, fun _ _ => h⟩
  rw [ensures_liftExcept]
  refine ⟨fun inner hinner => ?_, fun _ _ => h⟩
  have hlive := Graph.liveNode_eq_ok.1 hp
  have hexit := Graph.liveNode_eq_ok.1 hinner
  obtain ⟨r, hr, -⟩ := h.regular.set_of_live hlive
  have hf : c.Fertile n p r none := ⟨hlive, hr, by simp⟩
  simp only [ensures_of_ok (addSuccessor_eq_ok hlive hr), modifyLinks, ensures_modify, ensures_pure]
  have h' : c₀.RegularSince (c.sprout n p r (c.reducer.expand p.state b inner.state) none) :=
    h.step (h.regular.sprout hf) (evolves_sprout hf)
  exact h'.rest (h'.regular.linkExpanded hexit.lt_size)

theorem regular_expandBlockExits (n : NodeId) (s : SetId) :
    Maintains c₀.RegularSince (expandBlockExits n s) := by
  refine Maintains.get.bind fun c => (Maintains.lift _).bind fun exits =>
    (Maintains.lift _).bind fun K => (Maintains.lift _).bind fun call => ?_
  refine (Maintains.mapM (regular_expandExit n) _).bind fun nodes => ?_
  exact (Maintains.modify fun c h => h.rest (h.regular.recordReturns _)).bind fun _ => .pure _

theorem regular_poll : Maintains c₀.RegularSince poll := by
  intro c h
  refine poll_spec.imp (fun _ d hd => ?_) fun _ d hd => hd.2 ▸ h
  obtain ⟨shutdown, rfl⟩ := hd
  exact h.rest (h.regular.quiet c.statistics shutdown)

theorem regular_popWaiting {c₁ : Context} (s : SetId) (h : c₁.RegularSince c) :
    Ensures (popWaiting s) c
      (fun next c' => c₁.RegularSince c' ∧ ∀ n, next = some n →
        ∃ m, c'.graph.node? n = some m ∧ m.set = s)
      (fun _ c' => c₁.RegularSince c') := by
  simp only [popWaiting, ensures_bind, ensures_get]
  rw [ensures_liftExcept]
  refine ⟨fun r hr => ?_, fun _ _ => h⟩
  have hset := reachedSet_eq_ok.1 hr
  obtain ⟨hnd, hsub⟩ := h.regular.waitlist hset
  obtain ⟨hid, hfirst, hnodes, -⟩ := ReachedSet.pop_spec hsub
  obtain ⟨hnd', hsub'⟩ := ReachedSet.waitlist_pop hnd hsub
  simp only [ensures_of_ok (modifySet_eq_ok hset), ensures_pure]
  refine ⟨h.step (h.regular.putSet hset hid hfirst r.last_pop hnodes
    ⟨hnd', fun n hn => hsub n (hsub' n hn)⟩) (evolves_putSet hset hfirst), fun n hn => ?_⟩
  have hw : n ∈ r.waitlist := (ReachedSet.perm_of_pop hsub hn).mem_iff.1 (List.mem_cons_self ..)
  obtain ⟨m, hm, hms⟩ := h.regular.live_of_mem hset (hsub n hw)
  exact ⟨m, hm.1, hms⟩

end Action

namespace Exploring

theorem maintains_during {α : Type} {p : Context → Prop} {active : List SetId} {action : Action α}
    (h : Maintains p action) : Maintains p (during active action) :=
  fun c hc => ensures_during.2 (h c hc)

/-- An action at a node can count on what is known of it when it is taken from the waitlist. -/
structure ActionsKeep (since : Context → Context → Prop) (taken : Context → SetId → NodeId → Prop) :
    Prop where
  refl : ∀ ⦃c₀ c⦄, since c₀ c → since c c
  trans : ∀ ⦃c₀ c c'⦄, since c₀ c → since c c' → since c₀ c'
  next : ∀ ⦃c₀ c⦄ (s : SetId), since c₀ c → Ensures (Action.nextWaiting s) c
    (fun next c' => since c₀ c' ∧ ∀ n, next = some n → taken c' s n) (fun _ c' => since c₀ c')
  cover : ∀ ⦃c₀ s n⦄ (state : State), taken c₀ s n →
    Maintains (since c₀) (Action.addOrCover s n state)
  resolve : ∀ c₀ (n : NodeId), Maintains (since c₀) (Action.resolveCall n)
  expand : ∀ c₀ (n : NodeId) (s : SetId), Maintains (since c₀) (Action.expandBlockExits n s)

namespace ActionsKeep

variable {since : Context → Context → Prop} {taken : Context → SetId → NodeId → Prop}

theorem perform (h : ActionsKeep since taken) (program : Program)
    {exploreSet : SetId → Exploring Unit} (hexplore : ∀ t, Maintains (since c₀) (exploreSet t))
    (enclosing : List SetId) (hn : taken c₀ s n) (todo : NodeTask) :
    Maintains (since c₀) (perform program exploreSet enclosing s n todo) := by
  cases todo with
  | stop => exact .pure _
  | successors state precision =>
    exact .forM (fun next => maintains_during (h.cover next hn)) _
  | call =>
    have hresolve : Maintains (since c₀) (return (← Action.resolveCall n).set) :=
      (h.resolve c₀ n).bind fun _ => .pure _
    have henter : Maintains (since c₀) (Action.enterCall enclosing.length n) :=
      Maintains.get.bind fun c => .ite ((Maintains.throw _).bind fun _ => hresolve) hresolve
    refine (maintains_during henter).bind fun t => ?_
    have hexpand : Maintains (since c₀)
        (do let _ ← during (s :: enclosing) (Action.expandBlockExits n t)) :=
      (maintains_during (h.expand c₀ n t)).bind fun _ => .pure _
    refine .ite ?_ hexpand
    refine (maintains_during (Maintains.get.bind fun c => .lift _)).bind fun r => ?_
    exact .ite ((hexplore t).bind fun _ => hexpand) hexpand

theorem explore (h : ActionsKeep since taken) (c₀ : Context) (program : Program) (fuel : Nat)
    (enclosing : List SetId) (s : SetId) :
    Maintains (since c₀) (explore program fuel enclosing s) := by
  induction fuel generalizing enclosing s c₀ with
  | zero => exact .throw _
  | succ fuel ih =>
    intro c hc
    simp only [Exploring.explore, ensures_bind, ensures_during]
    refine (h.next s hc).imp (fun next d hd => ?_) (fun _ _ => id)
    obtain ⟨hd, hnext⟩ := hd
    cases next with
    | none => exact hd
    | some n =>
      simp only [Action.ask, ensures_bind, ensures_during, ensures_get]
      rw [ensures_liftExcept]
      refine ⟨fun todo _ => ?_, fun _ _ => hd⟩
      have hperform : Maintains (since d) (Exploring.perform program
          (Exploring.explore program fuel (s :: enclosing)) enclosing s n todo) :=
        h.perform program (fun t => ih d (s :: enclosing) t) enclosing (hnext n rfl) todo
      refine (hperform d (h.refl hd)).imp (fun _ d' hd' => ?_) (fun _ d' hd' => h.trans hd hd')
      exact ih c₀ enclosing s d' (h.trans hd hd')

end ActionsKeep

theorem actionsKeep_regularSince : ActionsKeep RegularSince
    fun c s n => ∃ m, c.graph.node? n = some m ∧ m.set = s where
  refl := fun _ _ h => .refl h.regular
  trans := fun _ _ _ h h' => h.trans h'
  next := by
    intro c₀ c s h
    rw [Action.nextWaiting, ensures_bind]
    exact (Action.regular_poll c h).imp (fun _ d hd => Action.regular_popWaiting s hd) fun _ _ => id
  cover := by
    rintro c₀ s n state ⟨m, hm, rfl⟩
    exact Action.regular_addOrCover hm state
  resolve := fun _ n => Action.regular_resolveCall n
  expand := fun _ n s => Action.regular_expandBlockExits n s

theorem regular_explore (program : Program) (fuel : Nat) (enclosing : List SetId) (s : SetId) :
    Maintains c₀.RegularSince (explore program fuel enclosing s) :=
  actionsKeep_regularSince.explore c₀ program fuel enclosing s

end Exploring

theorem regular_run (program : Program) (fuel : Nat) :
    Maintains c₀.RegularSince (run program fuel) :=
  ((Exploring.regular_explore program fuel [] .topLevel).adaptExcept _).bind fun _ =>
    Maintains.get.bind fun _ => .liftFault _

end Blockwise
