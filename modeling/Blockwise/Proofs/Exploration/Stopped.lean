import Blockwise.Proofs.Exploration.Explore

/-!
What an exploration leaves behind when it is stopped. On each level of the nesting, the call node
whose block was being explored has been taken from its waitlist, and it has not got the exits of the
block yet. Every other node still waits, or it is done. No invariant breaks on the way: an
exploration is stopped by the shutdown flag or the depth limit, or because its fuel is used up.
-/
namespace Blockwise

open Context

variable {program : Program} {c c' c₀ d : Context} {n : NodeId} {s t : SetId}

namespace Context

/-- The call node `n` was taken from the waitlist, but it has got no exit of its block. -/
structure Held (c : Context) (s : SetId) (n : NodeId) : Prop where
  member : ∃ m, c.graph.Live n m ∧ m.set = s
  call : c.task s n = .ok .call
  taken : ¬ c.Waits n
  childless : c.childrenOf n = []

/-- The calls of a stopped exploration, outermost first: each is a call in the result of the one
before. -/
inductive Suspended (c : Context) : SetId → List NodeId → Prop
  | none {s : SetId} : c.Suspended s []
  | last {s : SetId} {n : NodeId} (hn : c.Held s n) : c.Suspended s [n]
  | nested {s t : SetId} {n : NodeId} {calls : List NodeId} (hn : c.Held s n)
      (hl : c.links.setOfEntry n = some t) (hc : c.Suspended t calls) : c.Suspended s (n :: calls)

theorem Held.not_open (hn : c.Held s n) : ¬ c.Open n := by
  obtain ⟨m, hm, -⟩ := hn.member
  rintro (hw | hle)
  · exact hn.taken hw
  · exact Nat.not_le.2 hm.lt_size hle

theorem Held.grows (h : c.Sound) (g : Grows program c c') (hn : c.Held s n) : c'.Held s n where
  member := by
    obtain ⟨m, hm, hs⟩ := hn.member
    obtain ⟨m', hm', -, -, hset, -⟩ := (g.toExtends h).node hm
    exact ⟨m', hm', hset.trans hs⟩
  call := (g.toExtends h).task h.toStructured hn.call
  taken := fun hw => hn.not_open (g.open_of_waits h hw)
  childless := by
    have hviews := g.views_of_not_open h hn.not_open
    rw [views, views, hn.childless] at hviews
    exact List.map_eq_nil_iff.1 hviews

theorem Suspended.grows (h : c.Sound) (g : Grows program c c') {calls : List NodeId}
    (hc : c.Suspended s calls) : c'.Suspended s calls := by
  induction hc with
  | none => exact .none
  | last hn => exact .last (hn.grows h g)
  | nested hn hl _ ih =>
    exact .nested (hn.grows h g) ((g.entry_of_not_open hn.not_open).trans hl) ih

end Context

theorem Working.held (w : Working program c₀ n c) {p : Node State Tracked}
    (hp : c.graph.Live n p) (ht : c.task p.set n = .ok .call) (hviews : c.views n = []) :
    c.Held p.set n where
  member := ⟨p, hp, rfl⟩
  call := ht
  taken := fun hw => w.closed (Or.inl hw)
  childless := List.map_eq_nil_iff.1 hviews

/-- The exploration was busy with these calls. Every other node that was open waits, or is done. -/
structure Stopped (program : Program) (s : SetId) (c c' : Context) (calls : List NodeId) :
    Prop where
  grows : Grows program c c'
  suspended : c'.Suspended s calls
  settled : ∀ k, c.Open k → k ∉ calls → c'.Settled program [] k

namespace Stopped

theorem start : Stopped program s c c [] := ⟨.refl, .none, fun _ hk _ => .of_open hk⟩

theorem settled_of (h : d.Sound) {calls : List NodeId} (st : Stopped program s d c' calls)
    {active : List SetId} {k : NodeId} (hk : d.Settled program active k) (hnot : k ∉ calls) :
    c'.Settled program [] k :=
  (hk.weaken fun _ ht => absurd ht List.not_mem_nil).grows h st.grows fun ho => st.settled k ho hnot

end Stopped

namespace Exploring

variable {exploreSet : SetId → Exploring Unit} {enclosing : List SetId}

def Halts (program : Program) (s : SetId) (action : Exploring Unit) (c : Context) : Prop :=
  Ensures action c (fun _ c' => Grows program c c')
    fun abort c' => abort.reason.Benign ∧ ∃ calls, Stopped program s c c' calls

theorem Answered.expand_ok (h : c₀.Sound) (a : Answered program c₀ s n t c) :
    Ensures (Action.expandBlockExits n t) c (fun _ c' => Working program c₀ n c')
      (fun _ _ => False) := by
  have hs := a.working.sound h
  obtain ⟨p, hp, rfl, htask⟩ := a.task
  obtain ⟨m, b, -, -, hm, -, -, -, -, hb, -⟩ := hs.call a.entry
  cases Option.some.inj (hm.symm.trans hp.1)
  exact (Action.expandBlockExits_spec program hs hp htask a.entry hb a.cached).imp
    (fun _ _ st => a.working.unfolds h st.1) fun _ _ => id

section

variable (h : c₀.Sound) (hbare : c₀.Bare) (w : Working program c₀ n c)
  (hopen : ∀ k, c₀.Open k → k = n ∨ c.Open k) (hviews : c.views n = [])
  (hc : ∀ k, c.graph.Edge n k → k < c₀.graph.size) {p : Node State Tracked}
  (hp : c.graph.Live n p) (ho : c₀.Encloses enclosing p.set)
  (hidle : c.IdleBut (p.set :: enclosing))
  (rec : ∀ inner d, d.Sound → inner < d.sets.size → d.Encloses (p.set :: enclosing) inner →
    d.HasBlock inner → d.Bare → d.IdleBut (inner :: p.set :: enclosing) →
    Halts program inner (exploreSet inner) d)

include h hbare w hopen hviews hc hp ho hidle rec

theorem performCall_halts (ht : c.task p.set n = .ok .call) :
    Ensures (perform program exploreSet enclosing p.set n .call) c (fun _ _ => True)
      fun abort c' => abort.reason.Benign ∧ ∃ calls, Stopped program p.set c₀ c' calls := by
  simp only [perform, ensures_bind, ensures_during]
  refine (enterCall_spec h w hc hp ht _ []).imp (fun t d hd => ?_) (fun fault d hd => ?_)
  · obtain ⟨a, hsettled, hviews', hothers⟩ := hd
    have hd := a.working.sound h
    obtain ⟨-, -, r, -, -, -, -, hr, -⟩ := hd.call a.entry
    have expand : ∀ d', Grows program d d' → Ensures (Action.expandBlockExits n t) d'
        (fun _ _ => True) fun fault c' => (Halt.fault fault).Benign ∧
          ∃ calls, Stopped program p.set c₀ c' calls := fun d' g =>
      ((a.nested h g).expand_ok h).imp (fun _ _ _ => trivial) fun _ _ => False.elim
    simp only [Action.ask, ensures_ite, ensures_bind, ensures_during, ensures_get, ensures_pure,
      ensures_lift_of_ok (reachedSet_eq_ok.2 hr)]
    refine ⟨fun hnew => ⟨fun _ => ?_, fun _ => expand d .refl⟩, fun _ => expand d .refl⟩
    refine (rec t d hd (lt_size_of_sets hr) ((ho.grows h a.working.grows).enter a.enters)
      (hd.call a.entry).hasBlock (a.working.grows.bare h hbare) fun q hq => ?_).imp
      (fun _ d' g => expand d' g) (fun abort d' hd' => ⟨hd'.1, ?_⟩)
    · exact hothers q (List.ne_of_not_mem_cons hq) (hidle q (List.not_mem_of_not_mem_cons hq))
    · obtain ⟨-, calls, st⟩ := hd'
      have a' := a.nested h st.grows
      obtain ⟨p', hp', hset, ht'⟩ := a'.task
      -- this call is suspended around those of the nested exploration
      have hheld : d'.Held p.set n := hset ▸ a'.working.held hp' (hset ▸ ht')
        ((st.grows.views_of_not_open hd a.working.closed).trans (hviews'.trans hviews))
      refine ⟨n :: calls, a'.working.grows, .nested hheld a'.entry st.suspended,
        fun k hk hnot => ?_⟩
      obtain ⟨hne, hnot⟩ := not_or.1 fun hmem => hnot (List.mem_cons.2 hmem)
      exact st.settled_of hd (hsettled k ((hopen k hk).resolve_left hne)) hnot
  · obtain ⟨rfl, rfl⟩ := hd
    refine ⟨Halt.benign_fault rfl, [n], w.grows, .last (w.held hp ht hviews), fun k hk hnot => ?_⟩
    exact .of_open ((hopen k hk).resolve_left fun hkn => hnot (List.mem_singleton.2 hkn))

theorem perform_halts {todo : NodeTask} (ht : c.task p.set n = .ok todo) :
    Ensures (perform program exploreSet enclosing p.set n todo) c (fun _ _ => True)
      fun abort c' => abort.reason.Benign ∧ ∃ calls, Stopped program p.set c₀ c' calls := by
  cases todo with
  | stop => trivial
  | successors state precision =>
    exact (performSuccessors_spec h w hopen hp ht).imp (fun _ _ _ => trivial) fun _ _ => False.elim
  | call => exact performCall_halts h hbare w hopen hviews hc hp ho hidle rec ht

end

/-- Wherever an exploration is stopped, only its suspended calls are lost. -/
theorem explore_halts (fuel : Nat) (enclosing : List SetId) (h : c.Sound) (hs : s < c.sets.size)
    (ho : c.Encloses enclosing s) (hb : s ≠ .topLevel → c.HasBlock s) (hbare : c.Bare)
    (hidle : c.IdleBut (s :: enclosing)) :
    Halts program s (explore program fuel enclosing s) c := by
  -- the nested explorations and the rest of this one have less fuel
  induction fuel generalizing c enclosing s with
  | zero => exact ⟨Halt.benign_outOfFuel, [], .start⟩
  | succ fuel ih =>
    have hr := Array.getElem?_eq_getElem hs
    unfold Halts
    simp only [explore, ensures_bind, ensures_during]
    refine (nextWaiting_working program h hr).imp (fun next d hd => ?_) (fun fault d hd => ?_)
    · obtain ⟨g, hstill, -, hnext⟩ := hd
      cases next with
      | none => exact g
      | some n =>
        obtain ⟨w, hopen, hc, hviews, p, hp, rfl⟩ := hnext n rfl
        have hstill : d.IdleBut (p.set :: enclosing) := fun q hq => hstill q (hidle q hq)
        obtain ⟨todo, ht⟩ := exists_task (w.sound h).toStructured hp
          fun hne => (g.toExtends h).hasBlock (hb hne)
        simp only [Action.ask, ensures_bind, ensures_during, ensures_get, ensures_lift_of_ok ht]
        have hperform := (perform_spec h w hopen hp hc ho (fun t d' hd' hlt ho' =>
          explore_spec fuel (p.set :: enclosing) hd' hlt ho') ht).and
            (perform_halts h hbare w hopen (hviews hbare) hc hp ho hstill
              (fun t d' hd' hlt ho' hb' => ih (p.set :: enclosing) hd' hlt ho' fun _ => hb') ht)
        refine hperform.imp (fun _ d' hd' => ?_) fun _ _ => And.right
        -- what is left of the waitlist is explored next
        obtain ⟨⟨w', hsettled⟩, -⟩ := hd'
        have hd := w'.sound h
        have e := w'.grows.toExtends h
        obtain ⟨r', hr', -⟩ := e.set hr
        obtain ⟨hidle', hdone⟩ := hsettled hbare (hviews hbare) hstill
        refine (ih enclosing hd (lt_size_of_sets hr') (ho.grows h w'.grows)
          (fun hne => e.hasBlock (hb hne)) (w'.grows.bare h hbare) hidle').imp
          (fun _ _ g' => w'.grows.trans h g') (fun abort c' hc' => ⟨hc'.1, ?_⟩)
        obtain ⟨-, calls, st⟩ := hc'
        exact ⟨calls, w'.grows.trans h st.grows, st.suspended,
          fun k hk hnot => st.settled_of hd (hdone k hk) hnot⟩
    · obtain ⟨rfl, rfl⟩ := hd
      exact ⟨Halt.benign_fault rfl, [], .start⟩

end Exploring

theorem run_halts (fuel : Nat) (h : c.Sound) (hbare : c.Bare) (hidle : c.IdleBut [.topLevel]) :
    Ensures (run program fuel) c (fun _ c' => Grows program c c') fun halt c' =>
      halt.Benign ∧ ∃ calls, Stopped program .topLevel c c' calls := by
  simp only [run, ensures_bind, ensures_adaptExcept]
  refine (Exploring.explore_halts fuel [] h h.topLevel (by simp [Encloses]) (absurd rfl) hbare
    hidle).imp (fun _ d g => ?_) (fun _ _ => id)
  obtain ⟨targets, ht⟩ := exists_targets (g.sound h)
  simp only [ensures_get, ensures_liftFault, ht]
  exact ⟨fun _ _ => g, fun _ hf => by cases hf⟩

end Blockwise
