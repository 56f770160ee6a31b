import Blockwise.Proofs.Exploration.Explore

/-!
An induction over explorations. Work begins only at nodes that were waiting, and no other node
covers these. So what every step at such a node keeps, an exploration keeps, wherever it stops.
-/
namespace Blockwise

open Relation (ReflTransGen)
open Context

variable {program : Program} {c c' c₀ : Context} {n : NodeId} {s : SetId} {P : Context → Prop}

namespace Context

def Free (c : Context) (n : NodeId) : Prop := ∃ m, c.graph.Live n m ∧ m.coveredBy = none

theorem Extends.free (e : c.Extends c') (hn : c.Free n) : c'.Free n := by
  obtain ⟨m, hm, hcover⟩ := hn
  obtain ⟨m', hm', -, -, -, -, hcover', -⟩ := e.node hm
  exact ⟨m', hm', hcover'.trans hcover⟩

end Context

/-- Only free nodes wait, and the steps of an exploration keep the property when they are made at
free nodes. -/
structure StepsKeep (program : Program) (P : Context → Prop) : Prop where
  free : ∀ ⦃c n⦄, P c → c.Waits n → c.Free n
  quiet : ∀ ⦃c : Context⦄ (statistics : Statistics) (shutdown : Shutdown), c.Sound → P c →
    P { c with statistics, shutdown }
  pop : ∀ ⦃c : Context⦄ ⦃s : SetId⦄ ⦃r : ReachedSet⦄, c.Sound → P c → c.sets[s]? = some r →
    P (c.putSet s r.pop.2)
  resolve : ∀ ⦃c c' n t⦄, c.Sound → P c → c.Free n → Resolves n c t c' → P c'
  unfold : ∀ ⦃c c' n⦄, c.Sound → P c → c.Free n → Unfolds program n c c' → P c'

theorem StepsKeep.unfolds (hk : StepsKeep program P) (h : c.Sound) (hP : P c) (hn : c.Free n)
    (st : ReflTransGen (Unfolds program n) c c') : P c' := by
  induction st with
  | refl => exact hP
  | tail st step ih =>
    obtain ⟨hs, he, -⟩ := unfolds_spec h st
    exact hk.unfold hs ih (he.free hn) step

namespace Exploring

variable {exploreSet : SetId → Exploring Unit} {enclosing : List SetId} {p : Node State Tracked}
  {todo : NodeTask}

section

variable (hk : StepsKeep program P) (h : c₀.Sound) (w : Working program c₀ n c)
  (hp : c.graph.Live n p) (hn : c.Free n) (hP : P c)

include hk h w hp hn hP

theorem keeps_successors {state : State} {precision : Tracked}
    (ht : c.task p.set n = .ok (.successors state precision)) :
    Ensures (perform program exploreSet enclosing p.set n (.successors state precision)) c
      (fun _ c' => Grows program c₀ c' ∧ P c') (fun _ c' => P c') := by
  have hs := w.sound h
  have loop := Ensures.forM (l := program.successors state precision) (s := c)
    (f := fun next => during (p.set :: enclosing) (Action.addOrCover p.set n next))
    (B := fun _ c' => P c') (I := fun _ c' => ReflTransGen (Unfolds program n) c c')
    (fun _ next d hmem hd => by
      obtain ⟨hsd, he, -⟩ := unfolds_spec hs hd
      obtain ⟨p', hp', -, -, hset, -⟩ := he.node hp
      rw [ensures_during, ← hset]
      refine (Action.addOrCover_spec hsd hp' (hset ▸ he.task hs.toStructured ht) hmem).imp
        (fun _ d' hd' => hd.tail hd'.1) fun _ _ => False.elim)
    [] .refl
  exact loop.imp (fun _ d hd => ⟨(w.unfolds h hd).grows, hk.unfolds hs hP hn hd⟩) fun _ _ => id

variable (hc : ∀ k, c.graph.Edge n k → k < c₀.graph.size)
  (rec : ∀ inner d, d.Sound → P d → inner < d.sets.size → Ensures (exploreSet inner) d
    (fun _ d' => Grows program d d' ∧ P d') fun _ d' => P d')

include hc rec

theorem keeps_call (ht : c.task p.set n = .ok .call) :
    Ensures (perform program exploreSet enclosing p.set n .call) c
      (fun _ c' => Grows program c₀ c' ∧ P c') (fun _ c' => P c') := by
  have hs := w.sound h
  simp only [perform, ensures_bind, ensures_during]
  refine ((enterCall_resolves hs.toStructured hp ht _).and (enterCall_spec h w hc hp ht _ [])).imp
    (fun t d hd => ?_) fun _ d hd => hd.1 ▸ hP
  obtain ⟨⟨statistics, st⟩, a, -⟩ := hd
  have hd := a.working.sound h
  obtain ⟨-, -, r, -, -, -, -, hr, -⟩ := hd.call a.entry
  have hquiet := Grows.sound_quiet hs statistics c.shutdown
  have hPd : P d := hk.resolve hquiet (hk.quiet statistics c.shutdown hs hP) hn st
  have hnd : d.Free n := (st.spec hquiet).2.free hn
  have expand : ∀ d', Grows program d d' → P d' → Ensures (Action.expandBlockExits n t) d'
      (fun _ c' => Grows program c₀ c' ∧ P c') (fun _ c' => P c') := by
    intro d' g hP'
    have a' := a.nested h g
    have hs' := a'.working.sound h
    obtain ⟨q, hq, hset, ht'⟩ := a'.task
    obtain ⟨m, b, -, -, hm, -, -, -, -, hb, -⟩ := hs'.call a'.entry
    cases Option.some.inj (hm.symm.trans hq.1)
    have kept : ∀ {c'}, ReflTransGen (Unfolds program n) d' c' → P c' :=
      hk.unfolds hs' hP' ((g.toExtends hd).free hnd)
    refine (Action.expandBlockExits_spec program hs' hq (hset ▸ ht') a'.entry hb a'.cached).imp
      (fun _ c' hc' => ⟨(a'.working.unfolds h hc'.1).grows, kept hc'.1⟩) fun _ _ => False.elim
  simp only [Action.ask, ensures_ite, ensures_bind, ensures_during, ensures_get, ensures_pure,
    ensures_lift_of_ok (reachedSet_eq_ok.2 hr)]
  refine ⟨fun _ => ⟨fun _ => ?_, fun _ => expand d .refl hPd⟩, fun _ => expand d .refl hPd⟩
  exact (rec t d hd hPd (lt_size_of_sets hr)).imp (fun _ d' hd' => expand d' hd'.1 hd'.2)
    fun _ _ => id

theorem keeps_perform (ht : c.task p.set n = .ok todo) :
    Ensures (perform program exploreSet enclosing p.set n todo) c
      (fun _ c' => Grows program c₀ c' ∧ P c') (fun _ c' => P c') := by
  cases todo with
  | stop => exact ⟨w.grows, hP⟩
  | successors state precision => exact keeps_successors hk h w hp hn hP ht
  | call => exact keeps_call hk h w hp hn hP hc rec ht

end

theorem keeps_explore (hk : StepsKeep program P) (fuel : Nat) (enclosing : List SetId)
    (h : c.Sound) (hP : P c) (hs : s < c.sets.size) :
    Ensures (explore program fuel enclosing s) c (fun _ c' => Grows program c c' ∧ P c')
      (fun _ c' => P c') := by
  induction fuel generalizing c enclosing s with
  | zero => exact hP
  | succ fuel ih =>
    have hr := Array.getElem?_eq_getElem hs
    simp only [explore, ensures_bind, ensures_during]
    refine ((nextWaiting_spec hr).and (nextWaiting_working program h hr)).imp
      (fun next d hd => ?_) fun _ d hd => hd.1.2 ▸ hP
    obtain ⟨⟨-, shutdown, rfl⟩, g, -, -, hnext⟩ := hd
    have hPd := hk.quiet c.statistics shutdown (Grows.sound_pop h hr).1 (hk.pop h hP hr)
    cases next with
    | none => exact ⟨g, hPd⟩
    | some n =>
      obtain ⟨w, -, hc, -, p, hp, rfl⟩ := hnext n rfl
      have hn : c.Waits n := w.opened.resolve_right fun hge => w.closed (Or.inr hge)
      simp only [Action.ask, ensures_bind, ensures_during, ensures_get]
      rw [ensures_liftExcept]
      refine ⟨fun todo ht => ?_, fun _ _ => hPd⟩
      refine (keeps_perform hk h w hp ((g.toExtends h).free (hk.free hP hn)) hPd hc
        (fun inner d hd hP' hinner => ih (p.set :: enclosing) hd hP' hinner) ht).imp
        (fun _ d hd => ?_) fun _ _ => id
      obtain ⟨g', hP'⟩ := hd
      obtain ⟨r', hr', -⟩ := (g'.toExtends h).set hr
      exact (ih enclosing (g'.sound h) hP' (lt_size_of_sets hr')).imp
        (fun _ _ hc' => ⟨g'.trans h hc'.1, hc'.2⟩) fun _ _ => id

end Exploring

theorem keeps_of_stepsKeep (hk : StepsKeep program P) (fuel : Nat) (h : c.Sound) (hP : P c) :
    P (finalState (run program fuel c)) := by
  have hrun : Ensures (run program fuel) c (fun _ c' => P c') (fun _ c' => P c') := by
    simp only [run, ensures_bind, ensures_adaptExcept]
    refine (Exploring.keeps_explore hk fuel [] h hP h.topLevel).imp (fun _ d hd => ?_)
      fun _ _ => id
    simp only [ensures_get, ensures_liftFault]
    exact ⟨fun _ _ => hd.2, fun _ _ => hd.2⟩
  exact hrun.final

end Blockwise
