import Blockwise.Proofs.Termination.Measure

/-!
Explorations that converge. The task at a node that was taken from a waitlist puts nodes of lower
rank in its place, or a new state is found; so what is left to be done gets less with every step, in
nested explorations, too.
-/
namespace Blockwise

open Relation (ReflTransGen TransGen)
open Context

variable {program : Program} {init : State} {tracked : Tracked} {c c₀ : Context} {n : NodeId}
  {s : SetId} {p : Node State Tracked}

namespace Exploring

variable {α β : Type} {F : Nat → Exploring α} {ok : α → Context → Prop}

/-- With enough fuel the result does not depend on the fuel any more, and it is not that the fuel is
used up. -/
def Converges (F : Nat → Exploring α) (c : Context) (ok : α → Context → Prop) : Prop :=
  ∃ enough result, (∀ fuel, enough ≤ fuel → F fuel c = result) ∧
    Ensures (fun _ => result) c ok fun abort _ => abort.reason ≠ .outOfFuel

namespace Converges

theorem of_ensures {action : Exploring α}
    (h : Ensures action c ok fun abort _ => abort.reason ≠ .outOfFuel) :
    Converges (fun _ => action) c ok :=
  ⟨0, action c, fun _ _ => rfl, h⟩

theorem of_action {active : List SetId} {action : Action α} {bad : Fault → Context → Prop}
    (h : Ensures action c ok bad) : Converges (fun _ => during active action) c ok :=
  of_ensures (ensures_during.2 (h.imp (fun _ _ => id) fun _ _ _ => by simp))

theorem bind {G : Nat → α → Exploring β} {ok' : β → Context → Prop} (h : Converges F c ok)
    (hG : ∀ a c', ok a c' → Converges (fun fuel => G fuel a) c' ok') :
    Converges (fun fuel => F fuel >>= G fuel) c ok' := by
  obtain ⟨enough, result, hF, hresult⟩ := h
  cases result with
  | error e c' =>
    exact ⟨enough, .error e c', fun fuel hle => bind_eq_of_error (hF fuel hle), hresult⟩
  | ok a c' =>
    obtain ⟨enough', result', hG, hresult'⟩ := hG a c' hresult
    refine ⟨max enough enough', result', fun fuel hle => ?_, hresult'⟩
    exact (bind_eq_of_ok (hF fuel ((le_max_left ..).trans hle))).trans
      (hG fuel ((le_max_right ..).trans hle))

theorem of_succ (h : Converges (fun fuel => F (fuel + 1)) c ok) : Converges F c ok := by
  obtain ⟨enough, result, hF, hresult⟩ := h
  refine ⟨enough + 1, result, fun fuel hle => ?_, hresult⟩
  obtain ⟨fuel, rfl⟩ := Nat.exists_eq_succ_of_ne_zero (Nat.ne_zero_of_lt hle)
  exact hF fuel (Nat.le_of_succ_le_succ hle)

theorem imp {ok' : α → Context → Prop} (h : Converges F c ok)
    (hok : ∀ a c', ok a c' → ok' a c') : Converges F c ok' := by
  obtain ⟨enough, result, hF, hresult⟩ := h
  exact ⟨enough, result, hF, hresult.imp hok fun _ _ => id⟩

end Converges

def Lightens (program : Program) (init : State) (tracked : Tracked) (c c' : Context) : Prop :=
  Grows program c c' ∧ (c'.weight program init tracked).Le (c.weight program init tracked)

theorem nextWaiting_weight (program : Program) (init : State) (tracked : Tracked) (h : c.Sound)
    {r : ReachedSet} (hr : c.sets[s]? = some r) : Ensures (Action.nextWaiting s) c
      (fun next d => match next with
        | none => (d.weight program init tracked).Le (c.weight program init tracked)
        | some n => Weight.Le ((d.weight program init tracked).1,
            (d.weight program init tracked).2 + {d.rankAt n}) (c.weight program init tracked))
      (fun _ c' => c' = c) := by
  refine ((nextWaiting_spec hr).and (nextWaiting_working program h hr)).imp
    (fun next d hd => ?_) fun _ _ hd => hd.1.2
  obtain ⟨⟨-, shutdown, rfl⟩, g, -, -, hnext⟩ := hd
  have hd := g.sound h
  have e := g.toExtends h
  have hwaits : ∀ k, Waits { c.putSet s r.pop.2 with shutdown } k → c.Waits k :=
    fun k hk => Grows.waits_pop h.toStructured hr hk
  cases next with
  | none =>
    refine Weight.le_of_fewer e.vacant_le ?_
    exact e.evolves.ranks_le_of_still h.toStructured hd.toStructured hwaits
  | some n =>
    obtain ⟨w, -⟩ := hnext n rfl
    have hn : c.Waits n := w.opened.resolve_right fun hge => w.closed (Or.inr hge)
    refine Weight.le_of_fewer e.vacant_le ?_
    rw [e.evolves.rankAt (h.lt_of_waits hn)]
    exact e.evolves.ranks_pop h.toStructured hd.toStructured hwaits hn fun hw =>
      w.closed (Or.inl hw)

section

variable {exploreSet : Nat → SetId → Exploring Unit} {enclosing : List SetId}
  (hfree : program.CallFree) (h : c₀.Contained program init tracked)
  (hP : c₀.partitioning.Unchained) (w : Working program c₀ n c) (hp : c.graph.Live n p)
  (hpop : Weight.Le ((c.weight program init tracked).1,
    (c.weight program init tracked).2 + {c.partitioning.rank p.state})
    (c₀.weight program init tracked))

include hpop

theorem lt_of_le {c' : Context}
    (hle : (c'.weight program init tracked).Le (c.weight program init tracked)) :
    (c'.weight program init tracked).Lt (c₀.weight program init tracked) :=
  (Weight.lt_of_replaced le_rfl (k := 0) (by simp) (by simp)).trans_le ((hle.add _).trans hpop)

include h hP

theorem converges_expand {d : Context} {t : SetId} (a : Answered program c₀ p.set n t d)
    (hle : (d.weight program init tracked).Le (c.weight program init tracked))
    (hrank : ∀ q, d.graph.Live n q → d.partitioning.rank q.state = c.partitioning.rank p.state) :
    Converges (fun _ => during (p.set :: enclosing) (Action.expandBlockExits n t) >>=
      fun _ => pure ()) d fun _ c' => Grows program c₀ c' ∧
        (c'.weight program init tracked).Lt (c₀.weight program init tracked) := by
  have hs := a.working.sound h.toSound
  obtain ⟨q, hq, hset, ht⟩ := a.task
  obtain ⟨m, b, _, _, hm, -, -, -, -, hb, -⟩ := hs.call a.entry
  cases Option.some.inj (hm.symm.trans hq.1)
  rw [← hset] at ht
  refine Converges.bind (.of_action (Action.expandBlockExits_spec program hs hq ht a.entry hb
    a.cached)) fun _ c' hc' => .of_ensures (ensures_pure.2 ?_)
  have hpartition : d.partitioning = c₀.partitioning :=
    (a.working.grows.toExtends h.toSound).evolves.partitioning
  obtain ⟨new, hnew, hranks⟩ := unfolds_ranks_le (hpartition ▸ hP) hs hq ht hc'.1
  rw [hrank _ hq] at hnew
  refine ⟨(a.working.unfolds h.toSound hc'.1).grows, ?_⟩
  exact (Weight.lt_of_replaced (unfolds_spec hs hc'.1).2.1.vacant_le hranks hnew).trans_le
    ((hle.add _).trans hpop)

omit hP

include hfree w hp

theorem converges_successors {state : State} {precision : Tracked}
    (ht : c.task p.set n = .ok (.successors state precision)) :
    Converges (fun fuel => perform program (exploreSet fuel) enclosing p.set n
      (.successors state precision)) c fun _ c' => Grows program c₀ c' ∧
        (c'.weight program init tracked).Lt (c₀.weight program init tracked) := by
  have hs := w.sound h.toSound
  have loop := Ensures.forM (l := program.successors state precision) (s := c)
    (f := fun next => during (p.set :: enclosing) (Action.addOrCover p.set n next))
    (B := fun abort _ => abort.reason ≠ .outOfFuel)
    (I := fun _ c' => ReflTransGen (Unfolds program n) c c' ∧
      (c'.weight program init tracked).Le (c.weight program init tracked))
    (fun _ next d hmem hd => by
      obtain ⟨hd, hle⟩ := hd
      obtain ⟨hsd, he, -⟩ := unfolds_spec hs hd
      obtain ⟨p', hp', -, -, hset, -⟩ := he.node hp
      have ht' : d.task p'.set n = .ok (.successors state precision) :=
        hset ▸ he.task hs.toStructured ht
      rw [ensures_during, ← hset]
      refine (Action.addOrCover_spec hsd hp' ht' hmem).imp (fun _ d' hd' => ?_) fun _ _ _ => by simp
      have hd₁ := hd.tail hd'.1
      exact ⟨hd₁, (hd'.1.weight_le hsd (h.grows hfree (w.unfolds h.toSound hd₁).grows) hp'
        ht').trans hle⟩)
    [] ⟨.refl, .refl _⟩
  refine .of_ensures (loop.imp (fun _ d hd => ?_) fun _ _ => id)
  exact ⟨(w.unfolds h.toSound hd.1).grows, lt_of_le hpop hd.2⟩

include hP

theorem converges_call (ht : c.task p.set n = .ok .call)
    (hc : ∀ k, c.graph.Edge n k → k < c₀.graph.size)
    (rec : ∀ inner d, d.Contained program init tracked → d.partitioning.Unchained →
      inner < d.sets.size →
      (d.weight program init tracked).Lt (c₀.weight program init tracked) →
      Converges (exploreSet · inner) d fun _ => Lightens program init tracked d) :
    Converges (fun fuel => perform program (exploreSet fuel) enclosing p.set n .call) c
      fun _ c' => Grows program c₀ c' ∧
        (c'.weight program init tracked).Lt (c₀.weight program init tracked) := by
  have hs := w.sound h.toSound
  have hextends := w.grows.toExtends h.toSound
  simp only [perform]
  refine Converges.bind (.of_action ((enterCall_resolves hs.toStructured hp ht _).and
    (enterCall_spec h.toSound w hc hp ht _ []))) fun t d hd => ?_
  obtain ⟨⟨statistics, st⟩, a, -⟩ := hd
  have hd := h.grows hfree a.working.grows
  have hsq := Grows.sound_quiet hs statistics c.shutdown
  have hle : (d.weight program init tracked).Le (c.weight program init tracked) :=
    Resolves.weight_le (c := { c with statistics }) hsq hd st
  obtain ⟨-, -, r, -, -, -, -, hr, -⟩ := hd.call a.entry
  have hpartition : d.partitioning = c₀.partitioning :=
    (a.working.grows.toExtends h.toSound).evolves.partitioning
  have expand : ∀ d', Lightens program init tracked d d' →
      Converges (fun _ => during (p.set :: enclosing) (Action.expandBlockExits n t) >>=
        fun _ => pure ()) d' fun _ c' => Grows program c₀ c' ∧
          (c'.weight program init tracked).Lt (c₀.weight program init tracked) := by
    rintro d' ⟨g, hle'⟩
    refine converges_expand h hP hpop (a.nested h.toSound g) (hle'.trans hle) fun q hq => ?_
    obtain ⟨p₁, hp₁, hstate₁, -⟩ := (st.spec hsq).2.node hp
    have e := g.toExtends hd.toSound
    obtain ⟨p₂, hp₂, hstate₂, -⟩ := e.node hp₁
    rw [hp₂.unique hq, hstate₂, hstate₁, e.evolves.partitioning, hpartition,
      hextends.evolves.partitioning]
  by_cases hnew : t ∉ p.set :: enclosing
  · simp only [if_pos hnew]
    have hask : Ensures (Action.ask (·.reachedSet t)) d (fun r' d' => r' = r ∧ d' = d)
        fun _ _ => False := by
      simp only [Action.ask, ensures_bind, ensures_get,
        ensures_lift_of_ok (reachedSet_eq_ok.2 hr), and_self]
    refine Converges.bind (.of_action hask) fun r' d' hd' => ?_
    obtain ⟨rfl, rfl⟩ := hd'
    by_cases hwaits : r'.hasWaiting = true
    · simp only [if_pos hwaits]
      exact (rec t d' hd (hpartition ▸ hP) (lt_size_of_sets hr) (lt_of_le hpop hle)).bind
        fun _ d'' hd'' => expand d'' hd''
    · simp only [if_neg hwaits]
      exact expand d' ⟨.refl, .refl _⟩
  · simp only [if_neg hnew]
    exact expand d ⟨.refl, .refl _⟩

theorem converges_perform {todo : NodeTask} (ht : c.task p.set n = .ok todo)
    (hc : ∀ k, c.graph.Edge n k → k < c₀.graph.size)
    (rec : ∀ inner d, d.Contained program init tracked → d.partitioning.Unchained →
      inner < d.sets.size →
      (d.weight program init tracked).Lt (c₀.weight program init tracked) →
      Converges (exploreSet · inner) d fun _ => Lightens program init tracked d) :
    Converges (fun fuel => perform program (exploreSet fuel) enclosing p.set n todo) c
      fun _ c' => Grows program c₀ c' ∧
        (c'.weight program init tracked).Lt (c₀.weight program init tracked) := by
  cases todo with
  | stop => exact .of_ensures (ensures_pure.2 ⟨w.grows, lt_of_le hpop (.refl _)⟩)
  | successors state precision => exact converges_successors hfree h w hp hpop ht
  | call => exact converges_call hfree h hP w hp hpop ht hc rec

end

theorem converges_explore (hfree : program.CallFree) (enclosing : List SetId)
    (h : c.Contained program init tracked) (hP : c.partitioning.Unchained)
    (hs : s < c.sets.size) : Converges (fun fuel => explore program fuel enclosing s) c
      fun _ => Lightens program init tracked c := by
  obtain ⟨w, hw⟩ : ∃ w, c.weight program init tracked = w := ⟨_, rfl⟩
  -- nested explorations and what is behind a step begin with less weight than is left here
  induction w using Weight.wellFounded_lt.induction generalizing c s enclosing with
  | h w ih =>
    subst hw
    have hr := Array.getElem?_eq_getElem hs
    refine .of_succ ?_
    simp only [explore]
    refine Converges.bind (.of_action ((nextWaiting_working program h.toSound hr).and
      (nextWaiting_weight program init tracked h.toSound hr))) fun next d hd => ?_
    obtain ⟨⟨g, -, -, hnext⟩, hweight⟩ := hd
    cases next with
    | none => exact .of_ensures (ensures_pure.2 ⟨g, hweight⟩)
    | some n =>
      obtain ⟨w, -, hc, -, p, hp, rfl⟩ := hnext n rfl
      have hask : Ensures (Action.ask (·.task p.set n)) d
          (fun todo d' => d.task p.set n = .ok todo ∧ d' = d) fun _ _ => True := by
        simp only [Action.ask, ensures_bind, ensures_get]
        rw [ensures_liftExcept]
        exact ⟨fun todo ht => ⟨ht, rfl⟩, fun _ _ => trivial⟩
      refine Converges.bind (.of_action hask) fun todo d' hd' => ?_
      obtain ⟨ht, rfl⟩ := hd'
      refine Converges.bind (converges_perform hfree h hP w hp (rankAt_live hp ▸ hweight) ht hc
        fun inner d hd hPd hinner hlt => ih _ hlt _ hd hPd hinner rfl) fun _ d hd => ?_
      obtain ⟨g, hlt⟩ := hd
      have e := g.toExtends h.toSound
      obtain ⟨r', hr', -⟩ := e.set hr
      refine (ih _ hlt enclosing (h.grows hfree g) (e.evolves.partitioning ▸ hP)
        (lt_size_of_sets hr') rfl).imp fun _ d' hd' => ⟨g.trans h.toSound hd'.1, ?_⟩
      exact hd'.2.trans (Or.inr hlt)

end Exploring

end Blockwise
