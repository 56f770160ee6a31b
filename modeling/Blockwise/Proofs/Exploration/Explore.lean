import Blockwise.Proofs.Exploration.Progress

/-!
Exploring is growing, whether it ends or halts. An exploration that ends leaves no node waiting in
its reached set, and what it took from a waitlist is done.
-/
namespace Blockwise

open Relation (ReflTransGen)
open Context

variable {program : Program} {c c' c₀ : Context} {n : NodeId}

structure Working (program : Program) (c₀ : Context) (n : NodeId) (c : Context) : Prop where
  grows : Grows program c₀ c
  opened : c₀.Open n
  closed : ¬ c.Open n

namespace Working

variable (h : c₀.Sound)

include h

theorem sound (w : Working program c₀ n c) : c.Sound := w.grows.sound h

theorem unfolds (w : Working program c₀ n c) (st : ReflTransGen (Unfolds program n) c c') :
    Working program c₀ n c' := by
  have hs := w.sound h
  obtain ⟨-, he, -, hw⟩ := unfolds_spec hs st
  have hclosed : ∀ {d}, ReflTransGen (Unfolds program n) c d → ¬ d.Waits n := by
    intro d st hn
    exact w.closed ((unfolds_spec hs st).2.2.2 n hn)
  refine ⟨?_, w.opened, ?_⟩
  · induction st with
    | refl => exact w.grows
    | tail st' st ih =>
      obtain ⟨-, he', -, hw'⟩ := unfolds_spec hs st'
      exact (ih he' hw').unfold w.opened (hclosed st') st
  · rintro (hn | hn)
    · exact w.closed (hw n hn)
    · exact w.closed (Or.inr (he.evolves.size_le.trans hn))

theorem nested (w : Working program c₀ n c) (g : Grows program c c') :
    Working program c₀ n c' :=
  ⟨w.grows.trans h g, w.opened, fun hn => w.closed (g.open_of_open (w.sound h) hn)⟩

theorem resolves (w : Working program c₀ n c) (hc : ∀ k, c.graph.Edge n k → k < c₀.graph.size)
    {statistics : Statistics} {t : SetId} (st : Resolves n { c with statistics } t c') :
    Working program c₀ n c' := by
  have hs := w.sound h
  have g : Grows program c₀ { c with statistics } := w.grows.quiet statistics c.shutdown
  have hw : ¬ Waits { c with statistics } n := fun hn => w.closed (Or.inl hn)
  refine ⟨g.resolve w.opened hw hc st, w.opened, ?_⟩
  rintro (hn | hn)
  · exact w.closed (st.waits hn)
  · have he := (st.spec (Grows.sound_quiet hs statistics c.shutdown)).2
    exact w.closed (Or.inr (he.evolves.size_le.trans hn))

end Working

theorem ensures_during {α : Type} {active : List SetId} {action : Action α}
    {ok : α → Context → Prop} {bad : Abort → Context → Prop} :
    Ensures (Exploring.during active action) c ok bad ↔
      Ensures action c ok fun fault => bad ⟨.fault fault, active⟩ := by
  unfold Ensures Exploring.during
  cases action c <;> rfl

theorem nextWaiting_spec {s : SetId} {r : ReachedSet} (hr : c.sets[s]? = some r) :
    Ensures (Action.nextWaiting s) c
      (fun next c' => next = r.pop.1 ∧ ∃ shutdown, c' = { c.putSet s r.pop.2 with shutdown })
      (fun fault c' => fault = .interrupted ∧ c' = c) := by
  simp only [Action.nextWaiting, ensures_bind]
  refine Action.poll_spec.imp (fun _ d hd => ?_) (fun _ _ => id)
  obtain ⟨shutdown, rfl⟩ := hd
  have hr' : (Context.sets { c with shutdown })[s]? = some r := hr
  simp only [Action.popWaiting, ensures_bind, ensures_get, ensures_pure,
    ensures_lift_of_ok (reachedSet_eq_ok.2 hr'), ensures_of_ok (Action.modifySet_eq_ok hr')]
  exact ⟨trivial, shutdown, rfl⟩

namespace Exploring

/-- In the end no node of `s` waits; when only the sets around it had waiting nodes before, all that
was explored is settled. -/
def Explores (program : Program) (enclosing : List SetId) (s : SetId) (action : Exploring Unit)
    (c : Context) : Prop :=
  Ensures action c
    (fun _ c' => Grows program c c' ∧ c'.Idle s ∧ (c.Bare → c.IdleBut (s :: enclosing) →
      c'.IdleBut enclosing ∧ ∀ k, c.Open k → c'.Settled program (s :: enclosing) k))
    (fun _ c' => Grows program c c')

variable {exploreSet : SetId → Exploring Unit} {enclosing : List SetId} {s t : SetId}

/-- The call node `n` of `s` is linked to the result `t`, whose exits can be recorded. -/
structure Answered (program : Program) (c₀ : Context) (s : SetId) (n : NodeId) (t : SetId)
    (c : Context) : Prop where
  working : Working program c₀ n c
  task : ∃ p, c.graph.Live n p ∧ p.set = s ∧ c.task s n = .ok .call
  entry : c.links.setOfEntry n = some t
  cached : c.cache.aggressive = true ∨ ∃ K, c.cache.lookup K = some t

namespace Answered

theorem nested (h : c₀.Sound) (a : Answered program c₀ s n t c) (g : Grows program c c') :
    Answered program c₀ s n t c' where
  working := a.working.nested h g
  task := by
    obtain ⟨p, hp, hps, ht⟩ := a.task
    have hs := a.working.sound h
    have he := g.toExtends hs
    obtain ⟨p', hp', -, -, hset, -⟩ := he.node hp
    exact ⟨p', hp', hset.trans hps, he.task hs.toStructured ht⟩
  entry := (g.entry_of_not_open a.working.closed).trans a.entry
  cached := by
    have he := g.toExtends (a.working.sound h)
    rcases a.cached with ha | ⟨K, hK⟩
    · exact Or.inl (he.aggressive.trans ha)
    · exact Or.inr ⟨K, he.stored hK⟩

theorem enters (a : Answered program c₀ s n t c) : c.Enters s t := by
  obtain ⟨p, hp, hps, -⟩ := a.task
  exact ⟨n, p, hp, hps, a.entry, a.working.closed⟩

theorem expand_spec (h : c₀.Sound) (a : Answered program c₀ s n t c)
    (ht : t ∉ s :: enclosing ∧ c.Idle t ∨ c.Recursive) :
    Ensures (Action.expandBlockExits n t) c
      (fun _ c' => Working program c₀ n c' ∧ (c.views n = [] → c'.Done program (s :: enclosing) n) ∧
        (∀ k, k ≠ n → c.Settled program (s :: enclosing) k →
          c'.Settled program (s :: enclosing) k) ∧
        ∀ q, q ∉ s :: enclosing → c.Idle q → c'.Idle q)
      (fun _ _ => False) := by
  have hs := a.working.sound h
  obtain ⟨p, hp, rfl, htask⟩ := a.task
  obtain ⟨m, b, r, f, hm, -, -, hr, -, hb, -⟩ := hs.call a.entry
  cases Option.some.inj (hm.symm.trans hp.1)
  refine (Action.expandBlockExits_spec program hs hp htask a.entry hb a.cached).imp
    (fun _ c' st => ?_) (fun _ _ => id)
  obtain ⟨st, hviews⟩ := st
  obtain ⟨hs', he, hentry, hwaits⟩ := unfolds_spec hs st
  obtain ⟨hsettled, hkept⟩ := unfolds_settled hs st hp (List.mem_cons_self (l := enclosing))
  refine ⟨a.working.unfolds h st, fun hbare => ?_, hsettled, fun q hq hidle => (hkept q hq hidle).1⟩
  obtain ⟨exits, hsorted, hexit, hv⟩ := hviews hbare
  obtain ⟨p', hp', hps, -, hset, -⟩ := he.node hp
  refine .call (b := b) hp' (hset ▸ he.task hs.toStructured htask) ((hentry n).trans a.entry) ?_
    hsorted (fun x hx => he.isExit ((hexit x).1 hx)) ?_ ?_
  · rw [he.evolves.partitioning, hps, hb]
  · rw [hv, hps]
    refine List.map_congr_left fun x hx => (he.evolves.viewOf ?_).symm
    obtain ⟨-, -, -, mx, -, -, -, -, -, hmx, -⟩ := (hexit x).1 hx
    exact hmx.lt_size
  · rcases ht with ⟨ht, hidle⟩ | hrec
    · obtain ⟨hidle', hfrozen⟩ := hkept t ht hidle
      refine Or.inl ⟨ht, hidle', fun x hx' => (hexit x).2 ?_⟩
      exact hfrozen.isExit hs.toStructured hs'.toStructured he (lt_size_of_sets hr) hx'
    · refine Or.inr (hrec.mono fun q q' hq => ?_)
      obtain ⟨k, m, hm, hms, hk, hopen⟩ := hq
      obtain ⟨m', hm', -, -, hset', -⟩ := he.node hm
      refine ⟨k, m', hm', hset'.trans hms, (hentry k).trans hk, ?_⟩
      rintro (hw | hnew)
      · exact hopen (hwaits k hw)
      · exact hopen (Or.inr (he.evolves.size_le.trans hnew))

end Answered

theorem enterCall_resolves (h : c.Structured) {p : Node State Tracked} (hp : c.graph.Live n p)
    (ht : c.task p.set n = .ok .call) (depth : Nat) :
    Ensures (Action.enterCall depth n) c
      (fun t c' => ∃ statistics, Resolves n { c with statistics } t c') (fun _ c' => c' = c) := by
  simp only [Action.enterCall, ensures_bind, ensures_get]
  rw [ensures_ite]
  refine ⟨fun _ => rfl, fun _ => ?_⟩
  rw [ensures_bind]
  exact (Action.resolveCall_spec h hp ht).imp (fun _ _ hres => hres.1) fun _ _ => False.elim

theorem enterCall_spec (h : c₀.Sound) (w : Working program c₀ n c)
    (hc : ∀ k, c.graph.Edge n k → k < c₀.graph.size) {p : Node State Tracked}
    (hp : c.graph.Live n p) (ht : c.task p.set n = .ok .call) (depth : Nat) (active : List SetId) :
    Ensures (Action.enterCall depth n) c
      (fun t c' => Answered program c₀ p.set n t c' ∧
        (∀ k, c.Open k → c'.Settled program active k) ∧ c'.views n = c.views n ∧
        ∀ q, q ≠ t → c.Idle q → c'.Idle q)
      (fun fault c' => fault = .depthLimit c.options.maxDepth ∧ c' = c) := by
  simp only [Action.enterCall, ensures_bind, ensures_get]
  rw [ensures_ite]
  refine ⟨fun _ => ⟨rfl, rfl⟩, fun _ => ?_⟩
  rw [ensures_bind]
  refine (Action.resolveCall_spec (w.sound h).toStructured hp ht).imp (fun res c' hres => ?_)
    (fun _ _ => False.elim)
  obtain ⟨⟨statistics, st⟩, hcached⟩ := hres
  rw [ensures_pure]
  have hs : Context.Sound { c with statistics } :=
    Grows.sound_quiet (w.sound h) statistics c.shutdown
  have he := (st.spec hs).2
  obtain ⟨p', hp', -, -, hset, -⟩ := he.node hp
  refine ⟨⟨w.resolves h hc st, ⟨p', hp', hset, he.task hs.toStructured ht⟩, ?_, hcached⟩,
    fun k hk => .resolve st hk, ?_, fun q hq hidle => st.idle hq hidle⟩
  · rw [st.links, Links.setOfEntry_linkEntry, if_pos rfl]
  · have hviews : c'.views n = Context.views { c with statistics } n := st.views hs
    exact hviews

/-- The node `n` is done, and each other node that was open is done or waits. -/
structure Performed (program : Program) (active : List SetId) (c₀ : Context) (n : NodeId)
    (c c' : Context) : Prop where
  working : Working program c₀ n c'
  settled : c₀.Bare → c.views n = [] → c.IdleBut active →
    c'.IdleBut active ∧ ∀ k, c₀.Open k → c'.Settled program active k

theorem performed_expand (h : c₀.Sound) (hopen : ∀ k, c₀.Open k → k = n ∨ c.Open k) {d : Context}
    (a : Answered program c₀ s n t d)
    (hviews : d.views n = c.views n)
    (hkept : c₀.Bare → c.IdleBut (s :: enclosing) → d.IdleBut (s :: enclosing) ∧
      ∀ k, c.Open k → d.Settled program (s :: enclosing) k)
    (ht : t ∉ s :: enclosing ∧ d.Idle t ∨ d.Recursive) :
    Ensures (Action.expandBlockExits n t) d
      (fun _ c' => Performed program (s :: enclosing) c₀ n c c')
      (fun _ c' => Grows program c₀ c') := by
  refine (a.expand_spec h ht).imp (fun _ c' hc' => ?_) (fun _ _ => False.elim)
  obtain ⟨w', hdone, hkeep, hidle'⟩ := hc'
  refine ⟨w', fun hb hbare hidle => ?_⟩
  obtain ⟨hidle, hsettled⟩ := hkept hb hidle
  refine ⟨fun q hq => hidle' q hq (hidle q hq), fun k hk => ?_⟩
  by_cases hkn : k = n
  · exact hkn ▸ .of_done (hdone (hviews.trans hbare))
  · exact hkeep k hkn (hsettled k ((hopen k hk).resolve_left hkn))

section

variable (h : c₀.Sound) (w : Working program c₀ n c) (hopen : ∀ k, c₀.Open k → k = n ∨ c.Open k)
  {p : Node State Tracked} (hp : c.graph.Live n p)

include h w hopen hp

theorem performSuccessors_spec {state : State} {precision : Tracked}
    (ht : c.task p.set n = .ok (.successors state precision)) :
    Ensures (perform program exploreSet enclosing p.set n (.successors state precision)) c
      (fun _ c' => Performed program (p.set :: enclosing) c₀ n c c')
      (fun _ _ => False) := by
  have hs := w.sound h
  have loop := Ensures.forM (l := program.successors state precision) (s := c)
    (f := fun next => during (p.set :: enclosing) (Action.addOrCover p.set n next))
    (B := fun _ _ => False)
    (I := fun done c' => ReflTransGen (Unfolds program n) c c' ∧
      c'.views n = c.views n ++ done.reverse.map fun next => (some next, none))
    (fun done next d hmem hd => by
      obtain ⟨hd, hdone⟩ := hd
      obtain ⟨hsd, he, -⟩ := unfolds_spec hs hd
      obtain ⟨p', hp', -, -, hset, -⟩ := he.node hp
      rw [ensures_during, ← hset]
      refine (Action.addOrCover_spec hsd hp' (hset ▸ he.task hs.toStructured ht) hmem).imp
        (fun _ d' hd' => ⟨hd.tail hd'.1, ?_⟩) (fun _ _ => id)
      rw [hd'.2, hdone]
      simp)
    [] ⟨.refl, by simp⟩
  refine loop.imp (fun _ d hd => ⟨w.unfolds h hd.1, fun _ hbare hidle => ?_⟩) (fun _ _ => id)
  obtain ⟨hd, hviews⟩ := hd
  obtain ⟨hsettled, hkept⟩ := unfolds_settled hs hd hp (List.mem_cons_self (l := enclosing))
  refine ⟨fun q hq => (hkept q hq (hidle q hq)).1, fun k hk => ?_⟩
  by_cases hkn : k = n
  · obtain ⟨-, he, -⟩ := unfolds_spec hs hd
    obtain ⟨p', hp', -, -, hset, -⟩ := he.node hp
    refine hkn ▸ .of_done (.successors hp' (hset ▸ he.task hs.toStructured ht) ?_)
    rw [hviews, hbare]
    simp
  · exact hsettled k hkn (.of_open ((hopen k hk).resolve_left hkn))

variable (hc : ∀ k, c.graph.Edge n k → k < c₀.graph.size) (ho : c₀.Encloses enclosing p.set)
  (rec : ∀ inner d, d.Sound → inner < d.sets.size → d.Encloses (p.set :: enclosing) inner →
    Explores program (p.set :: enclosing) inner (exploreSet inner) d)

include hc ho rec

theorem performCall_spec (ht : c.task p.set n = .ok .call) :
    Ensures (perform program exploreSet enclosing p.set n .call) c
      (fun _ c' => Performed program (p.set :: enclosing) c₀ n c c')
      (fun _ c' => Grows program c₀ c') := by
  simp only [perform, ensures_bind, ensures_during]
  refine (enterCall_spec h w hc hp ht _ (p.set :: enclosing)).imp (fun t d hd => ?_)
    (fun _ d hd => hd.2 ▸ w.grows)
  obtain ⟨a, hsettled, hviews, hothers⟩ := hd
  have hd := a.working.sound h
  obtain ⟨-, -, r, -, -, -, -, hr, -⟩ := hd.call a.entry
  simp only [Action.ask, ensures_ite, ensures_bind, ensures_during, ensures_get, ensures_pure,
    ensures_lift_of_ok (reachedSet_eq_ok.2 hr)]
  have hencloses := ho.grows h a.working.grows
  refine ⟨fun hnew => ⟨fun hwaits => ?_, fun hempty => ?_⟩, fun hactive => ?_⟩
  · refine (rec t d hd (lt_size_of_sets hr) (hencloses.enter a.enters)).imp
      (fun _ d' hd' => ?_) (fun _ _ g' => (a.nested h g').working.grows)
    obtain ⟨g', hidle, hrest⟩ := hd'
    refine performed_expand h hopen (a.nested h g')
      ((g'.views_of_not_open hd a.working.closed).trans hviews)
      (fun hb hidleBut => ?_) (Or.inl ⟨hnew, hidle⟩)
    obtain ⟨hidle', hdone⟩ := hrest (a.working.grows.bare h hb) fun q hq =>
      hothers q (List.ne_of_not_mem_cons hq) (hidleBut q (List.not_mem_of_not_mem_cons hq))
    refine ⟨hidle', fun k hk => (hsettled k hk).grows hd g' fun hk' => ?_⟩
    exact (hdone k hk').weaken fun q hq => List.mem_cons_of_mem _ hq
  · have hidle : d.Idle t := by
      intro q hq
      cases Option.some.inj (hr.symm.trans hq)
      refine List.eq_nil_iff_forall_not_mem.2 fun k hk => hempty ?_
      exact List.any_eq_true.2 ⟨k, hk, by simpa using (hd.waitlist hr).2 k hk⟩
    refine performed_expand h hopen a hviews (fun _ hidleBut => ⟨fun q hq => ?_, hsettled⟩)
      (Or.inl ⟨hnew, hidle⟩)
    by_cases hqt : q = t
    · exact hqt ▸ hidle
    · exact hothers q hqt (hidleBut q hq)
  · have hactive := Classical.not_not.1 hactive
    refine performed_expand h hopen a hviews (fun _ hidleBut => ⟨fun q hq => ?_, hsettled⟩)
      (Or.inr (hencloses.recursive a.enters hactive))
    exact hothers q (fun hqt => hq (hqt ▸ hactive)) (hidleBut q hq)

theorem perform_spec {todo : NodeTask} (ht : c.task p.set n = .ok todo) :
    Ensures (perform program exploreSet enclosing p.set n todo) c
      (fun _ c' => Performed program (p.set :: enclosing) c₀ n c c')
      (fun _ c' => Grows program c₀ c') := by
  cases todo with
  | stop =>
    refine ⟨w, fun _ _ hidle => ⟨hidle, fun k hk => ?_⟩⟩
    rcases hopen k hk with rfl | hk
    · exact .of_done (.stop hp ht)
    · exact .of_open hk
  | successors state precision =>
    exact (performSuccessors_spec h w hopen hp ht).imp (fun _ _ => id) fun _ _ => False.elim
  | call => exact performCall_spec h w hopen hp hc ho rec ht

end

/-! ### The next waiting node -/

section

variable {r : ReachedSet} (shutdown : Shutdown) (hr : c.sets[s]? = some r)

include hr

theorem sets_popped (t : SetId) : ({ c.putSet s r.pop.2 with shutdown } : Context).sets[t]? =
    if s = t then some r.pop.2 else c.sets[t]? :=
  getElem?_setIfInBounds hr

theorem open_popped {k : NodeId} (hk : c.Open k)
    (hstays : k ∈ r.waitlist → k ∈ r.pop.2.waitlist) :
    Open { c.putSet s r.pop.2 with shutdown } k := by
  rcases hk with ⟨t, q, hq, hw⟩ | hnew
  · by_cases hst : s = t
    · subst hst
      cases Option.some.inj (hr.symm.trans hq)
      exact Or.inl ⟨s, r.pop.2, by rw [sets_popped shutdown hr, if_pos rfl], hstays hw⟩
    · exact Or.inl ⟨t, q, by rw [sets_popped shutdown hr, if_neg hst, hq], hw⟩
  · exact Or.inr hnew

variable (h : c.Sound)

include h

theorem idle_popped (hnone : r.pop.1 = none) :
    Idle { c.putSet s r.pop.2 with shutdown } s ∧
      ∀ k, c.Open k → Open { c.putSet s r.pop.2 with shutdown } k := by
  obtain ⟨-, -, -, hpop⟩ := ReachedSet.pop_spec (h.waitlist hr).2
  rw [hnone] at hpop
  obtain ⟨hempty, hempty'⟩ := hpop
  refine ⟨fun q hq => ?_, fun k hk => open_popped shutdown hr hk fun hw => ?_⟩
  · rw [sets_popped shutdown hr, if_pos rfl] at hq
    cases hq
    exact hempty'
  · rw [hempty] at hw
    cases hw

theorem not_open_popped (hn : r.pop.1 = some n) :
    ¬ Open { c.putSet s r.pop.2 with shutdown } n := by
  obtain ⟨hnd, hsub⟩ := h.waitlist hr
  have hperm := ReachedSet.perm_of_pop hsub hn
  have hmem : n ∈ r := hsub n (hperm.mem_iff.1 (List.mem_cons_self ..))
  rintro (⟨t, q, hq, hw⟩ | hlt)
  · rw [sets_popped shutdown hr] at hq
    split at hq
    · cases hq
      exact (List.nodup_cons.1 (hperm.nodup_iff.2 hnd)).1 hw
    · rename_i hst
      exact hst (h.set_unique hr hq hmem ((h.waitlist hq).2 n hw))
  · obtain ⟨m, hm, -⟩ := h.live_of_mem hr hmem
    exact Nat.not_le.2 hm.lt_size hlt

end

theorem nextWaiting_working (program : Program) (h : c.Sound) {r : ReachedSet}
    (hr : c.sets[s]? = some r) :
    Ensures (Action.nextWaiting s) c
      (fun next c' => Grows program c c' ∧ (∀ q, c.Idle q → c'.Idle q) ∧
        (next = none → c'.Idle s ∧ ∀ k, c.Open k → c'.Open k) ∧
        ∀ n, next = some n → Working program c n c' ∧ (∀ k, c.Open k → k = n ∨ c'.Open k) ∧
          (∀ k, c'.graph.Edge n k → k < c.graph.size) ∧ (c.Bare → c'.views n = []) ∧
          ∃ p, c'.graph.Live n p ∧ p.set = s)
      (fun fault c' => fault = .interrupted ∧ c' = c) := by
  refine (nextWaiting_spec hr).imp (fun next c' hc => ?_) (fun _ _ => id)
  obtain ⟨rfl, shutdown, rfl⟩ := hc
  have g : Grows program c { c.putSet s r.pop.2 with shutdown } :=
    (Grows.refl.pop hr).quiet c.statistics shutdown
  refine ⟨g, fun q hidle => ?_, idle_popped shutdown hr h, fun n hn => ?_⟩
  · by_cases hlt : q < c.sets.size
    · exact g.idle h hlt hidle
    · intro q' hq'
      have hlt' : q < (c.putSet s r.pop.2).sets.size := lt_size_of_sets hq'
      rw [Context.putSet, Array.size_setIfInBounds] at hlt'
      exact absurd hlt' hlt
  · have hperm := ReachedSet.perm_of_pop (h.waitlist hr).2 hn
    have hw : n ∈ r.waitlist := hperm.mem_iff.1 (List.mem_cons_self ..)
    have hwaits : c.Waits n := ⟨s, r, hr, hw⟩
    obtain ⟨m, hm, hms⟩ := h.live_of_mem hr ((h.waitlist hr).2 n hw)
    refine ⟨⟨g, Or.inl hwaits, not_open_popped shutdown hr h hn⟩, fun k hk => ?_, fun k hk => ?_,
      fun hbare => hbare n hwaits, m, hm, hms⟩
    · by_cases hkn : k = n
      · exact Or.inl hkn
      · refine Or.inr (open_popped shutdown hr hk fun hkw => ?_)
        exact (List.mem_cons.1 (hperm.mem_iff.2 hkw)).resolve_left hkn
    · obtain ⟨-, mk, -, hk, -⟩ := h.live_of_edge hk
      exact hk.lt_size

/-- An exploration lets the context grow; when it ends, no node of the set waits, and all that was
taken from a waitlist is done. -/
theorem explore_spec (fuel : Nat) (enclosing : List SetId) (h : c.Sound) (hs : s < c.sets.size)
    (ho : c.Encloses enclosing s) :
    Explores program enclosing s (explore program fuel enclosing s) c := by
  induction fuel generalizing c enclosing s with
  | zero => exact Grows.refl
  | succ fuel ih =>
    have hr := Array.getElem?_eq_getElem hs
    unfold Explores
    simp only [explore, ensures_bind, ensures_during]
    refine (nextWaiting_working program h hr).imp (fun next d hd => ?_) (fun _ d hd => hd.2 ▸ .refl)
    obtain ⟨g, hstill, hnone, hnext⟩ := hd
    cases next with
    | none =>
      obtain ⟨hidle, hopen⟩ := hnone rfl
      refine ⟨g, hidle, fun _ hidleBut => ⟨fun q hq => ?_, fun k hk => .of_open (hopen k hk)⟩⟩
      by_cases hqs : q = s
      · exact hqs ▸ hidle
      · exact hstill q (hidleBut q fun hmem => (List.mem_cons.1 hmem).elim hqs hq)
    | some n =>
      obtain ⟨w, hopen, hc, hviews, p, hp, rfl⟩ := hnext n rfl
      simp only [Action.ask, ensures_bind, ensures_during, ensures_get]
      rw [ensures_liftExcept]
      refine ⟨fun todo ht => ?_, fun _ _ => g⟩
      refine (perform_spec h w hopen hp hc ho (fun t d' hd' ht' ho' => ?_) ht).imp
        (fun _ d' hd' => ?_) (fun _ _ => id)
      · exact ih (p.set :: enclosing) hd' ht' ho'
      · obtain ⟨w', hsettled⟩ := hd'
        have hd := w'.sound h
        obtain ⟨r', hr', -⟩ := (w'.grows.toExtends h).set hr
        refine (ih enclosing hd (lt_size_of_sets hr') (ho.grows h w'.grows)).imp
          (fun _ _ hc' => ?_) (fun _ _ g' => w'.grows.trans h g')
        obtain ⟨g', hidle, hrest⟩ := hc'
        refine ⟨w'.grows.trans h g', hidle, fun hbare hidleBut => ?_⟩
        obtain ⟨hidle', hdone⟩ := hsettled hbare (hviews hbare) fun q hq => hstill q (hidleBut q hq)
        obtain ⟨hidle'', hrest⟩ := hrest (w'.grows.bare h hbare) hidle'
        exact ⟨hidle'', fun k hk => (hdone k hk).grows hd g' (hrest k)⟩

theorem explore_grows (fuel : Nat) (enclosing : List SetId) (h : c.Sound) (hs : s < c.sets.size)
    (ho : c.Encloses enclosing s) :
    Grows program c (finalState (explore program fuel enclosing s c)) :=
  ((explore_spec fuel enclosing h hs ho).imp (Q := fun _ c' => Grows program c c')
    (fun _ _ => And.left) fun _ _ => id).final

end Exploring

theorem run_of_error {fuel : Nat} {abort : Abort}
    (h : Exploring.explore program fuel [] .topLevel c = .error abort c') :
    run program fuel c = .error abort.reason c' :=
  bind_eq_of_error (by simp only [EStateM.adaptExcept, h])

theorem run_of_ok {fuel : Nat} (h : Exploring.explore program fuel [] .topLevel c = .ok () c') :
    run program fuel c = (liftM c'.targets : EStateM Halt Context (List NodeId)) c' := by
  have hadapt : (Exploring.explore program fuel [] .topLevel).adaptExcept (·.reason) c =
      (.ok () c' : EStateM.Result Halt Context Unit) := by
    simp only [EStateM.adaptExcept, h]
  exact bind_eq_of_ok hadapt

theorem run_spec (fuel : Nat) (h : c.Sound) : Ensures (run program fuel) c
    (fun targets c' => Grows program c c' ∧ c'.targets = .ok targets ∧
      (c.Bare → c.IdleBut [.topLevel] → c'.IdleBut [] ∧
        ∀ k, c.Open k → c'.Settled program [.topLevel] k))
    (fun _ c' => Grows program c c') := by
  simp only [run, ensures_bind, ensures_adaptExcept]
  refine (Exploring.explore_spec fuel [] h h.topLevel (by simp [Encloses])).imp
    (fun _ d hd => ?_) (fun _ _ => id)
  obtain ⟨g, -, hsettled⟩ := hd
  simp only [ensures_get, ensures_liftFault]
  exact ⟨fun targets ht => ⟨g, ht, hsettled⟩, fun _ _ => g⟩

theorem run_grows (fuel : Nat) (h : c.Sound) :
    Grows program c (finalState (run program fuel c)) :=
  ((run_spec fuel h).imp (Q := fun _ c' => Grows program c c') (fun _ _ => And.left)
    (fun _ _ => id)).final

end Blockwise
