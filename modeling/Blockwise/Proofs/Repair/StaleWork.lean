import Blockwise.Proofs.Context.Fenced
import Blockwise.Proofs.Context.Sound
import Blockwise.Repair

/-!
The loop that removes stale expansions, in a context with fenced sets. While it runs, a live node
whose exit is gone has its exit in a pending set, or it is still on the list of the set that is
worked on. A removal makes one set pending at most, and at least one live node is lost by it. So the
pending sets and the live nodes together never become more, and each set that is worked off is one
less.
-/
namespace Blockwise

open Context

variable {c c' c'' d : Context} {s : SetId} {e x p : NodeId} {pending pending' : List SetId}
  {left left' : NodeId → Prop} {m : Node State Tracked} {report report' report'' : Report}
  {work work' work'' : StaleWork}

namespace Context

def Attributed (c : Context) : Prop := ∀ e x m, c.links.reducedOf e = some x → c.graph.Live e m →
  ∃ p k, c.graph.Edge p e ∧ c.graph.node? x = some k ∧ c.links.setOfEntry p = some k.set

/-- A live node whose exit is gone is still to be removed: its exit was in a pending set, or the
node is left on a list. -/
def Owed (c : Context) (pending : List SetId) (left : NodeId → Prop) : Prop :=
  ∀ e x m k, c.links.reducedOf e = some x → c.graph.Live e m → c.graph.node? x = some k →
    (∀ k', ¬ c.graph.Live x k') → k.set ∈ pending ∨ left e

theorem Owed.carry (ho : c.Owed pending left) (hlinks : c'.links = c.links)
    (hback : ∀ {e x m' k'}, c.links.reducedOf e = some x → c'.graph.Live e m' →
      c'.graph.node? x = some k' →
        ∃ m k, c.graph.Live e m ∧ c.graph.node? x = some k ∧ k.set = k'.set)
    (hlost : ∀ {n m}, c.graph.Live n m → (∀ m', ¬ c'.graph.Live n m') → m.set ∈ pending')
    (hsub : ∀ s ∈ pending, s ∈ pending')
    (hleft : ∀ {e x m}, c'.graph.Live e m → c.links.reducedOf e = some x →
      (∀ k, ¬ c.graph.Live x k) → left e → left' e) : c'.Owed pending' left' := by
  intro e x m' k' hx hm' hk' hdead
  rw [hlinks] at hx
  obtain ⟨m, k, hm, hk, hset⟩ := hback hx hm' hk'
  rw [← hset]
  by_cases hlive : ∃ k₀, c.graph.Live x k₀
  · obtain ⟨k₀, hk₀⟩ := hlive
    cases Option.some.inj (hk.symm.trans hk₀.1)
    exact Or.inl (hlost hk₀ hdead)
  · have hdead' := not_exists.1 hlive
    exact (ho e x m k hx hm hk hdead').imp (hsub _) (hleft hm' hx hdead')

theorem Attributed.owed_below (h : c.Attributed) (ho : c.Owed (s :: pending) fun _ => False) :
    c.Owed pending fun e => ∃ p ∈ c.links.entriesFor s, c.graph.Edge p e := by
  intro e x m k hx hm hk hdead
  rcases ho e x m k hx hm hk hdead with hset | hno
  · rcases List.mem_cons.1 hset with hks | hpending
    · obtain ⟨p, k', he, hk', hp⟩ := h e x m hx hm
      cases Option.some.inj (hk.symm.trans hk')
      exact Or.inr ⟨p, Links.mem_entriesFor.2 (hks ▸ hp), he⟩
    · exact Or.inl hpending
  · exact hno.elim

end Context

/-- The context after stale expansions were removed, and the report that lists them. -/
structure Prunes (report : Report) (c : Context) (report' : Report) (c' : Context) : Prop where
  fenced : c'.Fenced
  links : c'.links = c.links
  removed : ∃ removed, report' =
      { report with staleExpansions := report.staleExpansions ++ removed } ∧
    c.graph.Pruned (removed.map (·.2)) c'.graph

namespace Prunes

theorem refl (h : c.Fenced) : Prunes report c report c where
  fenced := h
  links := rfl
  removed := ⟨[], by rw [List.append_nil], .refl c.graph⟩

theorem trans (g : Prunes report c report' c') (g' : Prunes report' c' report'' c'') :
    Prunes report c report'' c'' where
  fenced := g'.fenced
  links := g'.links.trans g.links
  removed := by
    obtain ⟨removed, rfl, hp⟩ := g.removed
    obtain ⟨removed', rfl, hp'⟩ := g'.removed
    refine ⟨removed ++ removed', by rw [List.append_assoc], ?_⟩
    rw [List.map_append]
    exact hp.trans hp'

theorem dead (g : Prunes report c report' c') (he : ∀ m, ¬ c.graph.Live e m) :
    ∀ m, ¬ c'.graph.Live e m := by
  obtain ⟨removed, -, hp⟩ := g.removed
  intro m hm
  obtain ⟨m₀, hm₀, -⟩ := hp.live hm
  exact he m₀ hm₀

theorem edge (g : Prunes report c report' c') (he : c.graph.Edge p e) (hm : c'.graph.Live e m) :
    c'.graph.Edge p e := by
  obtain ⟨removed, -, hp⟩ := g.removed
  exact hp.edge_of_live he hm

theorem attributed (g : Prunes report c report' c') (h : c.Attributed) : c'.Attributed := by
  intro e x m' hx hm'
  obtain ⟨removed, -, hp⟩ := g.removed
  obtain ⟨m, hm, -⟩ := hp.live hm'
  rw [g.links] at hx ⊢
  obtain ⟨p, k, he, hk, hs⟩ := h e x m hx hm
  obtain ⟨k', hk', hset⟩ := hp.node_after hk
  exact ⟨p, k', g.edge he hm', hk', by rw [hset, hs]⟩

end Prunes

structure Pursues (work : StaleWork) (c : Context) (work' : StaleWork) (c' : Context) : Prop extends
    Prunes work.report c work'.report c' where
  pending : ∀ s ∈ work.pending, s ∈ work'.pending
  lost : ∀ {n m}, c.graph.Live n m → (∀ m', ¬ c'.graph.Live n m') → m.set ∈ work'.pending
  measure : work'.pending.length + c'.graph.liveCount ≤ work.pending.length + c.graph.liveCount

namespace Pursues

theorem refl (h : c.Fenced) (work : StaleWork) : Pursues work c work c where
  toPrunes := .refl h
  pending := fun _ => id
  lost := fun hm hlost => absurd hm (hlost _)
  measure := Nat.le_refl _

theorem trans (g : Pursues work c work' c') (g' : Pursues work' c' work'' c'') :
    Pursues work c work'' c'' where
  toPrunes := g.toPrunes.trans g'.toPrunes
  pending := fun s hs => g'.pending s (g.pending s hs)
  lost := by
    intro n m hm hlost
    by_cases hlive : ∃ m', c'.graph.Live n m'
    · obtain ⟨m', hm'⟩ := hlive
      obtain ⟨removed, -, hp⟩ := g.removed
      obtain ⟨m₀, hm₀, hset, -⟩ := hp.live hm'
      rw [hm₀.unique hm, hset]
      exact g'.lost hm' hlost
    · exact g'.pending _ (g.lost hm (not_exists.1 hlive))
  measure := g'.measure.trans g.measure

theorem owed (g : Pursues work c work' c') (ho : c.Owed work.pending left)
    (hleft : ∀ {e x m}, c'.graph.Live e m → c.links.reducedOf e = some x →
      (∀ k, ¬ c.graph.Live x k) → left e → left' e) : c'.Owed work'.pending left' := by
  obtain ⟨removed, -, hp⟩ := g.removed
  refine ho.carry g.links (fun {e x m' k'} _ hm' hk' => ?_) g.lost g.pending hleft
  obtain ⟨m, hm, -⟩ := hp.live hm'
  obtain ⟨k, hk, hset⟩ := hp.node_before hk'
  exact ⟨m, k, hm, hk, hset⟩

end Pursues

theorem mem_requeued (s : SetId) (l : List SetId) : s ∈ if s ∈ l then l else s :: l := by
  split
  · assumption
  · exact List.mem_cons_self ..

namespace Action

theorem removal_pursues (h : c.Fenced) (hsup : c.graph.Supports p e) (hm : c.graph.Live e m)
    (work : StaleWork) (cache : Cache State Tracked) :
    Ensures (removeSubtree m.set e .keep) { c with cache }
      (fun _ c' => Pursues work c
        { pending := if m.set ∈ work.pending then work.pending else m.set :: work.pending
          report := { work.report with
            staleExpansions := work.report.staleExpansions ++ [(m.set, e)] } } c' ∧
        ∀ m', ¬ c'.graph.Live e m') (fun _ _ => False) := by
  obtain ⟨r, hr, hmem, hne⟩ := h.set_of_supports hsup hm
  have hf : Fenced { c with cache } := { h with }
  refine (hf.removeSubtree_cuts hr hmem hne .keep).imp ?_ fun _ _ => id
  rintro - c' ⟨gone, hc, rfl⟩
  have hp : c.graph.Pruned [e] (cut { c with cache } m.set r .keep gone).graph := hc.pruned
  have hgone : ∀ m', ¬ (cut { c with cache } m.set r .keep gone).graph.Live e m' := by
    intro m' hm'
    obtain ⟨-, -, -, hdep⟩ := hp.live hm'
    exact hdep ⟨e, List.mem_singleton.2 rfl, .refl⟩
  refine ⟨⟨⟨hf.cut hc hsup, rfl, _, rfl, hp⟩, ?_, ?_, ?_⟩, hgone⟩
  · intro t ht
    split
    · exact ht
    · exact List.mem_cons_of_mem _ ht
  · intro n k hk hlost
    have hn : n ∈ r := hc.gone.inside n (hc.mem_iff.2 (hp.dependsOn_of_lost hk hlost))
    obtain ⟨k', hk', hset⟩ := h.member hr hn
    rw [hk'.unique hk, hset]
    exact mem_requeued ..
  · have hlt := hp.liveCount_lt hm (List.mem_singleton.2 rfl)
    dsimp only
    split
    · omega
    · rw [List.length_cons]
      omega

theorem removeStale_pursues (h : c.Fenced)
    (he : c.graph.Edge p e ∨ ∀ m, ¬ c.graph.Live e m) (work : StaleWork) :
    Ensures (removeStale work e) c
      (fun work' c' => Pursues work c work' c' ∧ ∀ m, ¬ c'.graph.Live e m) (fun _ _ => False) := by
  simp only [removeStale, ensures_bind, ensures_get, ensures_ite, ensures_pure]
  refine ⟨fun hgone => ⟨.refl h work, Graph.dead_iff.2 hgone⟩, fun hlive => ?_⟩
  obtain ⟨m, hm⟩ := Graph.isDestroyed_eq_false.1 (by simpa using hlive)
  have hp := he.resolve_right fun hdead => hdead m hm
  obtain ⟨r, hr, -⟩ := h.set_of_supports (.inl hp) hm
  obtain ⟨f, hf, -⟩ := h.first hr
  have hkey : c.keyOf m.set = .ok ⟨f.state, f.precision, f.state.location⟩ :=
    keyOf_eq_ok.2 ⟨r, f, hr, hf, rfl⟩
  rw [ensures_lift_of_ok (Graph.liveNode_eq_ok.2 hm)]
  refine ⟨fun _ => ?_, fun _ => removal_pursues h (.inl hp) hm work c.cache⟩
  rw [ensures_lift_of_ok hkey]
  simp only [modifyCache, ensures_modify]
  exact removal_pursues h (.inl hp) hm work _

theorem mem_staleExpansions {entry : NodeId} {stale : List NodeId}
    (hs : c.staleExpansions entry = .ok stale) : e ∈ stale ↔ c.graph.Edge entry e ∧
      ∃ x, c.links.reducedOf e = some x ∧ ∀ m, ¬ c.graph.Live x m := by
  unfold staleExpansions at hs
  cases hn : c.graph.liveNode entry with
  | error f => simp [hn, bind, Except.bind] at hs
  | ok n =>
    have hlive := Graph.liveNode_eq_ok.1 hn
    simp only [hn, bind, Except.bind, pure, Except.pure, Except.ok.injEq] at hs
    rw [← hs, List.mem_filter]
    have hedge : c.graph.Edge entry e ↔ e ∈ n.children.toList := by
      constructor
      · rintro ⟨m, hm, he⟩
        cases Option.some.inj (hm.symm.trans hlive.1)
        exact he
      · exact fun he => ⟨n, hlive.1, he⟩
    rw [hedge, and_congr_right_iff]
    intro _
    cases c.links.reducedOf e with
    | none => simp
    | some x => simp [← Graph.dead_iff]

theorem removeStales_pursues {stale : List NodeId} (h : c.Fenced)
    (hstale : ∀ e ∈ stale, c.graph.Edge p e ∨ ∀ m, ¬ c.graph.Live e m) (work : StaleWork) :
    Ensures (stale.foldlM removeStale work) c
      (fun work' c' => Pursues work c work' c' ∧ ∀ e ∈ stale, ∀ m, ¬ c'.graph.Live e m)
      (fun _ _ => False) := by
  induction stale generalizing c work with
  | nil => exact ⟨.refl h work, List.forall_mem_nil _⟩
  | cons a rest ih =>
    obtain ⟨ha, hrest⟩ := List.forall_mem_cons.1 hstale
    rw [List.foldlM_cons, ensures_bind]
    refine (removeStale_pursues h ha work).imp (fun work' d hd => ?_) fun _ _ => id
    obtain ⟨g, hgone⟩ := hd
    have hrest : ∀ e ∈ rest, d.graph.Edge p e ∨ ∀ m, ¬ d.graph.Live e m := by
      intro e he
      by_cases hlive : ∃ m, d.graph.Live e m
      · obtain ⟨m, hm⟩ := hlive
        exact (hrest e he).imp (g.edge · hm) g.dead
      · exact Or.inr (not_exists.1 hlive)
    refine (ih g.fenced hrest work').imp (fun work'' d' hd' => ?_) fun _ _ => id
    exact ⟨g.trans hd'.1, List.forall_mem_cons.2 ⟨hd'.1.dead hgone, hd'.2⟩⟩

theorem removeStaleBelow_pursues (h : c.Fenced) (work : StaleWork) (entry : NodeId) :
    Ensures (removeStaleBelow work entry) c
      (fun work' c' => Pursues work c work' c' ∧ ∀ e x m, c'.graph.Live e m →
        c.graph.Edge entry e → c.links.reducedOf e = some x → ∃ k, c.graph.Live x k)
      (fun _ _ => False) := by
  simp only [removeStaleBelow, ensures_bind, ensures_get, ensures_ite, ensures_pure]
  refine ⟨fun hgone => ⟨.refl h work, fun e x m _ he => ?_⟩, fun hlive => ?_⟩
  · obtain ⟨n, hn⟩ := h.graph.live_of_edge he
    rw [hn.isDestroyed] at hgone
    cases hgone
  · obtain ⟨n, hn⟩ := Graph.isDestroyed_eq_false.1 (by simpa using hlive)
    obtain ⟨stale, hstale⟩ : ∃ stale, c.staleExpansions entry = .ok stale := by
      rw [staleExpansions, Graph.liveNode_eq_ok.2 hn]
      exact ⟨_, rfl⟩
    have hmem := fun e => mem_staleExpansions (e := e) hstale
    rw [ensures_lift_of_ok hstale]
    refine (removeStales_pursues h (fun e he => Or.inl ((hmem e).1 he).1) work).imp
      (fun work' d hd => ⟨hd.1, fun e x m hm he hx => ?_⟩) fun _ _ => id
    by_contra hdead
    exact hd.2 e ((hmem e).2 ⟨he, x, hx, not_exists.1 hdead⟩) m hm

theorem removeStaleFor_pursues (h : c.Fenced) (s : SetId) (work : StaleWork) :
    Ensures (removeStaleFor s work) c
      (fun work' c' => Pursues work c work' c' ∧
        (c.Attributed → c.Owed (s :: work.pending) (fun _ => False) →
          c'.Owed work'.pending fun _ => False))
      (fun _ _ => False) := by
  simp only [removeStaleFor, ensures_bind, ensures_get]
  -- what is owed is pending or below the call nodes that are left
  have loop := Ensures.foldlM (l := (c.links.entriesFor s).toList) (f := removeStaleBelow) (s := c)
    (b := work) (B := fun _ _ => False)
    (I := fun rest work' d => Pursues work c work' d ∧
      (c.Attributed → c.Owed (s :: work.pending) (fun _ => False) →
        d.Owed work'.pending fun e => ∃ p ∈ rest, d.graph.Edge p e))
    (fun p rest work' d hI => by
      obtain ⟨g, ho⟩ := hI
      refine (removeStaleBelow_pursues g.fenced work' p).imp (fun work'' d' hd' => ?_) fun _ _ => id
      obtain ⟨g', hbelow⟩ := hd'
      refine ⟨g.trans g', fun ha hc => g'.owed (ho ha hc) ?_⟩
      rintro e x m hm hx hdead ⟨q, hq, he⟩
      rcases List.mem_cons.1 hq with rfl | hq
      · obtain ⟨k, hk⟩ := hbelow e x m hm he hx
        exact absurd hk (hdead k)
      · exact ⟨q, hq, g'.edge he hm⟩)
    ⟨.refl h work, fun ha ho => ha.owed_below ho⟩
  refine loop.imp (fun work' d hd => ⟨hd.1, fun ha hc e x m k hx hm hk hdead => ?_⟩) fun _ _ => id
  refine (hd.2 ha hc e x m k hx hm hk hdead).imp_right ?_
  rintro ⟨p, hp, -⟩
  exact List.not_mem_nil hp

end Action

/-- The loop ends when nothing is owed any more, if there is one unit of fuel for each pending set
and each live node. -/
theorem removeStaleExpansions_prunes (fuel : Nat) (work : StaleWork) (h : c.Fenced) :
    Ensures (removeStaleExpansions fuel work) c
      (fun report c' => Prunes work.report c report c' ∧
        (c.Attributed → c.Owed work.pending (fun _ => False) → c'.Owed [] fun _ => False))
      (fun halt _ => halt = .outOfFuel ∧ fuel < work.pending.length + c.graph.liveCount) := by
  obtain ⟨pending, report⟩ := work
  induction fuel generalizing c pending report with
  | zero =>
    cases pending with
    | nil => exact ⟨.refl h, fun _ => id⟩
    | cons s pending => exact ⟨rfl, Nat.lt_of_lt_of_le (Nat.succ_pos _) (Nat.le_add_right ..)⟩
  | succ fuel ih =>
    cases pending with
    | nil => exact ⟨.refl h, fun _ => id⟩
    | cons s pending =>
      simp only [removeStaleExpansions, ensures_bind, ensures_liftAction]
      refine (Action.removeStaleFor_pursues h s ⟨pending, report⟩).imp (fun work' d hd => ?_)
        fun _ _ => False.elim
      obtain ⟨g, ho⟩ := hd
      refine (ih g.fenced work'.pending work'.report).imp (fun report' d' hd' => ?_)
        fun halt d' hd' => ⟨hd'.1, ?_⟩
      · obtain ⟨g', ho'⟩ := hd'
        exact ⟨g.toPrunes.trans g', fun ha hc => ho' (g.toPrunes.attributed ha) (ho ha hc)⟩
      · have hmeasure := g.measure
        have hshort := hd'.2
        simp only [List.length_cons] at hmeasure hshort ⊢
        omega

end Blockwise
