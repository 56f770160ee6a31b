import Blockwise.Proofs.Context.Reading
import Blockwise.Proofs.Repair.Removal
import Blockwise.Proofs.Repair.StaleWork

/-!
The loop that removes stale expansions, in a sound context. It shrinks the context, also when it is
out of fuel. Nothing is owed when no set is pending any more.
-/
namespace Blockwise

open Context

variable {c c' d : Context} {roots : List NodeId} {e x a b n : NodeId}
  {pending pending' : List SetId} {left left' : NodeId → Prop}

theorem Context.Sound.attributed (h : c.Sound) (hf : c.Faithful) : c.Attributed := by
  intro e x m hx hm
  obtain ⟨p, -, hp, -⟩ := h.parent hm (h.exit hx).expanded_not_head
  have hmem : p ∈ m.parents := hp ▸ SortedSet.mem_singleton.2 rfl
  obtain ⟨k, hk, -⟩ := (h.exit hx).exit
  exact ⟨p, k, h.graph.edge_iff.2 ⟨m, hm.1, hmem⟩, hk, hf e x p m k hx hm hmem hk⟩

namespace Shrinks

variable (h : c.Sound) (g : Shrinks c roots c')

include h g

theorem live {m' m : Node State Tracked} (hn : c'.graph.Live n m') (hm : c.graph.node? n = some m) :
    c.graph.Live n m ∧ m'.set = m.set ∧ ∀ p, p ∈ m'.parents ↔ p ∈ m.parents := by
  obtain ⟨m'', hm'', -, hset, hlive⟩ := (g.evolves h).node hm
  cases Option.some.inj (hm''.symm.trans hn.1)
  obtain ⟨hd, hp⟩ := hlive hn.2
  exact ⟨⟨hm, hd⟩, hset, hp⟩

theorem dead (hn : ∃ m, c.graph.node? n = some m) (hdead : ∀ m, ¬ c.graph.Live n m)
    (m' : Node State Tracked) : ¬ c'.graph.Live n m' := by
  intro hm'
  obtain ⟨m, hm⟩ := hn
  exact hdead m (g.live h hm' hm).1

theorem edge {m' : Node State Tracked} (he : c.graph.Edge a b) (hb : c'.graph.Live b m') :
    c'.graph.Edge a b := by
  obtain ⟨m, hm, hp⟩ := h.graph.edge_iff.1 he
  obtain ⟨-, -, hpar⟩ := g.live h hb hm
  exact (g.sound h).graph.edge_iff.2 ⟨m', hb.1, (hpar a).2 hp⟩

theorem faithful (hf : c.Faithful) : c'.Faithful := by
  intro e x p m' k' hx hm' hp hk'
  rw [g.links h] at hx ⊢
  obtain ⟨m, hm⟩ := (h.exit hx).expanded
  obtain ⟨k, hk, -⟩ := (h.exit hx).exit
  obtain ⟨hlive, -, hpar⟩ := g.live h hm' hm
  obtain ⟨k'', hk'', -, hset, -⟩ := (g.evolves h).node hk
  cases Option.some.inj (hk'.symm.trans hk'')
  rw [hset]
  exact hf e x p m k hx hlive ((hpar p).1 hp) hk

theorem owed (ho : c.Owed pending left)
    (hlost : ∀ {n m}, c.graph.Live n m → (∀ m', ¬ c'.graph.Live n m') → m.set ∈ pending')
    (hsub : ∀ t ∈ pending, t ∈ pending')
    (hleft : ∀ {e m}, c'.graph.Live e m → left e → left' e) : c'.Owed pending' left' := by
  refine ho.carry (g.links h) (fun {e x m' k'} hx hm' hk' => ?_) hlost hsub
    fun hm' _ _ => hleft hm'
  obtain ⟨m, hm⟩ := (h.exit hx).expanded
  obtain ⟨k, hk, -⟩ := (h.exit hx).exit
  obtain ⟨k'', hk'', -, hset, -⟩ := (g.evolves h).node hk
  cases Option.some.inj (hk'.symm.trans hk'')
  exact ⟨m, k, (g.live h hm' hm).1, hk, hset.symm⟩

end Shrinks

namespace Action

theorem removeSubtree_keep_spec (h : c.Structured) (hst : c.Stored) {m : Node State Tracked}
    (hm : c.graph.Live e m)
    (hforgot : ∀ {K}, 0 < m.set → c.HasKey m.set K → c.cache.returnEntry K = none) :
    Ensures (removeSubtree m.set e .keep) c (fun _ c' => c.Sheds m.set e c')
      (fun _ c' => c' = c) := by
  obtain ⟨r, hr, -⟩ := h.set_of_live hm
  refine (removeSubtree_spec h hr).imp (fun _ d hd => ?_) (fun _ _ => id)
  rcases hd with ⟨hhead, -, rfl⟩ | ⟨root, gone, hroot, hc, rfl, -⟩
  · exact .none hhead
  · refine .cut hc hroot (.of_cache hst rfl fun {K} hs => ?_) hforgot
    exact hc.hasKey_keep h (hst hs).2.1

theorem removeStale_shrinks (h : c.Sound) (hx : c.links.reducedOf e = some x)
    (hdead : ∀ m, ¬ c.graph.Live x m) (work : StaleWork) :
    Ensures (removeStale work e) c (fun _ c' => Shrinks c [] c') (fun _ c' => Shrinks c [] c') := by
  simp only [removeStale, ensures_bind, ensures_get, ensures_ite, ensures_pure]
  refine ⟨fun _ => .start, fun hlive => ?_⟩
  obtain ⟨m, hm⟩ := Graph.isDestroyed_eq_false.1 (by simpa using hlive)
  rw [ensures_lift_of_ok (Graph.liveNode_eq_ok.2 hm)]
  refine ⟨fun hpos => ?_, fun htop => ?_⟩
  · rw [ensures_liftExcept]
    refine ⟨fun K hK => ?_, fun _ _ => .start⟩
    have g : Shrinks c [] { c with cache := c.cache.removeReturnEntry K } :=
      Shrinks.start.forgetReturns K
    simp only [modifyCache, ensures_modify]
    refine (removeSubtree_keep_spec (g.sound h).toStructured (g.sound h).results hm
      fun {K'} _ hK' => ?_).imp (fun _ d rm => g.stale hx hdead rm) fun _ d hd => hd ▸ g
    cases (keyOf_eq_ok.1 hK).unique hK'
    exact (Table.get?_erase ..).trans (if_pos rfl)
  · have htop : m.set = .topLevel := by simpa using htop
    refine (removeSubtree_keep_spec h.toStructured h.results hm fun hpos _ => ?_).imp
      (fun _ d rm => Shrinks.start.stale hx hdead rm) fun _ d hd => hd ▸ .start
    exact absurd hpos (htop ▸ Nat.lt_irrefl 0)

theorem removeStaleBelow_shrinks (h : c.Sound) (work : StaleWork) (entry : NodeId) :
    Ensures (removeStaleBelow work entry) c (fun _ c' => Shrinks c [] c')
      (fun _ c' => Shrinks c [] c') := by
  simp only [removeStaleBelow, ensures_bind, ensures_get, ensures_ite, ensures_pure]
  refine ⟨fun _ => .start, fun _ => ?_⟩
  rw [ensures_liftExcept]
  refine ⟨fun stale hstale => ?_, fun _ _ => .start⟩
  refine (Ensures.foldlM (I := fun rest _ d => (∀ e ∈ rest, e ∈ stale) ∧ Shrinks c [] d)
    (fun e rest work' d hI => ?_) ⟨fun _ => id, .start⟩).imp (fun _ _ hd => hd.2) fun _ _ => id
  obtain ⟨hsub, g⟩ := hI
  obtain ⟨-, x, hx, hdead⟩ := (mem_staleExpansions hstale).1 (hsub e (List.mem_cons_self ..))
  obtain ⟨k, hk, -⟩ := (h.exit hx).exit
  exact (removeStale_shrinks (g.sound h) (by rw [g.links h, hx]) (g.dead h ⟨k, hk⟩ hdead)
    work').imp (fun _ _ g' => ⟨fun a ha => hsub a (List.mem_cons_of_mem _ ha), g.trans g'⟩)
      fun _ _ g' => g.trans g'

theorem removeStaleFor_shrinks (h : c.Sound) (s : SetId) (work : StaleWork) :
    Ensures (removeStaleFor s work) c (fun _ c' => Shrinks c [] c')
      (fun _ c' => Shrinks c [] c') := by
  simp only [removeStaleFor, ensures_bind, ensures_get]
  refine Ensures.foldlM (I := fun _ _ d => Shrinks c [] d) (fun p rest work' d g => ?_) .start
  exact (removeStaleBelow_shrinks (g.sound h) work' p).imp (fun _ _ g' => g.trans g')
    fun _ _ g' => g.trans g'

end Action

theorem removeStaleExpansions_shrinks (fuel : Nat) (work : StaleWork) (h : c.Sound) :
    Ensures (removeStaleExpansions fuel work) c (fun _ c' => Shrinks c [] c')
      (fun _ c' => Shrinks c [] c') := by
  obtain ⟨pending, report⟩ := work
  induction fuel generalizing c pending report with
  | zero =>
    cases pending with
    | nil => exact .start
    | cons s pending => exact .start
  | succ fuel ih =>
    cases pending with
    | nil => exact .start
    | cons s pending =>
      simp only [removeStaleExpansions, ensures_bind, ensures_liftAction]
      refine (Action.removeStaleFor_shrinks h s ⟨pending, report⟩).imp (fun work' d g => ?_)
        fun _ _ => id
      exact (ih (g.sound h) work'.pending work'.report).imp (fun _ _ g' => g.trans g')
        fun _ _ g' => g.trans g'

theorem removeStaleExpansions_spec (fuel : Nat) (work : StaleWork) (h : c.Sound) :
    Ensures (removeStaleExpansions fuel work) c
      (fun report c' => Shrinks c [] c' ∧ report.removals = work.report.removals ∧
        (c.Faithful → c.Owed work.pending (fun _ => False) → c'.Owed [] fun _ => False))
      (fun _ c' => Shrinks c [] c') := by
  refine ((removeStaleExpansions_shrinks fuel work h).and
    (removeStaleExpansions_prunes fuel work h.toStructured.fenced)).imp (fun report d hd => ?_)
      fun _ _ hbad => hbad.1
  obtain ⟨g, hp, ho⟩ := hd
  obtain ⟨removed, rfl, -⟩ := hp.removed
  exact ⟨g, rfl, fun hf => ho (h.attributed hf)⟩

end Blockwise
