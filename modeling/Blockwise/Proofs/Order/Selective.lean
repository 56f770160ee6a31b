import Blockwise.Proofs.Exploration.Agreement
import Blockwise.Proofs.Exploration.Derivation
import Blockwise.Proofs.Exploration.Kept

/-!
What an exploration selects. It goes on from nodes that no other node covers. The views of exits are
among them, whatever they show; a successor is among them only when it shows another state than the
first node of its set. And a block is explored only after a call of it.
-/
namespace Blockwise

open Context

variable {program : Program} {c c' : Context} {n : NodeId} {s t : SetId}

namespace Context

def Touched (c : Context) (n : NodeId) : Prop :=
  c.Waits n ∨ (∃ k, c.graph.Edge n k) ∨ ∃ t, c.links.setOfEntry n = some t

/-- What covering makes of a node behind the first one. -/
structure Selected (c : Context) (n : NodeId) (m : Node State Tracked) : Prop where
  view : ∀ x, c.links.reducedOf n = some x → m.coveredBy = none
  successor : ¬ c.Heads n → c.links.reducedOf n = none → m.coveredBy = none →
    ∀ (r : ReachedSet) f, c.sets[m.set]? = some r → c.graph.Live r.first f → m.state ≠ f.state

def Called (c : Context) (s : SetId) : Prop :=
  ∃ (r : ReachedSet) (n : NodeId) (t : SetId), c.sets[s]? = some r ∧ n < r.first ∧
    c.links.setOfEntry n = some t ∧ c.CallsKey n s

structure Selective (c : Context) : Prop where
  touched : ∀ n, c.Touched n → c.Free n
  node : ∀ n m, c.graph.Live n m → c.Selected n m
  called : ∀ s, 0 < s → s < c.sets.size → c.Called s

theorem Extends.called (e : c.Extends c') (hc : c.Called s) : c'.Called s := by
  obtain ⟨r, n, t, hr, hlt, hl, hkey⟩ := hc
  obtain ⟨r', hr', hfirst, -⟩ := e.set hr
  obtain ⟨t', ht'⟩ := e.entry hl
  exact ⟨r', n, t', hr', hfirst ▸ hlt, ht', e.callsKey hkey⟩

end Context

theorem Resolves.heads_of_le (st : Resolves n c t c') {k : NodeId} {m : Node State Tracked}
    (hm : c'.graph.Live k m) (hge : c.graph.size ≤ k) : c'.Heads k := by
  cases st with
  | stored => exact absurd hm.lt_size (Nat.not_lt.2 hge)
  | similar => exact absurd hm.lt_size (Nat.not_lt.2 hge)
  | @fresh p K =>
    rcases live_addReachedSet_iff.1 hm with ⟨rfl, -⟩ | hm
    · have hhead : (c.addReachedSet K.state K.precision).Heads c.graph.size :=
        heads_addReachedSet.2 (Or.inl rfl)
      exact hhead
    · exact absurd hm.lt_size (Nat.not_lt.2 hge)

theorem Resolves.touched (h : c.Sound) (hn : c.Free n) (st : Resolves n c t c') {k : NodeId}
    (hk : c'.Touched k) : c.Touched k ∨ c'.Free k := by
  obtain ⟨h', e⟩ := st.spec h
  rcases hk with hw | ⟨a, he⟩ | ⟨t', hl⟩
  · rcases st.waits hw with hw | hge
    · exact Or.inl (Or.inl hw)
    · obtain ⟨q, r, hr, hw⟩ := hw
      obtain ⟨m, hm, -⟩ := h'.live_of_mem hr ((h'.waitlist hr).2 k hw)
      exact Or.inr ⟨m, hm, (h'.head hm (st.heads_of_le hm hge)).2⟩
  · exact Or.inl (Or.inr (Or.inl ⟨a, st.edge he⟩))
  · rw [st.links, Links.setOfEntry_linkEntry] at hl
    split at hl
    · rename_i hnk
      exact Or.inr (hnk ▸ e.free hn)
    · exact Or.inl (Or.inr (Or.inr ⟨t', hl⟩))

theorem Unfolds.touched (h : c.Sound) (hn : c.Free n) (st : Unfolds program n c c') {k : NodeId}
    (hk : c'.Touched k) : c.Touched k ∨ c'.Free k := by
  have e := (st.spec h).2
  rcases hk with ⟨t, q, hq, hw⟩ | ⟨a, he⟩ | ⟨t, hl⟩
  · rcases st.shape h.toStructured with ⟨-, hsets⟩ | ⟨p, r, state, cover, hf, hg, hsets⟩
    · exact Or.inl (Or.inl ⟨t, q, hsets ▸ hq, hw⟩)
    · rw [hsets] at hq
      obtain ⟨q₀, hq₀, -, -, -, hsame | ⟨-, rfl, hsame⟩⟩ := mem_of_sets_sprout hf hq
      · exact Or.inl (Or.inl ⟨t, q₀, hq₀, hsame ▸ hw⟩)
      · rw [hsame] at hw
        rcases List.mem_append.1 hw with hw | hw
        · exact Or.inl (Or.inl ⟨t, q₀, hq₀, hw⟩)
        · rw [List.mem_singleton.1 hw]
          exact Or.inr ⟨_, hg ▸ (live_sprout_iff hf).2 (Or.inl ⟨rfl, rfl⟩), rfl⟩
  · rcases st.edge h.toStructured he with he | ⟨rfl, -⟩
    · exact Or.inl (Or.inr (Or.inl ⟨a, he⟩))
    · exact Or.inr (e.free hn)
  · exact Or.inl (Or.inr (Or.inr ⟨t, st.entry.symm.trans hl⟩))

namespace Context

namespace Selective

variable (hc : c.Selective) (h : c.Sound)

include hc h

theorem extend (e : c.Extends c') (htouched : ∀ n, c'.Touched n → c.Touched n ∨ c'.Free n)
    (hx : ∀ k, k < c.graph.size → c'.links.reducedOf k = c.links.reducedOf k)
    (hnode : ∀ n m, c'.graph.Live n m → c.graph.size ≤ n → c'.Selected n m)
    (hcalled : ∀ s, c.sets.size ≤ s → s < c'.sets.size → c'.Called s) : c'.Selective where
  touched := fun n hn => (htouched n hn).elim (fun hn => e.free (hc.touched n hn)) id
  node := by
    intro n m' hm'
    rcases Nat.lt_or_ge n c.graph.size with hlt | hge
    · obtain ⟨m₀, hm₀⟩ := Graph.node?_of_lt hlt
      obtain ⟨m₁, hm₁, -, -, hlive⟩ := e.evolves.node hm₀
      cases Option.some.inj (hm₁.symm.trans hm'.1)
      have hm₀ : c.graph.Live n m₀ := ⟨hm₀, (hlive hm'.2).1⟩
      obtain ⟨m₂, hm₂, hs, -, hset, -, hcover, -⟩ := e.node hm₀
      cases hm'.unique hm₂
      have hn := hc.node n m₀ hm₀
      refine ⟨fun x hx' => ?_, fun hh hno hfree r f hr hf => ?_⟩
      · rw [hx n hlt] at hx'
        exact hcover.trans (hn.view x hx')
      · obtain ⟨r₀, hr₀, -⟩ := h.set_of_live hm₀
        obtain ⟨f₀, hf₀, -⟩ := h.live_first hr₀
        obtain ⟨r', f', hr', hfirst, hf', hfs, -⟩ := e.live_first hr₀ hf₀
        rw [hset] at hr
        cases Option.some.inj (hr.symm.trans hr')
        rw [hfirst] at hf
        cases hf.unique hf'
        rw [hs, hfs]
        exact hn.successor (fun hh₀ => hh (e.evolves.heads hh₀)) ((hx n hlt).symm.trans hno)
          (hcover.symm.trans hfree) r₀ f₀ hr₀ hf₀
    · exact hnode n m' hm' hge
  called := by
    intro s hpos hs
    rcases Nat.lt_or_ge s c.sets.size with hlt | hge
    · exact e.called (hc.called s hpos hlt)
    · exact hcalled s hge hs

theorem still (e : c.Extends c') (hg : c'.graph = c.graph) (hl : c'.links = c.links)
    (hsize : c'.sets.size = c.sets.size) (hw : ∀ n, c'.Waits n → c.Waits n) : c'.Selective := by
  refine hc.extend h e (fun n hn => Or.inl ?_) (fun _ _ => by rw [hl]) (fun n m hm hge => ?_)
    fun s hge hlt => absurd hge (Nat.not_le.2 (hsize ▸ hlt))
  · unfold Touched at hn
    rw [hg, hl] at hn
    exact hn.imp_left (hw n)
  · rw [hg] at hm
    exact absurd hm.lt_size (Nat.not_lt.2 hge)

theorem resolve (hn : c.Free n) (st : Resolves n c t c') : c'.Selective := by
  have e := (st.spec h).2
  have hlinks := st.links
  refine hc.extend h e (fun k hk => st.touched h hn hk) (fun k _ => ?_)
    (fun k m hm hge => ⟨fun x hx => ?_, fun hh => absurd (st.heads_of_le hm hge) hh⟩)
    fun s hge hs => ?_
  · rw [hlinks, Links.reducedOf_linkEntry]
  · rw [hlinks, Links.reducedOf_linkEntry, h.reducedOf_of_le hge] at hx
    cases hx
  · cases st with
    | stored => exact absurd hs (Nat.not_lt.2 hge)
    | similar => exact absurd hs (Nat.not_lt.2 hge)
    | @fresh p K hp ht hK hfresh =>
      have hs : s < c.sets.size + 1 := Nat.lt_of_lt_of_eq hs (Array.size_push ..)
      have hs : s = c.sets.size := Nat.le_antisymm (Nat.le_of_lt_succ hs) hge
      subst hs
      obtain ⟨m, b, hm, hb, hstate, hprecision, hlocation, hblock⟩ := reducedFor_spec hK
      cases Option.some.inj (hm.symm.trans hp.1)
      obtain ⟨p', hp', hps, hpp, -⟩ := e.node hp
      refine ⟨.start c.sets.size c.graph.size c.options.order, n, c.sets.size, ?_, hp.lt_size, ?_,
        p', b, hp', by rw [e.evolves.partitioning, hps, hb], ?_⟩
      · change (c.addReachedSet K.state K.precision).sets[c.sets.size]? = _
        rw [sets_addReachedSet, if_pos rfl]
      · rw [hlinks, Links.setOfEntry_linkEntry, if_pos rfl]
      · rw [e.evolves.reducer, hps, hpp, ← hstate, ← hprecision, ← hlocation]
        exact hasKey_addReachedSet (c := c) hblock

theorem unfold (hn : c.Free n) (st : Unfolds program n c c') : c'.Selective := by
  have e := (st.spec h).2
  have hsize := st.sets_size
  have htouched : ∀ k, c'.Touched k → c.Touched k ∨ c'.Free k := fun k hk => st.touched h hn hk
  have hcalled : ∀ s, c.sets.size ≤ s → s < c'.sets.size → c'.Called s :=
    fun s hge hlt => absurd hge (Nat.not_le.2 (hsize ▸ hlt))
  cases st with
  | @successor p r state precision next cover hp hr ht hnext hcover =>
    have hf := fertile_of_findCover h.toStructured hp hr hcover
    refine hc.extend h e htouched (fun _ _ => rfl) (fun k m hm hge => ?_) hcalled
    rcases (live_sprout_iff hf).1 hm with ⟨rfl, rfl⟩ | ⟨m₀, hm₀, -⟩
    · refine ⟨fun x hx => ?_, fun _ _ hfree r' f hr' hf' hs => ?_⟩
      · exact absurd (h.reducedOf_size.symm.trans hx) (by simp)
      · -- otherwise the first node, which is not covered itself, would cover the new one
        have hfree : cover = none := hfree
        subst hfree
        obtain ⟨f₀, hf₀, -⟩ := h.live_first hr
        obtain ⟨r'', f', hr'', hfirst, hf'', hfs, -⟩ := e.live_first hr hf₀
        cases Option.some.inj (hr'.symm.trans hr'')
        rw [hfirst] at hf'
        cases hf'.unique hf''
        exact Graph.findCover_none hcover (h.first_mem hr) hf₀ (h.head hf₀ ⟨_, r, hr, rfl⟩).2
          (hfs.symm.trans hs.symm)
    · exact absurd hm₀.lt_size (Nat.not_lt.2 hge)
  | @expand p m r t x b hp hr ht hs hx hb hm =>
    have hf : c.Fertile n p r none := ⟨hp, hr, by simp⟩
    refine hc.extend h e htouched (fun k hk => ?_) (fun k mk hmk hge => ?_) hcalled
    · exact (Links.reducedOf_linkExpanded ..).trans (if_neg (Nat.ne_of_gt hk))
    rcases (live_sprout_iff hf).1 hmk with ⟨rfl, rfl⟩ | ⟨m₀, hm₀, -⟩
    · refine ⟨fun _ _ => rfl, fun _ hno => ?_⟩
      have hview : (c.links.linkExpanded c.graph.size x).reducedOf c.graph.size = some x :=
        (Links.reducedOf_linkExpanded ..).trans (if_pos rfl)
      exact absurd (hview.symm.trans hno) (by simp)
    · exact absurd hm₀.lt_size (Nat.not_lt.2 hge)
  | record => exact hc.still h e rfl rfl rfl fun _ => id

omit hc h

theorem stepsKeep (program : Program) : StepsKeep program Selective where
  free := fun _ n hc hn => hc.touched n (Or.inl hn)
  quiet := fun _ statistics shutdown h hc =>
    hc.still h (Grows.extends_quiet statistics shutdown) rfl rfl rfl fun _ => id
  pop := fun _ _ _ h hc hr => hc.still h (Grows.sound_pop h hr).2 rfl rfl Array.size_setIfInBounds
    fun _ hn => Grows.waits_pop h.toStructured hr hn
  resolve := fun _ _ _ _ h hc hn st => hc.resolve h hn st
  unfold := fun _ _ _ h hc hn st => hc.unfold h hn st

theorem start (partitioning : Partitioning) (reducer : Reducer) (state : State)
    (precision : Tracked) (options : Options) :
    (Context.start partitioning reducer state precision options).Selective := by
  have hs := sound_start partitioning reducer state precision options
  refine ⟨fun n hn => ?_,
    fun n m hm => ⟨fun x hx => ?_, fun hh => absurd (heads_of_live_start hm) hh⟩,
    fun s hpos hlt => absurd hpos (Nat.not_lt.2 (Nat.le_of_lt_succ hlt))⟩
  · obtain ⟨m, hm⟩ : ∃ m,
        (Context.start partitioning reducer state precision options).graph.Live n m := by
      rcases hn with ⟨s, r, hr, hn⟩ | ⟨k, he⟩ | ⟨t, ht⟩
      · obtain ⟨m, hm, -⟩ := hs.live_of_mem hr ((hs.waitlist hr).2 n hn)
        exact ⟨m, hm⟩
      · obtain ⟨m, -, hm, -⟩ := hs.live_of_edge he
        exact ⟨m, hm⟩
      · cases ht
    exact ⟨m, hm, (hs.head hm (heads_of_live_start hm)).2⟩
  · cases hx

end Selective

theorem selective_of_run (program : Program) (partitioning : Partitioning) (reducer : Reducer)
    (state : State) (precision : Tracked) (options : Options) (shutdown : Shutdown) (fuel : Nat) :
    (finalState (run program fuel
      { Context.start partitioning reducer state precision options with shutdown })).Selective := by
  have hs := sound_start partitioning reducer state precision options
  exact keeps_of_stepsKeep (Selective.stepsKeep program) fuel (Grows.sound_quiet hs {} shutdown)
    ((Selective.stepsKeep program).quiet {} shutdown hs (.start ..))

end Context

end Blockwise
