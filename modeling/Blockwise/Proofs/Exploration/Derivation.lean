import Blockwise.Proofs.Exploration.Explore

/-!
Where the nodes of an exploration come from. Every node but the first of a set is a successor of the
node above, or the caller's view of an exit. All nodes of a set have the precision of its first
node, a covered node shows the state of the node that covers it, and unless the cache is aggressive
a call node is linked to the result for its own key.
-/
namespace Blockwise

open Context

variable {program : Program} {c c' d d' : Context} {n k p x : NodeId} {s t : SetId}

namespace Context

/-- How the node `n` with the contents `m` came to hang below another one. -/
inductive Origin (program : Program) (c : Context) (n : NodeId) (m : Node State Tracked) : Prop
  | successor {p : NodeId} {mp : Node State Tracked} {state : State} {precision : Tracked}
      (he : c.graph.Edge p n) (hp : c.graph.Live p mp)
      (ht : c.task mp.set p = .ok (.successors state precision))
      (hs : m.state ∈ program.successors state precision) (hx : c.links.reducedOf n = none)
  | expanded {p x : NodeId} {mp mx : Node State Tracked} {t : SetId} {b : Block}
      (he : c.graph.Edge p n) (hp : c.graph.Live p mp) (ht : c.task mp.set p = .ok .call)
      (hl : c.links.setOfEntry p = some t) (hx : c.links.reducedOf n = some x)
      (hexit : c.IsExit t x) (hmx : c.graph.Live x mx)
      (hb : c.partitioning.block? mp.state.location = some b)
      (hs : m.state = c.reducer.expand mp.state b mx.state)

def CallsKey (c : Context) (n : NodeId) (t : SetId) : Prop :=
  ∃ m b, c.graph.Live n m ∧ c.partitioning.block? m.state.location = some b ∧
    c.HasKey t ⟨c.reducer.reduceState m.state b, c.reducer.reducePrecision m.precision b,
      m.state.location⟩

def CoversAs (c : Context) (k : NodeId) (s : SetId) (state : State) : Prop :=
  ∃ m, c.graph.Live k m ∧ m.set = s ∧ m.coveredBy = none ∧ m.state = state

structure NodeDerived (program : Program) (c : Context) (n : NodeId) (m : Node State Tracked) :
    Prop where
  origin : ¬ c.Heads n → c.Origin program n m
  precision : ∀ (r : ReachedSet) f, c.sets[m.set]? = some r → c.graph.Live r.first f →
    m.precision = f.precision
  cover : ∀ k, m.coveredBy = some k → c.CoversAs k m.set m.state

structure Derived (program : Program) (c : Context) : Prop where
  node : ∀ n m, c.graph.Live n m → c.NodeDerived program n m
  key : c.cache.aggressive = false → ∀ n t, c.links.setOfEntry n = some t → c.CallsKey n t

/-! ### Growth keeps what is known -/

namespace Extends

variable (e : c.Extends c')

include e

theorem callsKey (hk : c.CallsKey n t) : c'.CallsKey n t := by
  obtain ⟨m, b, hm, hb, hkey⟩ := hk
  obtain ⟨m', hm', hs, hp, -⟩ := e.node hm
  refine ⟨m', b, hm', by rw [e.evolves.partitioning, hs, hb], ?_⟩
  rw [e.evolves.reducer, hs, hp]
  exact e.hasKey hkey

theorem coversAs {state : State} (hk : c.CoversAs k s state) : c'.CoversAs k s state := by
  obtain ⟨m, hm, hset, hcover, hstate⟩ := hk
  obtain ⟨m', hm', hs, -, hset', -, hcover', -⟩ := e.node hm
  exact ⟨m', hm', hset'.trans hset, hcover'.trans hcover, hs.trans hstate⟩

theorem origin (h : c.Structured) {m m' : Node State Tracked} (hstate : m'.state = m.state)
    (ho : c.Origin program n m)
    (hentry : ∀ p, c.graph.Edge p n → c'.links.setOfEntry p = c.links.setOfEntry p)
    (hx : c'.links.reducedOf n = c.links.reducedOf n) : c'.Origin program n m' := by
  cases ho with
  | successor he hp ht hs hno =>
    obtain ⟨mp', hp', -, -, hset, -⟩ := e.node hp
    exact .successor (e.edge h he) hp' (hset ▸ e.task h ht) (hstate ▸ hs) (hx.trans hno)
  | @expanded p x mp mx t b he hp ht hl hx' hexit hmx hb hs =>
    obtain ⟨mp', hp', hps, -, hset, -⟩ := e.node hp
    obtain ⟨mx', hmx', hxs, -⟩ := e.node hmx
    refine .expanded (b := b) (e.edge h he) hp' (hset ▸ e.task h ht) ((hentry _ he).trans hl)
      (hx.trans hx') (e.isExit hexit) hmx' ?_ ?_
    · rw [e.evolves.partitioning, hps]
      exact hb
    · rw [hstate, hs, e.evolves.reducer, hps, hxs]

theorem precision (h : c.Structured) {m f : Node State Tracked} {p : Tracked} {r : ReachedSet}
    (hm : c.graph.Live n m)
    (hd : ∀ (r : ReachedSet) f, c.sets[m.set]? = some r → c.graph.Live r.first f →
      p = f.precision) (hr : c'.sets[m.set]? = some r) (hf : c'.graph.Live r.first f) :
    p = f.precision := by
  obtain ⟨r₀, hr₀, -⟩ := h.set_of_live hm
  obtain ⟨f₀, hf₀, -⟩ := h.live_first hr₀
  obtain ⟨r', f', hr', hfirst, hf', -, hfp⟩ := e.live_first hr₀ hf₀
  cases Option.some.inj (hr.symm.trans hr')
  rw [hfirst] at hf
  cases hf.unique hf'
  rw [hfp]
  exact hd r₀ f₀ hr₀ hf₀

end Extends

namespace Derived

theorem extend (hd : c.Derived program) (h : c.Sound) (e : c.Extends c')
    (hentry : ∀ p k, c.graph.Edge p k → c'.links.setOfEntry p = c.links.setOfEntry p)
    (hx : ∀ k, k < c.graph.size → c'.links.reducedOf k = c.links.reducedOf k)
    (hkey : c.cache.aggressive = false → ∀ n t, c'.links.setOfEntry n = some t →
      c.links.setOfEntry n = some t ∨ c'.CallsKey n t)
    (hnew : ∀ n m, c'.graph.Live n m → c.graph.size ≤ n → c'.NodeDerived program n m) :
    c'.Derived program := by
  refine ⟨fun n m' hm' => ?_, fun hagg n t ht => ?_⟩
  · rcases Nat.lt_or_ge n c.graph.size with hlt | hge
    · obtain ⟨m₀, hm₀⟩ := Graph.node?_of_lt hlt
      obtain ⟨m₁, hm₁, -, -, hlive⟩ := e.evolves.node hm₀
      cases Option.some.inj (hm₁.symm.trans hm'.1)
      have hm₀ : c.graph.Live n m₀ := ⟨hm₀, (hlive hm'.2).1⟩
      obtain ⟨m₂, hm₂, hs, hp, hset, -, hcover, -⟩ := e.node hm₀
      cases hm'.unique hm₂
      have hn := hd.node n m₀ hm₀
      refine ⟨fun hh => ?_, fun r f hr hf => ?_, fun k hk => ?_⟩
      · exact e.origin h.toStructured hs (hn.origin fun hh₀ => hh (e.evolves.heads hh₀))
          (fun p hp => hentry p n hp) (hx n hlt)
      · rw [hp]
        exact e.precision h.toStructured hm₀ hn.precision (hset ▸ hr) hf
      · rw [hset, hs]
        exact e.coversAs (hn.cover k (hcover.symm.trans hk))
    · exact hnew n m' hm' hge
  · rw [e.aggressive] at hagg
    rcases hkey hagg n t ht with ht | hk
    · exact e.callsKey (hd.key hagg n t ht)
    · exact hk

theorem still (hd : c.Derived program) (h : c.Sound) (e : c.Extends c') (hg : c'.graph = c.graph)
    (hl : c'.links = c.links) : c'.Derived program := by
  refine hd.extend h e (fun _ _ _ => by rw [hl]) (fun _ _ => by rw [hl])
    (fun _ n t ht => Or.inl (by rwa [hl] at ht)) fun n m hm hge => ?_
  rw [hg] at hm
  exact absurd hm.lt_size (Nat.not_lt.2 hge)

theorem linkEntry (hd : c.Derived program) (h : c.Sound) (e : c.Extends c')
    (hchild : ∀ k, ¬ c.graph.Edge n k) (hl : c'.links = c.links.linkEntry n t)
    (hkey : c.cache.aggressive = false → c'.CallsKey n t)
    (hnew : ∀ n m, c'.graph.Live n m → c.graph.size ≤ n → c'.NodeDerived program n m) :
    c'.Derived program := by
  refine hd.extend h e (fun p k he => ?_) (fun k _ => ?_) (fun hagg k s hk => ?_) hnew
  · rw [hl, Links.setOfEntry_linkEntry, if_neg]
    rintro rfl
    exact hchild k he
  · rw [hl, Links.reducedOf_linkEntry]
  · rw [hl, Links.setOfEntry_linkEntry] at hk
    split at hk
    · rename_i hnk
      cases hk
      exact Or.inr (hnk ▸ hkey hagg)
    · exact Or.inl hk

theorem resolves (hd : c.Derived program) (h : c.Sound) (st : Resolves n c t c')
    (hchild : ∀ k, ¬ c.graph.Edge n k) : c'.Derived program := by
  obtain ⟨h', e⟩ := st.spec h
  have calls : ∀ {p K}, c.graph.Live n p → c.reducedFor n = .ok K → c'.HasKey t K →
      c'.CallsKey n t := by
    intro p K hp hK hkey
    obtain ⟨m, b, hm, hb, hs, hpr, hblock, -⟩ := reducedFor_spec hK
    cases Option.some.inj (hm.symm.trans hp.1)
    obtain ⟨p', hp', hps, hpp, -⟩ := e.node hp
    refine ⟨p', b, hp', by rw [e.evolves.partitioning, hps, hb], ?_⟩
    rw [e.evolves.reducer, hps, hpp, ← hs, ← hpr, ← hblock]
    exact hkey
  have old : c'.graph = c.graph → ∀ k m, c'.graph.Live k m → c.graph.size ≤ k →
      c'.NodeDerived program k m := by
    intro hg k m hm hge
    rw [hg] at hm
    exact absurd hm.lt_size (Nat.not_lt.2 hge)
  refine hd.linkEntry h e hchild st.links (fun hagg => ?_) ?_
  · cases st with
    | @stored p K t hp ht hK hs => exact calls hp hK (e.hasKey (h.stored hs).2.1)
    | @similar p K t cache hp ht hK hs =>
      rcases c.cache.lookupSimilar_cases K with hno | ⟨⟨ha, -⟩, -⟩
      · rw [hno] at hs
        cases hs
      · rw [hagg] at ha
        cases ha
    | @fresh p K hp ht hK hs =>
      obtain ⟨-, -, -, -, -, -, -, hblock⟩ := reducedFor_spec hK
      exact calls hp hK (hasKey_addReachedSet (c := c) hblock)
  · cases st with
    | stored => exact old rfl
    | similar => exact old rfl
    | @fresh p K hp ht hK hs =>
      intro k m hm hge
      rcases live_addReachedSet_iff.1 hm with ⟨rfl, rfl⟩ | hm
      · refine ⟨fun hh => absurd ?_ hh, fun r f hr hf => ?_, fun k hk => ?_⟩
        · have hnew : (c.addReachedSet K.state K.precision).Heads c.graph.size :=
            heads_addReachedSet.2 (Or.inl rfl)
          exact hnew
        · change (c.addReachedSet K.state K.precision).sets[c.sets.size]? = some r at hr
          rw [sets_addReachedSet, if_pos rfl] at hr
          cases hr
          rw [hm.unique hf]
        · cases hk
      · exact absurd hm.lt_size (Nat.not_lt.2 hge)

theorem unfolds (hd : c.Derived program) (h : c.Sound) (st : Unfolds program n c c') :
    c'.Derived program := by
  have e := (st.spec h).2
  have child : ∀ {p r state cover}, c.Fertile n p r cover → c'.graph =
      (c.sprout n p r state cover).graph → c'.graph.Edge n c.graph.size ∧
        ∃ p', c'.graph.Live n p' ∧ p'.state = p.state ∧ p'.set = p.set := by
    intro p r state cover hf hg
    obtain ⟨p', hp', hps, -, hset, -⟩ := e.node hf.parent
    refine ⟨?_, p', hp', hps, hset⟩
    rw [hg]
    exact (Graph.edge_sprout hf.parent_lt hf.cover_lt).2 (Or.inr ⟨rfl, rfl⟩)
  cases st with
  | @successor p r state precision next cover hp hr ht hn hc =>
    have hf := fertile_of_findCover h.toStructured hp hr hc
    refine hd.extend h e (fun _ _ _ => rfl) (fun _ _ => rfl) (fun _ _ _ => Or.inl)
      fun k m hm hge => ?_
    rcases (live_sprout_iff hf).1 hm with ⟨rfl, rfl⟩ | ⟨m₀, hm₀, -⟩
    · obtain ⟨he, p', hp', -, hset⟩ := child hf rfl
      refine ⟨fun _ => ?_, fun r' f hr' hf' => ?_, fun k hk => ?_⟩
      · exact .successor he hp' (hset ▸ e.task h.toStructured ht) hn h.reducedOf_size
      · exact e.precision h.toStructured hp (hd.node n p hp).precision hr' hf'
      · have hk : cover = some k := hk
        subst hk
        obtain ⟨hmem, mk, hmk, hfree, hstate⟩ := Graph.findCover_spec hc
        obtain ⟨mk', hmk', hset'⟩ := h.live_of_mem hr hmem
        cases hmk.unique hmk'
        exact e.coversAs ⟨mk, hmk, hset', hfree, hstate⟩
    · exact absurd hm₀.lt_size (Nat.not_lt.2 hge)
  | @expand p m r t x b hp hr ht hs hx hb hm =>
    have hf : c.Fertile n p r none := ⟨hp, hr, by simp⟩
    refine hd.extend h e (fun _ _ _ => rfl) (fun k hk => ?_) (fun _ _ _ => Or.inl)
      fun k mk hmk hge => ?_
    · refine (Links.reducedOf_linkExpanded ..).trans (if_neg ?_)
      rintro rfl
      exact Nat.lt_irrefl _ hk
    rcases (live_sprout_iff hf).1 hmk with ⟨rfl, rfl⟩ | ⟨m₀, hm₀, -⟩
    · obtain ⟨he, p', hp', hps, hset⟩ := child hf rfl
      obtain ⟨mx', hmx', hxs, -⟩ := e.node hm
      refine ⟨fun _ => ?_, fun r' f hr' hf' => ?_, fun k hk => ?_⟩
      · refine .expanded (b := b) he hp' (hset ▸ e.task h.toStructured ht) hs
          ((Links.reducedOf_linkExpanded ..).trans (if_pos rfl)) (e.isExit hx) hmx' ?_ ?_
        · rw [hps]
          exact hb
        · rw [hps, hxs]
          rfl
      · exact e.precision h.toStructured hp (hd.node n p hp).precision hr' hf'
      · cases hk
    · exact absurd hm₀.lt_size (Nat.not_lt.2 hge)
  | record => exact hd.still h e rfl rfl

theorem grows (hd : c.Derived program) (h : c.Sound) (hsize : c.graph.size ≤ 1)
    (g : Grows program c c') : c'.Derived program := by
  induction g with
  | refl => exact hd
  | quiet g statistics shutdown ih =>
    exact ih.still (g.sound h) (Grows.extends_quiet statistics shutdown) rfl rfl
  | pop g hr ih => exact ih.still (g.sound h) (Grows.sound_pop (g.sound h) hr).2 rfl rfl
  | resolve g _ _ hc st ih =>
    refine ih.resolves (g.sound h) st fun k he => ?_
    obtain ⟨-, -, -, -, -, hlt, -⟩ := (g.sound h).live_of_edge he
    have hk := hc k he
    exact Nat.not_lt.2 hsize (Nat.lt_of_le_of_lt (Nat.succ_le_of_lt (Nat.zero_lt_of_lt hlt)) hk)
  | unfold g _ _ st ih => exact ih.unfolds (g.sound h) st

theorem start (program : Program) (partitioning : Partitioning) (reducer : Reducer) (state : State)
    (precision : Tracked) (options : Options) :
    (Context.start partitioning reducer state precision options).Derived program where
  node := by
    intro n m hm
    have hs := sound_start partitioning reducer state precision options
    have hhead := heads_of_live_start hm
    refine ⟨fun hh => absurd hhead hh, fun r f hr hf => ?_, fun k hk => ?_⟩
    · obtain ⟨r', hr', hfirst⟩ := hs.first_of_heads hhead hm
      cases Option.some.inj (hr.symm.trans hr')
      rw [hfirst] at hf
      rw [hm.unique hf]
    · rw [(hs.head hm hhead).2] at hk
      cases hk
  key := by
    intro _ n t ht
    cases ht

end Derived

end Context

end Blockwise
