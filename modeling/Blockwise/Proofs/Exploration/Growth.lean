import Blockwise.Proofs.Context.Reading

/-!
How a context grows while it is explored. Every step is made at one node, which was taken from a
waitlist: it gets a successor or the view of an exit, or it is linked to the result of its block.
Nothing that was there before goes away.
-/
namespace Blockwise

namespace Context

structure Extends (c c' : Context) : Prop where
  evolves : c.Evolves c'
  options : c'.options = c.options
  aggressive : c'.cache.aggressive = c.cache.aggressive
  node : ∀ {n m}, c.graph.Live n m → ∃ m', c'.graph.Live n m' ∧ m'.state = m.state ∧
    m'.precision = m.precision ∧ m'.set = m.set ∧ m'.parents = m.parents ∧
    m'.coveredBy = m.coveredBy ∧ ∀ k ∈ m.children, k ∈ m'.children
  set : ∀ {s : SetId} {r : ReachedSet}, c.sets[s]? = some r →
    ∃ r', c'.sets[s]? = some r' ∧ r'.first = r.first ∧ ∀ n ∈ r, n ∈ r'
  stored : ∀ {K s}, c.cache.lookup K = some s → c'.cache.lookup K = some s
  exit : ∀ {e x}, c.links.reducedOf e = some x → c'.links.reducedOf e = some x
  entry : ∀ {n s}, c.links.setOfEntry n = some s → ∃ s', c'.links.setOfEntry n = some s'

namespace Extends

variable {c c' c'' : Context}

theorem refl (c : Context) : c.Extends c where
  evolves := .refl c
  options := rfl
  aggressive := rfl
  node := fun hm => ⟨_, hm, rfl, rfl, rfl, rfl, rfl, fun _ hk => hk⟩
  set := fun hr => ⟨_, hr, rfl, fun _ hn => hn⟩
  stored := id
  exit := id
  entry := fun hs => ⟨_, hs⟩

theorem trans (e : c.Extends c') (e' : c'.Extends c'') : c.Extends c'' where
  evolves := e.evolves.trans e'.evolves
  options := e'.options.trans e.options
  aggressive := e'.aggressive.trans e.aggressive
  node := by
    intro n m hm
    obtain ⟨m', hm', h₁, h₂, h₃, h₄, h₅, h₆⟩ := e.node hm
    obtain ⟨m'', hm'', g₁, g₂, g₃, g₄, g₅, g₆⟩ := e'.node hm'
    exact ⟨m'', hm'', g₁.trans h₁, g₂.trans h₂, g₃.trans h₃, g₄.trans h₄, g₅.trans h₅,
      fun k hk => g₆ k (h₆ k hk)⟩
  set := by
    intro s r hr
    obtain ⟨r', hr', hf, hsub⟩ := e.set hr
    obtain ⟨r'', hr'', hf', hsub'⟩ := e'.set hr'
    exact ⟨r'', hr'', hf'.trans hf, fun n hn => hsub' n (hsub n hn)⟩
  stored := fun h => e'.stored (e.stored h)
  exit := fun h => e'.exit (e.exit h)
  entry := by
    intro n s hs
    obtain ⟨s', hs'⟩ := e.entry hs
    exact e'.entry hs'

theorem live_first (e : c.Extends c') {s : SetId} {r : ReachedSet} {f : Node State Tracked}
    (hr : c.sets[s]? = some r) (hf : c.graph.Live r.first f) :
    ∃ r' f', c'.sets[s]? = some r' ∧ r'.first = r.first ∧ c'.graph.Live r.first f' ∧
      f'.state = f.state ∧ f'.precision = f.precision := by
  obtain ⟨r', hr', hfirst, -⟩ := e.set hr
  obtain ⟨f', hf', hs, hp, -⟩ := e.node hf
  exact ⟨r', f', hr', hfirst, hf', hs, hp⟩

theorem hasKey (e : c.Extends c') {s : SetId} {K : Key} (h : c.HasKey s K) : c'.HasKey s K := by
  obtain ⟨r, f, hr, hf, rfl⟩ := h
  obtain ⟨r', f', hr', hfirst, hf', hs, hp⟩ := e.live_first hr hf
  exact ⟨r', f', hr', hfirst ▸ hf', by rw [hs, hp]⟩

theorem hasBlock (e : c.Extends c') {s : SetId} (h : c.HasBlock s) : c'.HasBlock s := by
  obtain ⟨r, f, b, hr, hf, hb⟩ := h
  obtain ⟨r', f', hr', hfirst, hf', hs, -⟩ := e.live_first hr hf
  exact ⟨r', f', b, hr', hfirst ▸ hf', by rw [e.evolves.partitioning, hs, hb]⟩

theorem isExit (e : c.Extends c') {t : SetId} {x : NodeId} (h : c.IsExit t x) : c'.IsExit t x := by
  obtain ⟨q, f, b, m, hq, hf, hb, hx, hne, hm, htest⟩ := h
  obtain ⟨q', hq', hfirst, hsub⟩ := e.set hq
  obtain ⟨f', hf', hs, -⟩ := e.node hf
  obtain ⟨m', hm', hs', -⟩ := e.node hm
  refine ⟨q', f', b, m', hq', hfirst ▸ hf', ?_, hsub x hx, hfirst ▸ hne, hm', hs' ▸ htest⟩
  rw [e.evolves.partitioning, hs, hb]

theorem task (e : c.Extends c') (h : c.Structured) {s : SetId} {n : NodeId} {todo : NodeTask}
    (ht : c.task s n = .ok todo) : c'.task s n = .ok todo := by
  obtain ⟨m, hm, ⟨htarget, rfl⟩ | ⟨-, r, hr⟩⟩ := live_of_task ht
  · obtain ⟨m', hm', hs, -⟩ := e.node hm
    unfold Context.task
    simp only [bind, Except.bind, Graph.liveNode_eq_ok.2 hm', hs, htarget, if_true]
    rfl
  · obtain ⟨f, hf, -⟩ := h.live_first hr
    obtain ⟨m', hm', hs, hp, -⟩ := e.node hm
    obtain ⟨r', f', hr', hfirst, hf', hsf, -⟩ := e.live_first hr hf
    rw [task_eq hm hr hf] at ht
    rw [task_eq hm' hr' (hfirst ▸ hf'), hs, hp, hfirst, hsf, e.evolves.partitioning]
    exact ht

end Extends

variable {c c' : Context}

theorem extends_putSet {s : SetId} {r r' : ReachedSet} (hr : c.sets[s]? = some r)
    (hf : r'.first = r.first) (hn : r'.nodes = r.nodes) : c.Extends (c.putSet s r') :=
  { Extends.refl c with
    evolves := evolves_putSet hr hf
    set := by
      intro t q hq
      rw [putSet, getElem?_setIfInBounds hr]
      by_cases hst : s = t
      · subst hst
        cases Option.some.inj (hr.symm.trans hq)
        refine ⟨r', by simp, hf, fun n hm => ?_⟩
        change n ∈ r'.nodes
        rwa [hn]
      · exact ⟨q, by simpa [hst] using hq, rfl, fun _ hm => hm⟩ }

theorem extends_sprout {parent : NodeId} {p : Node State Tracked} {r : ReachedSet} {state : State}
    {cover : Option NodeId} (hf : c.Fertile parent p r cover) :
    c.Extends (c.sprout parent p r state cover) :=
  { Extends.refl c with
    evolves := evolves_sprout hf
    node := by
      intro n m hm
      refine ⟨_, live_sprout hf hm, rfl, rfl, rfl, rfl, rfl, ?_⟩
      intro k hk
      by_cases hn : n = parent <;> simp [Graph.grown, hn, hk]
    set := by
      intro t q hq
      obtain ⟨q', hq', hfirst⟩ := sets_sprout_of hf state hq
      obtain ⟨q₀, hq₀, -, -, hmem, -⟩ := mem_of_sets_sprout hf hq'
      cases Option.some.inj (hq.symm.trans hq₀)
      exact ⟨q', hq', hfirst, fun n hn => (hmem n).2 (Or.inl hn)⟩ }

theorem extends_cacheSet {K : Key} (hK : c.cache.lookup K = none) : c.Extends (c.cacheSet K) :=
  { Extends.refl c with
    evolves := evolves_cacheSet
    node := fun hm => ⟨_, live_addReachedSet_iff.2 (Or.inr hm), rfl, rfl, rfl, rfl, rfl,
      fun _ hk => hk⟩
    set := by
      intro t q hq
      refine ⟨q, ?_, rfl, fun _ hn => hn⟩
      change (c.addReachedSet K.state K.precision).sets[t]? = some q
      rw [sets_addReachedSet, if_neg (Nat.ne_of_lt (lt_size_of_sets hq)), hq]
    stored := by
      intro K' s hs
      rw [lookup_cacheSet, if_neg]
      · exact hs
      · rintro rfl
        rw [hK] at hs
        cases hs }

theorem extends_linkEntry {n : NodeId} {s : SetId} :
    c.Extends { c with links := c.links.linkEntry n s } :=
  { Extends.refl c with
    evolves := { Evolves.refl c with }
    entry := by
      intro m t hm
      change ∃ s', (c.links.linkEntry n s).setOfEntry m = some s'
      rw [Links.setOfEntry_linkEntry]
      split
      · exact ⟨s, rfl⟩
      · exact ⟨t, hm⟩ }

theorem extends_linkExpanded {e x : NodeId} (he : c.links.reducedOf e = none) :
    c.Extends { c with links := c.links.linkExpanded e x } :=
  { Extends.refl c with
    evolves := { Evolves.refl c with }
    exit := by
      intro e' x' hx
      change (c.links.linkExpanded e x).reducedOf e' = some x'
      rw [Links.reducedOf_linkExpanded, if_neg]
      · exact hx
      · rintro rfl
        rw [he] at hx
        cases hx }

theorem extends_cache {cache : Cache State Tracked} (ha : cache.aggressive = c.cache.aggressive)
    (hs : ∀ {K s}, c.cache.lookup K = some s → cache.lookup K = some s) :
    c.Extends { c with cache } :=
  { Extends.refl c with
    evolves := { Evolves.refl c with }
    aggressive := ha
    stored := hs }

theorem extends_lookupSimilar {K : Key} {cache : Cache State Tracked}
    (hs : c.cache.lookupSimilar K = (some s, cache)) : c.Extends { c with cache } := by
  obtain ⟨-, -, ⟨-, rfl⟩ | ⟨-, -, rfl⟩⟩ := Cache.lookupSimilar_eq_some hs
  · exact .refl c
  · exact extends_cache rfl id

end Context

open Context

inductive Resolves (n : NodeId) (c : Context) : SetId → Context → Prop
  | stored {p K t} (hp : c.graph.Live n p) (ht : c.task p.set n = .ok .call)
      (hK : c.reducedFor n = .ok K) (hs : c.cache.lookup K = some t) :
      Resolves n c t { c with links := c.links.linkEntry n t }
  | similar {p K t cache} (hp : c.graph.Live n p) (ht : c.task p.set n = .ok .call)
      (hK : c.reducedFor n = .ok K) (hs : c.cache.lookupSimilar K = (some t, cache)) :
      Resolves n c t { c with cache, links := c.links.linkEntry n t }
  | fresh {p K} (hp : c.graph.Live n p) (ht : c.task p.set n = .ok .call)
      (hK : c.reducedFor n = .ok K) (hs : c.cache.lookup K = none) :
      Resolves n c c.sets.size { c.cacheSet K with links := c.links.linkEntry n c.sets.size }

/-- The node `n` gets a successor or a view of an exit, or the exits of the block that it calls are
recorded. -/
inductive Unfolds (program : Program) (n : NodeId) (c : Context) : Context → Prop
  | successor {p r state precision next cover} (hp : c.graph.Live n p)
      (hr : c.sets[p.set]? = some r) (ht : c.task p.set n = .ok (.successors state precision))
      (hn : next ∈ program.successors state precision)
      (hc : c.graph.findCover next r.nodes.toList = .ok cover) :
      Unfolds program n c (c.sprout n p r next cover)
  | expand {p m : Node State Tracked} {r t x b} (hp : c.graph.Live n p)
      (hr : c.sets[p.set]? = some r) (ht : c.task p.set n = .ok .call)
      (hs : c.links.setOfEntry n = some t) (hx : c.IsExit t x)
      (hb : c.partitioning.block? p.state.location = some b) (hm : c.graph.Live x m) :
      Unfolds program n c
        { c.sprout n p r (c.reducer.expand p.state b m.state) none with
          links := c.links.linkExpanded c.graph.size x }
  | record {t K exits} (hs : c.links.setOfEntry n = some t) (hK : c.HasKey t K)
      (ha : c.cache.aggressive = true ∨ c.cache.lookup K = some t)
      (hx : ∀ x ∈ exits, c.IsExit t x) :
      Unfolds program n c { c with cache := c.cache.setReturnEntry K exits }

variable {c c' : Context} {n : NodeId} {program : Program}

theorem Context.call_of_task (h : c.Structured) {p : Node State Tracked} (hp : c.graph.Live n p)
    (ht : c.task p.set n = .ok .call) : p.state.target = false ∧ ¬ c.Heads n ∧
      c.partitioning.isCallNode p.state.location = true ∧ c.Inner p.set n p.state.location := by
  obtain ⟨m, hm, hstop | ⟨htarget, r, hr, ⟨-, hsucc⟩ | ⟨hinner, htodo⟩⟩⟩ := task_cases h ht
  · cases hstop
  · cases hsucc
  · cases hp.unique hm
    obtain ⟨r', hr', hmem⟩ := h.set_of_live hm
    have hne : ¬ c.Heads n := by
      rw [h.heads_iff hr' hmem]
      obtain ⟨q, f, hq, -, hne, -⟩ := hinner
      cases Option.some.inj (hr'.symm.trans hq)
      exact hne
    refine ⟨htarget, hne, ?_, hinner⟩
    split at htodo
    · assumption
    · cases htodo

theorem Context.exists_reducedFor (h : c.Structured) {p : Node State Tracked}
    (hp : c.graph.Live n p) (ht : c.task p.set n = .ok .call) : ∃ K, c.reducedFor n = .ok K := by
  obtain ⟨-, -, hcall, -⟩ := call_of_task h hp ht
  obtain ⟨b, hb⟩ := Table.contains_eq_true_iff.1 hcall
  exact ⟨_, reducedFor_eq_ok hp.1 hb⟩

theorem Context.callOf_of_startsFrom (h : c.Structured) {K : Key} {t : SetId}
    {p : Node State Tracked} (hp : c.graph.Live n p) (ht : c.task p.set n = .ok .call)
    (hK : c.reducedFor n = .ok K) (hs : c.StartsFrom t K.state) : c.CallOf n t := by
  obtain ⟨m, b, hm, hb, hstate, -, -, -⟩ := reducedFor_spec hK
  cases Option.some.inj (hm.symm.trans hp.1)
  obtain ⟨hpos, r, f, hr, hf, hf'⟩ := hs
  exact ⟨p, b, r, f, hm, (call_of_task h hp ht).2.1, hpos, hr, hf, hb, hf'.trans hstate⟩

theorem fertile_of_findCover (h : c.Structured) {p : Node State Tracked} {r : ReachedSet}
    {next : State} {cover : Option NodeId} (hp : c.graph.Live n p) (hr : c.sets[p.set]? = some r)
    (hc : c.graph.findCover next r.nodes.toList = .ok cover) : c.Fertile n p r cover where
  parent := hp
  set := hr
  cover := by
    rintro k rfl
    obtain ⟨hk, -⟩ := Graph.findCover_spec hc
    exact h.live_of_mem hr hk

theorem Context.Sound.reducedOf_of_le (h : c.Sound) (hn : c.graph.size ≤ n) :
    c.links.reducedOf n = none := by
  cases hx : c.links.reducedOf n with
  | none => rfl
  | some x =>
    obtain ⟨m, hm⟩ := (h.exit hx).expanded
    exact absurd (Graph.lt_size_of_node? hm) (Nat.not_lt.2 hn)

theorem Context.Sound.reducedOf_size (h : c.Sound) : c.links.reducedOf c.graph.size = none :=
  h.reducedOf_of_le (Nat.le_refl _)

theorem Resolves.spec (h : c.Sound) {t : SetId} (st : Resolves n c t c') :
    c'.Sound ∧ c.Extends c' := by
  cases st with
  | @stored p K t hp ht hK hs =>
    obtain ⟨hpos, hkey, -⟩ := h.stored hs
    exact ⟨h.linkEntry (callOf_of_startsFrom h.toStructured hp ht hK (hkey.startsFrom hpos)),
      extends_linkEntry⟩
  | @similar p K t cache hp ht hK hs =>
    have hstarts := startsFrom_of_lookupSimilar h.results h.similar hs
    exact ⟨(h.lookupSimilar hs).linkEntry (callOf_of_startsFrom h.toStructured hp ht hK hstarts),
      (extends_lookupSimilar hs).trans extends_linkEntry⟩
  | @fresh p K hp ht hK hs =>
    obtain ⟨m, b, hm, hb, hstate, -, -, hblock⟩ := reducedFor_spec hK
    have hcall : (c.cacheSet K).CallOf n c.sets.size := by
      obtain ⟨r, f, hr, hf, hkey⟩ := hasKey_addReachedSet (c := c) hblock
      obtain ⟨m', hm', hsame, -⟩ := (evolves_cacheSet (K := K)).node hm
      refine ⟨m', b, r, f, hm', ?_, h.topLevel, hr, hf, hsame ▸ hb, ?_⟩
      · rw [evolves_cacheSet.heads_iff hp.lt_size]
        exact (call_of_task h.toStructured hp ht).2.1
      · rw [hsame]
        exact (congrArg CacheKey.state hkey).symm.trans hstate
    exact ⟨(h.cacheSet hblock).linkEntry hcall, (extends_cacheSet hs).trans extends_linkEntry⟩

theorem Unfolds.spec (h : c.Sound) (st : Unfolds program n c c') : c'.Sound ∧ c.Extends c' := by
  cases st with
  | successor hp hr _ _ hc =>
    have hf := fertile_of_findCover h.toStructured hp hr hc
    exact ⟨h.sprout hf, extends_sprout hf⟩
  | @expand p m r t x b hp hr ht hs hx hb hm =>
    have hf : c.Fertile n p r none := ⟨hp, hr, by simp⟩
    have hexit : (c.sprout n p r (c.reducer.expand p.state b m.state) none).ExitOf
        c.graph.size x := by
      obtain ⟨q, f, b', m', hq, -, -, hxq, hne, hm', -⟩ := hx
      obtain ⟨mx, hmx, hset⟩ := h.live_of_mem hq hxq
      obtain ⟨_, _, _, _, _, _, hpos, -⟩ := h.call hs
      refine ⟨hm.lt_size, ⟨_, ((live_sprout_iff hf).2 (Or.inl ⟨rfl, rfl⟩)).1⟩,
        ⟨_, (live_sprout hf hmx).1, hset ▸ hpos⟩, ?_, ?_, ?_⟩
      · rw [heads_sprout hf]
        intro hh
        obtain ⟨k, hk⟩ := h.live_of_heads hh
        exact Nat.lt_irrefl _ hk.lt_size
      · rw [heads_sprout hf, h.heads_iff hq hxq]
        exact hne
      · intro m' a hm' ha
        rcases (live_sprout_iff hf).1 hm' with ⟨-, rfl⟩ | ⟨m₀, hm₀, -⟩
        · cases SortedSet.mem_singleton.1 ha
          exact ⟨t, hs⟩
        · exact absurd hm₀.lt_size (Nat.lt_irrefl _)
    exact ⟨(h.sprout hf).linkExpanded hexit,
      (extends_sprout hf).trans (extends_linkExpanded h.reducedOf_size)⟩
  | record hs hK ha hx => exact ⟨h.setReturnEntries _, extends_cache rfl id⟩

end Blockwise
