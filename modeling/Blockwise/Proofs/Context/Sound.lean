import Blockwise.Proofs.Context.Updates

/-!
Sound contexts. Links, cache and graph agree on everything that does not depend on the order of
exploration: a linked call node and the first node of its reached set show the same state, an
expanded node is younger than the exit it came from, and a result stands under the key that its
first node tells.
-/
namespace Blockwise

namespace Context

def CallOf (c : Context) (n : NodeId) (s : SetId) : Prop :=
  ∃ m b r f, c.graph.node? n = some m ∧ ¬ c.Heads n ∧ 0 < s ∧ c.sets[s]? = some r ∧
    c.graph.Live r.first f ∧ c.partitioning.block? m.state.location = some b ∧
    f.state = c.reducer.reduceState m.state b

def ExitOf (c : Context) (e x : NodeId) : Prop :=
  x < e ∧ (∃ m, c.graph.node? e = some m) ∧ (∃ m, c.graph.node? x = some m ∧ 0 < m.set) ∧
    ¬ c.Heads e ∧ ¬ c.Heads x ∧
    ∀ m p, c.graph.Live e m → p ∈ m.parents → ∃ s, c.links.setOfEntry p = some s

namespace ExitOf

variable {c : Context} {e x : NodeId} (h : c.ExitOf e x)

include h

theorem lt : x < e := h.1

theorem expanded : ∃ m, c.graph.node? e = some m := h.2.1

theorem exit : ∃ m, c.graph.node? x = some m ∧ 0 < m.set := h.2.2.1

theorem expanded_not_head : ¬ c.Heads e := h.2.2.2.1

theorem exit_not_head : ¬ c.Heads x := h.2.2.2.2.1

theorem call {m : Node State Tracked} {p : NodeId} (hm : c.graph.Live e m) (hp : p ∈ m.parents) :
    ∃ s, c.links.setOfEntry p = some s :=
  h.2.2.2.2.2 m p hm hp

end ExitOf

def HasKey (c : Context) (s : SetId) (K : Key) : Prop :=
  ∃ r f, c.sets[s]? = some r ∧ c.graph.Live r.first f ∧ K = ⟨f.state, f.precision, f.state.location⟩

def Stored (c : Context) : Prop := ∀ ⦃K : Key⦄ ⦃s : SetId⦄, c.cache.lookup K = some s →
  0 < s ∧ c.HasKey s K ∧ c.cache.containsPrecise K

def StartsFrom (c : Context) (s : SetId) (state : State) : Prop :=
  0 < s ∧ ∃ r f, c.sets[s]? = some r ∧ c.graph.Live r.first f ∧ f.state = state

structure Sound (c : Context) : Prop extends Structured c where
  topLevel : 0 < c.sets.size
  call : ∀ {n s}, c.links.setOfEntry n = some s → c.CallOf n s
  exit : ∀ {e x}, c.links.reducedOf e = some x → c.ExitOf e x
  stored : ∀ {K s}, c.cache.lookup K = some s → 0 < s ∧ c.HasKey s K ∧ c.cache.containsPrecise K
  similar : ∀ {K s}, c.cache.imprecise.get? K = some s → c.StartsFrom s K.state
  entry : ∀ {K n}, c.cache.blockEntry K = some n → c.Heads n

theorem Sound.results {c : Context} (h : c.Sound) : c.Stored := fun _ _ hs => h.stored hs

theorem keyOf_eq_ok {c : Context} {s : SetId} {K : Key} : c.keyOf s = .ok K ↔ c.HasKey s K := by
  unfold keyOf HasKey reachedSet
  cases hr : c.sets[s]? with
  | none => simp [bind, Except.bind]
  | some r =>
    cases hf : c.graph.liveNode r.first with
    | error e =>
      have hno : ∀ f, ¬ c.graph.Live r.first f := by
        intro f hlive
        rw [Graph.liveNode_eq_ok.2 hlive] at hf
        cases hf
      simp [bind, Except.bind, hf, hno]
    | ok f =>
      have hlive := Graph.liveNode_eq_ok.1 hf
      simp only [bind, Except.bind, hf, pure, Except.pure]
      constructor
      · rintro ⟨⟩
        exact ⟨r, f, rfl, hlive, rfl⟩
      · rintro ⟨r', f', hr', hf', rfl⟩
        cases hr'
        rw [hlive.unique hf']

theorem HasKey.unique {c : Context} {s : SetId} {K K' : Key} (h : c.HasKey s K)
    (h' : c.HasKey s K') : K' = K := by
  have := (keyOf_eq_ok.2 h').symm.trans (keyOf_eq_ok.2 h)
  exact Except.ok.inj this

variable {c c' : Context}

theorem Sound.reducedOf_first (h : c.Sound) {n : NodeId} (hn : c.Heads n) :
    c.links.reducedOf n = none := by
  cases hx : c.links.reducedOf n with
  | none => rfl
  | some x => exact absurd hn (h.exit hx).expanded_not_head

theorem Sound.entry_first (h : c.Sound) {n : NodeId} (hn : c.Heads n) :
    c.links.setOfEntry n = none := by
  cases hs : c.links.setOfEntry n with
  | none => rfl
  | some s =>
    obtain ⟨-, -, -, -, -, hno, -⟩ := h.call hs
    exact absurd hn hno

namespace Evolves

variable (e : c.Evolves c') (h' : c'.Structured)

include e h'

theorem live_first {s : SetId} {r : ReachedSet} {f : Node State Tracked} (hr : c.sets[s]? = some r)
    (hf : c.graph.Live r.first f) : ∃ r' f', c'.sets[s]? = some r' ∧ r'.first = r.first ∧
      c'.graph.Live r'.first f' ∧ f'.state = f.state := by
  obtain ⟨r', hr', hfirst⟩ := e.set hr
  obtain ⟨f', hf', -⟩ := h'.live_first hr'
  obtain ⟨f'', hf'', hstate, -⟩ := e.node hf.1
  rw [hfirst] at hf'
  cases Option.some.inj (hf''.symm.trans hf'.1)
  exact ⟨r', f', hr', hfirst, hfirst ▸ hf', hstate⟩

theorem callOf {n : NodeId} {s : SetId} (hc : c.CallOf n s) : c'.CallOf n s := by
  obtain ⟨m, b, r, f, hm, hh, hs, hr, hf, hb, hstate⟩ := hc
  obtain ⟨m', hm', hms, -⟩ := e.node hm
  obtain ⟨r', f', hr', -, hf', hfs⟩ := e.live_first h' hr hf
  refine ⟨m', b, r', f', hm', ?_, hs, hr', hf', ?_, ?_⟩
  · rwa [e.heads_iff (Graph.lt_size_of_node? hm)]
  · rw [e.partitioning, hms, hb]
  · rw [hfs, hms, e.reducer, hstate]

theorem startsFrom {s : SetId} {state : State} (hs : c.StartsFrom s state) :
    c'.StartsFrom s state := by
  obtain ⟨hpos, r, f, hr, hf, hstate⟩ := hs
  obtain ⟨r', f', hr', -, hf', hfs⟩ := e.live_first h' hr hf
  exact ⟨hpos, r', f', hr', hf', hfs.trans hstate⟩

omit h' in
theorem exitOf {e' x : NodeId} (hx : c.ExitOf e' x)
    (hl : ∀ {n s}, c.links.setOfEntry n = some s → ∃ s', c'.links.setOfEntry n = some s') :
    c'.ExitOf e' x := by
  obtain ⟨hlt, ⟨m, hm⟩, ⟨k, hk, hpos⟩, he, hxh, hcall⟩ := hx
  obtain ⟨m', hm', -, -, hd⟩ := e.node hm
  obtain ⟨k', hk', -, hset, -⟩ := e.node hk
  refine ⟨hlt, ⟨m', hm'⟩, ⟨k', hk', hset ▸ hpos⟩, ?_, ?_, ?_⟩
  · rwa [e.heads_iff (Graph.lt_size_of_node? hm)]
  · rwa [e.heads_iff (Graph.lt_size_of_node? hk)]
  · intro m'' p hlive hp
    cases Option.some.inj (hm'.symm.trans hlive.1)
    obtain ⟨hd₀, hpar⟩ := hd hlive.2
    obtain ⟨s, hs⟩ := hcall m p ⟨hm, hd₀⟩ ((hpar p).1 hp)
    exact hl hs

end Evolves

def KeepsKeys (c c' : Context) : Prop :=
  ∀ {s : SetId} {r : ReachedSet} {f}, c.sets[s]? = some r → c.graph.Live r.first f →
    ∃ f', c'.graph.Live r.first f' ∧ f'.state = f.state ∧ f'.precision = f.precision

theorem Evolves.hasKey (e : c.Evolves c') (hk : c.KeepsKeys c') {s : SetId} {K : Key}
    (h : c.HasKey s K) : c'.HasKey s K := by
  obtain ⟨r, f, hr, hf, rfl⟩ := h
  obtain ⟨r', hr', hfirst⟩ := e.set hr
  obtain ⟨f', hf', hs, hp⟩ := hk hr hf
  exact ⟨r', f', hr', hfirst ▸ hf', by rw [hs, hp]⟩

theorem Stored.evolve (h : c.Stored) (e : c.Evolves c') (hk : c.KeepsKeys c')
    (hca : c'.cache = c.cache) : c'.Stored := by
  intro K s hs
  rw [hca] at hs ⊢
  obtain ⟨hpos, hkey, hp⟩ := h hs
  exact ⟨hpos, e.hasKey hk hkey, hp⟩

theorem Evolves.lt_sets_size (e : c.Evolves c') {s : SetId} (hs : s < c.sets.size) :
    s < c'.sets.size := by
  obtain ⟨r, hr, -⟩ := e.set (Array.getElem?_eq_getElem hs)
  exact lt_size_of_sets hr

theorem Sound.follow (h : c.Sound) (e : c.Evolves c') (h' : c'.Structured) (hl : c'.links = c.links)
    (stored : ∀ {K s}, c'.cache.lookup K = some s →
      0 < s ∧ c'.HasKey s K ∧ c'.cache.containsPrecise K)
    (similar : ∀ {K s}, c'.cache.imprecise.get? K = some s → c.cache.imprecise.get? K = some s)
    (entry : ∀ {K n}, c'.cache.blockEntry K = some n → c.Heads n) : c'.Sound where
  toStructured := h'
  topLevel := e.lt_sets_size h.topLevel
  call := by
    intro n s hs
    rw [hl] at hs
    exact e.callOf h' (h.call hs)
  exit := by
    intro x y hx
    rw [hl] at hx
    refine e.exitOf (h.exit hx) fun hs => ?_
    rw [hl]
    exact ⟨_, hs⟩
  stored := stored
  similar := fun hs => e.startsFrom h' (h.similar (similar hs))
  entry := fun hn => e.heads (entry hn)

theorem Sound.evolve (h : c.Sound) (e : c.Evolves c') (h' : c'.Structured) (hk : c.KeepsKeys c')
    (hl : c'.links = c.links) (hca : c'.cache = c.cache) : c'.Sound := by
  refine h.follow e h' hl (fun hs => h.results.evolve e hk hca hs) ?_ ?_
  · intro K s hs
    rwa [hca] at hs
  · intro K n hn
    rw [hca] at hn
    exact h.entry hn

/-! ### The single steps -/

theorem Sound.putSet (h : c.Sound) {s : SetId} {r r' : ReachedSet} (hr : c.sets[s]? = some r)
    (hid : r'.id = r.id) (hf : r'.first = r.first) (hn : r'.nodes = r.nodes)
    (hw : r'.waitlist.Nodup ∧ ∀ n ∈ r'.waitlist, n ∈ r) : (c.putSet s r').Sound := by
  refine h.evolve (evolves_putSet hr hf) (h.toStructured.putSet hr hid hf hn hw) ?_ rfl rfl
  intro t q f _ hlive
  exact ⟨f, hlive, rfl, rfl⟩

theorem Sound.sprout (h : c.Sound) {parent : NodeId} {p : Node State Tracked} {r : ReachedSet}
    {state : State} {cover : Option NodeId} (hf : c.Fertile parent p r cover) :
    (c.sprout parent p r state cover).Sound := by
  refine h.evolve (evolves_sprout hf) (h.toStructured.sprout hf) ?_ rfl rfl
  intro t q f _ hlive
  exact ⟨_, live_sprout hf hlive, rfl, rfl⟩

theorem Sound.linkEntry (h : c.Sound) {n : NodeId} {s : SetId} (hn : c.CallOf n s) :
    Sound { c with links := c.links.linkEntry n s } := by
  have hmono : ∀ {m t}, c.links.setOfEntry m = some t →
      ∃ t', (c.links.linkEntry n s).setOfEntry m = some t' := by
    intro m t hm
    rw [Links.setOfEntry_linkEntry]
    split
    · exact ⟨s, rfl⟩
    · exact ⟨t, hm⟩
  refine { h with call := fun hm => Table.forall_insert hn h.call hm, exit := ?_ }
  · intro e x hx
    obtain ⟨h₁, h₂, h₃, h₄, h₅, hcall⟩ := h.exit hx
    refine ⟨h₁, h₂, h₃, h₄, h₅, fun m p hm hp => ?_⟩
    obtain ⟨t, ht⟩ := hcall m p hm hp
    exact hmono ht

theorem Sound.linkExpanded (h : c.Sound) {e x : NodeId} (hx : c.ExitOf e x) :
    Sound { c with links := c.links.linkExpanded e x } :=
  { h with exit := fun hx' => Table.forall_insert hx h.exit hx' }

theorem Sound.setReturnEntries (h : c.Sound) (entries : Table Key (List NodeId)) :
    Sound { c with cache := { c.cache with returnEntries := entries } } :=
  { h with }

theorem HasKey.startsFrom {K : Key} {s : SetId} (h : c.HasKey s K) (hpos : 0 < s) :
    c.StartsFrom s K.state := by
  obtain ⟨r, f, hr, hf, rfl⟩ := h
  exact ⟨hpos, r, f, hr, hf, rfl⟩

theorem startsFrom_of_lookupSimilar {K : Key} {s : SetId} {cache : Cache State Tracked}
    (hstored : c.Stored)
    (hsimilar : ∀ {K s}, c.cache.imprecise.get? K = some s → c.StartsFrom s K.state)
    (hs : c.cache.lookupSimilar K = (some s, cache)) : c.StartsFrom s K.state := by
  obtain ⟨-, -, ⟨hi, -⟩ | ⟨-, hold, -⟩⟩ := Cache.lookupSimilar_eq_some hs
  · exact hsimilar hi
  · obtain ⟨K', hK', -, hstate⟩ := Cache.oldestSimilar_spec hold
    obtain ⟨hpos, hkey, -⟩ := hstored hK'
    exact hstate ▸ hkey.startsFrom hpos

theorem Sound.answerSimilar (h : c.Sound) {K : Key} {s : SetId} (hs : c.StartsFrom s K.state) :
    Sound { c with cache := { c.cache with imprecise := c.cache.imprecise.insert K s } } := by
  refine { h with similar := fun {K' s'} hs' => ?_ }
  change c.StartsFrom s' K'.state
  exact Table.forall_insert (P := fun K s => c.StartsFrom s K.state) hs h.similar hs'

theorem Sound.lookupSimilar (h : c.Sound) {K : Key} {s : SetId} {cache : Cache State Tracked}
    (hs : c.cache.lookupSimilar K = (some s, cache)) : Sound { c with cache } := by
  have hstarts := startsFrom_of_lookupSimilar h.results h.similar hs
  obtain ⟨-, -, ⟨-, rfl⟩ | ⟨-, -, rfl⟩⟩ := Cache.lookupSimilar_eq_some hs
  · exact h
  · exact h.answerSimilar hstarts

def cacheSet (c : Context) (K : Key) : Context :=
  { c.addReachedSet K.state K.precision with
    cache := ((c.cache.insert K c.sets.size).markPrecise K).setBlockEntry K c.graph.size }

theorem evolves_cacheSet {K : Key} : c.Evolves (c.cacheSet K) :=
  have e : c.Evolves (c.addReachedSet K.state K.precision) := evolves_addReachedSet
  { e with }

@[simp] theorem lookup_cacheSet {K K' : Key} : (c.cacheSet K).cache.lookup K' =
    if K = K' then some c.sets.size else c.cache.lookup K' := by
  change Cache.lookup (Cache.setBlockEntry ..) K' = _
  rw [Cache.lookup_setBlockEntry, Cache.lookup_markPrecise, Cache.lookup_insert]

@[simp] theorem containsPrecise_cacheSet {K K' : Key} : (c.cacheSet K).cache.containsPrecise K' =
    (decide (K = K') || c.cache.containsPrecise K') := by
  change Cache.containsPrecise (Cache.setBlockEntry ..) K' = _
  rw [Cache.containsPrecise_setBlockEntry, Cache.containsPrecise_markPrecise,
    Cache.containsPrecise_insert]

theorem HasKey.cacheSet {K K' : Key} {s : SetId} (h : c.HasKey s K') :
    (c.cacheSet K).HasKey s K' :=
  evolves_cacheSet.hasKey (fun _ hf => ⟨_, live_addReachedSet_iff.2 (Or.inr hf), rfl, rfl⟩) h

theorem hasKey_addReachedSet {K : Key} (hK : K.block = K.state.location) :
    (c.addReachedSet K.state K.precision).HasKey c.sets.size K := by
  refine ⟨.start c.sets.size c.graph.size c.options.order, _, ?_,
    live_addReachedSet_iff.2 (Or.inl ⟨rfl, rfl⟩), ?_⟩
  · rw [sets_addReachedSet, if_pos rfl]
  · rw [← hK]

theorem Stored.cacheSet (h : c.Stored) (hpos : 0 < c.sets.size) {K : Key}
    (hK : K.block = K.state.location) : (c.cacheSet K).Stored := by
  intro K' s hs
  rw [lookup_cacheSet] at hs
  rw [containsPrecise_cacheSet, Bool.or_eq_true, decide_eq_true_eq]
  split at hs
  · rename_i hKK
    cases hs
    exact ⟨hpos, hKK ▸ hasKey_addReachedSet hK, Or.inl hKK⟩
  · obtain ⟨hs, hkey, hp⟩ := h hs
    exact ⟨hs, hkey.cacheSet, Or.inr hp⟩

theorem Sound.addReachedSet (h : c.Sound) (state : State) (precision : Tracked) :
    (c.addReachedSet state precision).Sound := by
  refine h.evolve evolves_addReachedSet h.toStructured.addReachedSet ?_ rfl rfl
  intro t q f _ hlive
  exact ⟨f, live_addReachedSet_iff.2 (Or.inr hlive), rfl, rfl⟩

theorem Sound.cacheSet (h : c.Sound) {K : Key} (hK : K.block = K.state.location) :
    (c.cacheSet K).Sound := by
  refine { h.addReachedSet K.state K.precision with stored := ?_, similar := ?_, entry := ?_ }
  · exact fun hs => h.results.cacheSet h.topLevel hK hs
  · intro K' s hs
    have hs : ((c.cache.imprecise.erase K).erase K).get? K' = some s := hs
    exact (h.addReachedSet K.state K.precision).similar
      (Table.get?_of_erase (Table.get?_of_erase hs))
  · intro K' n hn
    change Cache.blockEntry (Cache.setBlockEntry ..) K' = some n at hn
    rw [Cache.blockEntry_setBlockEntry] at hn
    split at hn
    · cases hn
      have hnew : (c.addReachedSet K.state K.precision).Heads c.graph.size :=
        heads_addReachedSet.2 (Or.inl rfl)
      exact hnew
    · exact (h.addReachedSet K.state K.precision).entry hn

theorem Sound.prune (h : c.Sound) (gone : NodeId → Bool)
    (hgone : ∀ {n m}, c.graph.Live n m → gone n = false) :
    Sound { c with links := c.links.prune gone } := by
  refine { h with call := fun hs => h.call (Links.setOfEntry_of_prune hs), exit := ?_ }
  · intro e x hx
    obtain ⟨h₁, h₂, h₃, h₄, h₅, hcall⟩ := h.exit (Links.reducedOf_of_prune hx)
    refine ⟨h₁, h₂, h₃, h₄, h₅, fun m p hm hp => ?_⟩
    obtain ⟨s, hs⟩ := hcall m p hm hp
    obtain ⟨mp, hmp⟩ := h.graph.live_of_edge (h.graph.edge_iff.2 ⟨m, hm.1, hp⟩)
    refine ⟨s, ?_⟩
    rw [Links.setOfEntry_prune, hs, Option.filter_some, if_pos (by rw [hgone hmp]; rfl)]

theorem structured_of_empty (hg : c.graph = ∅) (hs : c.sets = #[]) : c.Structured := by
  have hno : ∀ {n m}, ¬ c.graph.Live n m := by
    intro n m hm
    rw [hg] at hm
    cases hm.1
  have hset : ∀ {s : SetId} {r : ReachedSet}, c.sets[s]? ≠ some r := by
    simp [hs]
  exact ⟨hg ▸ Graph.wellFormed_empty, fun h => absurd h hset, fun h => absurd h hset,
    fun h => absurd h hset, fun h => absurd h hno, fun h => absurd h hno, fun h => absurd h hno,
    fun h => absurd h hno, fun h => absurd h hset⟩

theorem sound_start (partitioning : Partitioning) (reducer : Reducer) (state : State)
    (precision : Tracked) (options : Options) :
    (Context.start partitioning reducer state precision options).Sound where
  toStructured := (structured_of_empty rfl rfl).addReachedSet
  topLevel := Nat.zero_lt_one
  call := by
    intro n s hs
    cases hs
  exit := by
    intro e x hx
    cases hx
  stored := by
    intro K s hs
    cases hs
  similar := by
    intro K s hs
    cases hs
  entry := by
    intro K n hn
    cases hn

theorem heads_of_live_start {partitioning : Partitioning} {reducer : Reducer} {state : State}
    {precision : Tracked} {options : Options} {m : Node State Tracked}
    (hm : (Context.start partitioning reducer state precision options).graph.Live n m) :
    (Context.start partitioning reducer state precision options).Heads n :=
  ⟨SetId.topLevel, _, rfl, (Nat.lt_one_iff.1 hm.lt_size).symm⟩

end Context

end Blockwise
