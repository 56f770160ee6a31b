import Blockwise.Proofs.Context.Sound

/-!
Regular contexts. The operations on a context may be called in any order and with any arguments: a
block may be looked up at a node from which no exploration calls it, and the exits of a set may be
expanded below a node that is not linked to this set. What holds even then is the shape of the
reached sets, that a linked call node shows the state of the first node behind it, and that results
stand under the keys that their first nodes tell.
-/
namespace Blockwise

namespace Context

def Marked (c : Context) : Prop := ∀ ⦃K : Key⦄, c.cache.containsPrecise K →
  ∃ s, c.cache.lookup K = some s

def Answers (c : Context) (n : NodeId) (s : SetId) : Prop :=
  ∃ m b, c.graph.node? n = some m ∧ c.partitioning.block? m.state.location = some b ∧
    c.StartsFrom s (c.reducer.reduceState m.state b)

def LastGreatest (c : Context) : Prop := ∀ ⦃s : SetId⦄ ⦃r : ReachedSet⦄, c.sets[s]? = some r →
  r.last ∈ r ∧ ∀ n ∈ r, n ≤ r.last

structure Regular (c : Context) : Prop extends Structured c where
  topLevel : 0 < c.sets.size
  last : c.LastGreatest
  call : ∀ ⦃n s⦄, c.links.setOfEntry n = some s → c.Answers n s
  exit : ∀ ⦃e x⦄, c.links.reducedOf e = some x → x < e
  stored : c.Stored
  similar : ∀ ⦃K s⦄, c.cache.imprecise.get? K = some s → c.StartsFrom s K.state

variable {c c' : Context} {s t : SetId} {r r' : ReachedSet}

theorem Marked.cacheSet (h : c.Marked) {K : Key} : (c.cacheSet K).Marked := by
  intro K' hK'
  rw [containsPrecise_cacheSet, Bool.or_eq_true, decide_eq_true_eq] at hK'
  rw [lookup_cacheSet]
  split
  · exact ⟨_, rfl⟩
  · rename_i hne
    exact h (hK'.resolve_left hne)

theorem Evolves.answers (e : c.Evolves c') (h' : c'.Structured) {n : NodeId}
    (hn : c.Answers n s) : c'.Answers n s := by
  obtain ⟨m, b, hm, hb, hs⟩ := hn
  obtain ⟨m', hm', hstate, -⟩ := e.node hm
  refine ⟨m', b, hm', by rw [e.partitioning, hstate, hb], ?_⟩
  rw [e.reducer, hstate]
  exact e.startsFrom h' hs

theorem CallOf.answers {n : NodeId} (hn : c.CallOf n s) : c.Answers n s := by
  obtain ⟨m, b, r, f, hm, -, hpos, hr, hf, hb, hstate⟩ := hn
  exact ⟨m, b, hm, hb, hpos, r, f, hr, hf, hstate⟩

namespace Regular

/-! ### The single steps -/

theorem follow (h : c.Regular) (e : c.Evolves c') (h' : c'.Structured) (hlast : c'.LastGreatest)
    (hl : c'.links = c.links) (hstored : c'.Stored)
    (similar : ∀ {K s}, c'.cache.imprecise.get? K = some s → c.cache.imprecise.get? K = some s) :
    c'.Regular where
  toStructured := h'
  topLevel := e.lt_sets_size h.topLevel
  last := hlast
  call := by
    intro n s hs
    rw [hl] at hs
    exact e.answers h' (h.call hs)
  exit := by
    intro x y hx
    rw [hl] at hx
    exact h.exit hx
  stored := hstored
  similar := fun _ _ hs => e.startsFrom h' (h.similar (similar hs))

theorem evolve (h : c.Regular) (e : c.Evolves c') (h' : c'.Structured) (hlast : c'.LastGreatest)
    (hk : c.KeepsKeys c') (hl : c'.links = c.links) (hca : c'.cache = c.cache) : c'.Regular := by
  refine h.follow e h' hlast hl (h.stored.evolve e hk hca) fun hs => ?_
  rwa [hca] at hs

theorem quiet (h : c.Regular) (statistics : Statistics) (shutdown : Shutdown) :
    Regular { c with statistics, shutdown } :=
  { h with }

theorem putSet (h : c.Regular) (hr : c.sets[s]? = some r) (hid : r'.id = r.id)
    (hf : r'.first = r.first) (hl : r'.last = r.last) (hn : r'.nodes = r.nodes)
    (hw : r'.waitlist.Nodup ∧ ∀ n ∈ r'.waitlist, n ∈ r) : (c.putSet s r').Regular := by
  refine h.evolve (evolves_putSet hr hf) (h.toStructured.putSet hr hid hf hn hw) ?_ ?_ rfl rfl
  · intro t q hq
    rw [Context.putSet, getElem?_setIfInBounds hr] at hq
    split at hq
    · cases hq
      obtain ⟨hlast, hmax⟩ := h.last hr
      have hmem : ∀ n, n ∈ r' ↔ n ∈ r := fun n => by
        rw [← ReachedSet.mem_nodes, hn, ReachedSet.mem_nodes]
      rw [hl]
      exact ⟨(hmem _).2 hlast, fun n hn => hmax n ((hmem n).1 hn)⟩
    · exact h.last hq
  · intro t q f _ hlive
    exact ⟨f, hlive, rfl, rfl⟩

theorem sprout (h : c.Regular) {parent : NodeId} {p : Node State Tracked} {state : State}
    {cover : Option NodeId} (hf : c.Fertile parent p r cover) :
    (c.sprout parent p r state cover).Regular := by
  refine h.evolve (evolves_sprout hf) (h.toStructured.sprout hf) ?_ ?_ rfl rfl
  · intro t q hq
    rw [sets_sprout hf] at hq
    split at hq
    · -- the new node is greater than all others
      have hmax : ∀ n ∈ r, n ≤ c.graph.size := by
        intro n hn
        obtain ⟨m, hm, -⟩ := h.live_of_mem hf.set hn
        exact Nat.le_of_lt hm.lt_size
      cases cover with
      | none =>
        cases hq
        refine ⟨ReachedSet.mem_add.2 (Or.inl rfl), fun n hn => ?_⟩
        rcases ReachedSet.mem_add.1 hn with rfl | hn
        · exact Nat.le_refl _
        · exact hmax n hn
      | some k =>
        cases hq
        refine ⟨ReachedSet.mem_addWithoutWaiting.2 (Or.inl rfl), fun n hn => ?_⟩
        rcases ReachedSet.mem_addWithoutWaiting.1 hn with rfl | hn
        · exact Nat.le_refl _
        · exact hmax n hn
    · exact h.last hq
  · intro t q f _ hlive
    exact ⟨_, live_sprout hf hlive, rfl, rfl⟩

theorem linkEntry (h : c.Regular) {n : NodeId} (hn : c.Answers n s) :
    Regular { c with links := c.links.linkEntry n s } :=
  { h with call := fun _ _ hm => Table.forall_insert hn (fun hm => h.call hm) hm }

theorem linkExpanded (h : c.Regular) {e x : NodeId} (hx : x < e) :
    Regular { c with links := c.links.linkExpanded e x } :=
  { h with
    exit := fun _ _ hx' =>
      Table.forall_insert (P := fun e x => x < e) hx (fun hx => h.exit hx) hx' }

theorem answerSimilar (h : c.Regular) {K : Key} (hs : c.StartsFrom s K.state) :
    Regular { c with cache := { c.cache with imprecise := c.cache.imprecise.insert K s } } := by
  refine { h with similar := fun K' s' hs' => ?_ }
  change c.StartsFrom s' K'.state
  exact Table.forall_insert (P := fun K s => c.StartsFrom s K.state) hs (fun hs => h.similar hs) hs'

theorem lookupSimilar (h : c.Regular) {K : Key} {cache : Cache State Tracked}
    (hs : c.cache.lookupSimilar K = (some s, cache)) : Regular { c with cache } := by
  have hstarts := startsFrom_of_lookupSimilar h.stored (fun hs => h.similar hs) hs
  obtain ⟨-, -, ⟨-, rfl⟩ | ⟨-, -, rfl⟩⟩ := Cache.lookupSimilar_eq_some hs
  · exact h
  · exact h.answerSimilar hstarts

theorem recordReturns (h : c.Regular) (entries : Table Key (List NodeId)) :
    Regular { c with cache := { c.cache with returnEntries := entries } } :=
  { h with }

theorem removeReturnEntry (h : c.Regular) (K : Key) :
    Regular { c with cache := c.cache.removeReturnEntry K } :=
  { h with }

theorem removeBlockEntry (h : c.Regular) (K : Key) :
    Regular { c with cache := c.cache.removeBlockEntry K } :=
  { h with }

theorem lastGreatest_addReachedSet (h : c.LastGreatest) (state : State) (precision : Tracked) :
    (c.addReachedSet state precision).LastGreatest := by
  intro t q hq
  rw [sets_addReachedSet] at hq
  split at hq
  · cases hq
    refine ⟨ReachedSet.mem_start.2 rfl, fun n hn => ?_⟩
    exact Nat.le_of_eq (ReachedSet.mem_start.1 hn)
  · exact h hq

theorem addReachedSet (h : c.Regular) (state : State) (precision : Tracked) :
    (c.addReachedSet state precision).Regular := by
  refine h.evolve evolves_addReachedSet h.toStructured.addReachedSet
    (lastGreatest_addReachedSet h.last state precision) ?_ rfl rfl
  intro t q f _ hlive
  exact ⟨f, live_addReachedSet_iff.2 (Or.inr hlive), rfl, rfl⟩

theorem cacheSet (h : c.Regular) {K : Key} (hK : K.block = K.state.location) :
    (c.cacheSet K).Regular := by
  refine { h.addReachedSet K.state K.precision with
    stored := h.stored.cacheSet h.topLevel hK
    similar := ?_ }
  intro K' s hs
  have hs : ((c.cache.imprecise.erase K).erase K).get? K' = some s := hs
  exact (h.addReachedSet K.state K.precision).similar (Table.get?_of_erase (Table.get?_of_erase hs))

theorem prune (h : c.Regular) (gone : NodeId → Bool) :
    Regular { c with links := c.links.prune gone } :=
  { h with
    call := fun _ _ hs => h.call (Links.setOfEntry_of_prune hs)
    exit := fun _ _ hx => h.exit (Links.reducedOf_of_prune hx) }

end Regular

theorem regular_start (partitioning : Partitioning) (reducer : Reducer) (state : State)
    (precision : Tracked) (options : Options) :
    (Context.start partitioning reducer state precision options).Regular where
  toStructured := (structured_of_empty rfl rfl).addReachedSet
  topLevel := Nat.zero_lt_one
  last := by
    refine Regular.lastGreatest_addReachedSet ?_ state precision
    intro s r hr
    simp at hr
  call := by
    intro n s hs
    cases hs
  exit := by
    intro e x hx
    cases hx
  stored := by
    intro K s hs
    cases hs
  similar := by
    intro K s hs
    cases hs

end Context

end Blockwise
