import Blockwise.Context.Calls
import Blockwise.Proofs.Context.Structured

/-!
The changes that actions make to graph and reached sets together, as functions of the context.
-/
namespace Blockwise

namespace Context

variable {c : Context} {s t : SetId} {r r' : ReachedSet}

def putSet (c : Context) (s : SetId) (r : ReachedSet) : Context :=
  { c with sets := c.sets.setIfInBounds s r }

def putRegion (c : Context) (s : SetId) (region : Region State Tracked) : Context :=
  { c with graph := region.graph, sets := c.sets.setIfInBounds s region.reached }

def sprout (c : Context) (parent : NodeId) (p : Node State Tracked) (r : ReachedSet) (state : State)
    (cover : Option NodeId) : Context :=
  { c with
    graph := c.graph.sprout parent state p.precision p.set cover
    sets := c.sets.setIfInBounds p.set
      (if cover.isNone then r.add c.graph.size else r.addWithoutWaiting c.graph.size) }

theorem getElem?_setIfInBounds (hr : c.sets[s]? = some r) :
    (c.sets.setIfInBounds s r')[t]? = if s = t then some r' else c.sets[t]? := by
  have hlt : s < c.sets.size := (Array.getElem?_eq_some_iff.1 hr).1
  rw [Array.getElem?_setIfInBounds]
  simp [hlt]

theorem lt_size_of_sets (hr : c.sets[s]? = some r) : s < c.sets.size :=
  (Array.getElem?_eq_some_iff.1 hr).1

theorem reachedSet_eq_ok : c.reachedSet s = .ok r ↔ c.sets[s]? = some r := by
  unfold reachedSet
  split <;> simp_all

theorem ownerReachedSet_eq_ok {n : NodeId} :
    c.ownerReachedSet n = .ok s ↔ c.links.setOfEntry n = some s := by
  unfold ownerReachedSet
  split <;> simp_all

theorem checkLive_eq_ok {l : List NodeId} :
    c.checkLive l = .ok () ↔ ∀ n ∈ l, ∃ m, c.graph.Live n m := by
  rw [checkLive, except_forM_eq_ok]
  refine forall₂_congr fun n _ => ?_
  rw [except_bind_eq_ok]
  exact ⟨fun ⟨m, hm, _⟩ => ⟨m, Graph.liveNode_eq_ok.1 hm⟩,
    fun ⟨m, hm⟩ => ⟨m, Graph.liveNode_eq_ok.2 hm, rfl⟩⟩

theorem setIfInBounds_self (hr : c.sets[s]? = some r) : c.sets.setIfInBounds s r = c.sets := by
  refine Array.ext_getElem? fun t => ?_
  rw [getElem?_setIfInBounds hr]
  split
  · rename_i hst
    rw [← hst, hr]
  · rfl

theorem putRegion_self (hr : c.sets[s]? = some r) : c.putRegion s ⟨c.graph, r⟩ = c := by
  rw [putRegion, setIfInBounds_self hr]

/-! ### Another waitlist -/

theorem heads_putSet (hr : c.sets[s]? = some r) (hf : r'.first = r.first) {n : NodeId} :
    (c.putSet s r').Heads n ↔ c.Heads n := by
  simp only [Heads, putSet, getElem?_setIfInBounds hr]
  constructor
  · rintro ⟨t, q, hq, rfl⟩
    split at hq
    · cases hq
      exact ⟨s, r, hr, hf.symm⟩
    · exact ⟨t, q, hq, rfl⟩
  · rintro ⟨t, q, hq, rfl⟩
    by_cases h : s = t
    · subst h
      cases Option.some.inj (hr.symm.trans hq)
      exact ⟨s, r', by simp, hf⟩
    · exact ⟨t, q, by simpa [h] using hq, rfl⟩

theorem Structured.putSet (h : c.Structured) (hr : c.sets[s]? = some r) (hid : r'.id = r.id)
    (hf : r'.first = r.first) (hn : r'.nodes = r.nodes)
    (hw : r'.waitlist.Nodup ∧ ∀ n ∈ r'.waitlist, n ∈ r) : (c.putSet s r').Structured := by
  have hmem : ∀ n, n ∈ r' ↔ n ∈ r := by
    intro n
    change n ∈ r'.nodes ↔ n ∈ r.nodes
    rw [hn]
  have hsets : ∀ {t q}, (c.putSet s r').sets[t]? = some q →
      (t = s ∧ q = r') ∨ c.sets[t]? = some q := by
    intro t q hq
    rw [Context.putSet, getElem?_setIfInBounds hr] at hq
    split at hq
    · rename_i hst
      cases hq
      exact Or.inl ⟨hst.symm, rfl⟩
    · exact Or.inr hq
  refine ⟨h.graph, ?_, ?_, ?_, ?_, ?_, ?_, h.cover, ?_⟩
  · intro t q hq
    rcases hsets hq with ⟨rfl, rfl⟩ | hq
    · exact hid.trans (h.setId hr)
    · exact h.setId hq
  · intro t q n hq
    rcases hsets hq with ⟨rfl, rfl⟩ | hq
    · exact (hmem n).trans (h.mem_iff hr)
    · exact h.mem_iff hq
  · intro t q hq
    rcases hsets hq with ⟨rfl, rfl⟩ | hq
    · exact (hmem _).2 (hf ▸ h.first_mem hr)
    · exact h.first_mem hq
  · intro n m hm
    simpa [Context.putSet] using h.set_lt hm
  · intro n m hm hh
    exact h.head hm ((heads_putSet hr hf).1 hh)
  · intro n m hm hh
    exact h.parent hm fun hh' => hh ((heads_putSet hr hf).2 hh')
  · intro t q hq
    rcases hsets hq with ⟨rfl, rfl⟩ | hq
    · exact ⟨hw.1, fun n hn => (hmem n).2 (hw.2 n hn)⟩
    · exact h.waitlist hq

theorem evolves_putSet (hr : c.sets[s]? = some r) (hf : r'.first = r.first) :
    c.Evolves (c.putSet s r') where
  partitioning := rfl
  reducer := rfl
  node := (Evolves.refl c).node
  set := by
    intro t q hq
    rw [putSet, getElem?_setIfInBounds hr]
    by_cases hst : s = t
    · subst hst
      cases Option.some.inj (hr.symm.trans hq)
      exact ⟨r', by simp, hf⟩
    · exact ⟨q, by simpa [hst] using hq, rfl⟩
  head := fun hh => Or.inl ((heads_putSet hr hf).1 hh)

/-! ### A node below another one -/

section Sprout

variable {parent : NodeId} {p : Node State Tracked} {state : State} {cover : Option NodeId}

structure Fertile (c : Context) (parent : NodeId) (p : Node State Tracked) (r : ReachedSet)
    (cover : Option NodeId) : Prop where
  parent : c.graph.Live parent p
  set : c.sets[p.set]? = some r
  cover : ∀ k, cover = some k → ∃ m, c.graph.Live k m ∧ m.set = p.set

variable (hf : c.Fertile parent p r cover)

include hf

theorem Fertile.parent_lt : parent < c.graph.size := hf.parent.lt_size

theorem Fertile.cover_lt (k : NodeId) (hk : cover = some k) : k < c.graph.size := by
  obtain ⟨m, hm, -⟩ := hf.cover k hk
  exact hm.lt_size

theorem node?_sprout (n : NodeId) : (c.sprout parent p r state cover).graph.node? n =
    if n = c.graph.size then some (c.graph.sprouted parent state p.precision p.set cover)
    else (c.graph.node? n).map (c.graph.grown parent cover n) :=
  Graph.node?_sprout hf.parent_lt hf.cover_lt

theorem live_sprout_iff {n : NodeId} {m : Node State Tracked} :
    (c.sprout parent p r state cover).graph.Live n m ↔
      (n = c.graph.size ∧ m = c.graph.sprouted parent state p.precision p.set cover) ∨
      ∃ m', c.graph.Live n m' ∧ m = c.graph.grown parent cover n m' :=
  Graph.live_sprout_iff hf.parent_lt hf.cover_lt

theorem sets_sprout : (c.sprout parent p r state cover).sets[t]? =
    if p.set = t then
      some (if cover.isNone then r.add c.graph.size else r.addWithoutWaiting c.graph.size)
    else c.sets[t]? :=
  getElem?_setIfInBounds hf.set

theorem mem_of_sets_sprout {q : ReachedSet}
    (hq : (c.sprout parent p r state cover).sets[t]? = some q) :
    ∃ q₀, c.sets[t]? = some q₀ ∧ q.id = q₀.id ∧ q.first = q₀.first ∧
      (∀ n, n ∈ q ↔ n ∈ q₀ ∨ (t = p.set ∧ n = c.graph.size)) ∧
      (q.waitlist = q₀.waitlist ∨
        (t = p.set ∧ cover = none ∧ q.waitlist = q₀.waitlist ++ [c.graph.size])) := by
  rw [sets_sprout hf] at hq
  split at hq
  · rename_i hst
    subst hst
    refine ⟨r, hf.set, ?_⟩
    cases cover with
    | none =>
      cases hq
      refine ⟨rfl, rfl, fun n => ?_, Or.inr ⟨rfl, rfl, rfl⟩⟩
      simp [or_comm]
    | some k =>
      cases hq
      refine ⟨rfl, rfl, fun n => ?_, Or.inl rfl⟩
      simp [or_comm]
  · rename_i hst
    have hts : t ≠ p.set := fun h => hst h.symm
    exact ⟨q, hq, rfl, rfl, by simp [hts], Or.inl rfl⟩

theorem sets_sprout_of (state : State) {q₀ : ReachedSet} (hq : c.sets[t]? = some q₀) :
    ∃ q, (c.sprout parent p r state cover).sets[t]? = some q ∧ q.first = q₀.first := by
  rw [sets_sprout hf]
  by_cases hst : p.set = t
  · subst hst
    cases Option.some.inj (hf.set.symm.trans hq)
    rw [if_pos rfl]
    cases cover with
    | none => exact ⟨_, rfl, rfl⟩
    | some k => exact ⟨_, rfl, rfl⟩
  · exact ⟨q₀, by rw [if_neg hst, hq], rfl⟩

theorem heads_sprout {n : NodeId} :
    (c.sprout parent p r state cover).Heads n ↔ c.Heads n := by
  constructor
  · rintro ⟨t, q, hq, rfl⟩
    obtain ⟨q₀, hq₀, -, hfirst, -⟩ := mem_of_sets_sprout hf hq
    exact ⟨t, q₀, hq₀, hfirst.symm⟩
  · rintro ⟨t, q₀, hq₀, rfl⟩
    obtain ⟨q, hq, hfirst⟩ := sets_sprout_of hf state hq₀
    exact ⟨t, q, hq, hfirst⟩

theorem evolves_sprout : c.Evolves (c.sprout parent p r state cover) where
  partitioning := rfl
  reducer := rfl
  node := by
    intro n m hm
    have hne : n ≠ c.graph.size := Nat.ne_of_lt (Graph.lt_size_of_node? hm)
    refine ⟨c.graph.grown parent cover n m, ?_, rfl, rfl, fun hd => ⟨hd, fun _ => Iff.rfl⟩⟩
    rw [node?_sprout hf, if_neg hne, hm]
    rfl
  set := sets_sprout_of hf _
  head := fun hh => Or.inl ((heads_sprout hf).1 hh)

theorem live_sprout {n : NodeId} {m : Node State Tracked} (hm : c.graph.Live n m) :
    (c.sprout parent p r state cover).graph.Live n (c.graph.grown parent cover n m) :=
  (live_sprout_iff hf).2 (Or.inr ⟨m, hm, rfl⟩)

variable (h : c.Structured)

include h

namespace Structured

theorem mem_sprout {q : ReachedSet} {n : NodeId}
    (hq : (c.sprout parent p r state cover).sets[t]? = some q) :
    n ∈ q ↔ ∃ m, (c.sprout parent p r state cover).graph.Live n m ∧ m.set = t := by
  obtain ⟨q₀, hq₀, -, -, hmem, -⟩ := mem_of_sets_sprout hf hq
  rw [hmem, h.mem_iff hq₀]
  constructor
  · rintro (⟨m, hm, rfl⟩ | ⟨rfl, rfl⟩)
    · exact ⟨_, live_sprout hf hm, rfl⟩
    · exact ⟨_, (live_sprout_iff hf).2 (Or.inl ⟨rfl, rfl⟩), rfl⟩
  · rintro ⟨m, hm, rfl⟩
    rcases (live_sprout_iff hf).1 hm with ⟨rfl, rfl⟩ | ⟨m', hm', rfl⟩
    · exact Or.inr ⟨rfl, rfl⟩
    · exact Or.inl ⟨m', hm', rfl⟩

theorem set_lt_sprout {n : NodeId} {m : Node State Tracked}
    (hm : (c.sprout parent p r state cover).graph.Live n m) :
    m.set < (c.sprout parent p r state cover).sets.size := by
  have hsize : (c.sprout parent p r state cover).sets.size = c.sets.size := Array.size_setIfInBounds
  rw [hsize]
  rcases (live_sprout_iff hf).1 hm with ⟨rfl, rfl⟩ | ⟨m', hm', rfl⟩
  · exact (h.set_lt hf.parent :)
  · exact (h.set_lt hm' :)

theorem head_sprout {n : NodeId} {m : Node State Tracked}
    (hm : (c.sprout parent p r state cover).graph.Live n m) (hn : c.Heads n) :
    m.parents = ∅ ∧ m.coveredBy = none := by
  rcases (live_sprout_iff hf).1 hm with ⟨rfl, rfl⟩ | ⟨m', hm', rfl⟩
  · obtain ⟨k, hk⟩ := h.live_of_heads hn
    exact absurd hk.lt_size (Nat.lt_irrefl _)
  · exact (h.head hm' hn :)

theorem parent_sprout {n : NodeId} {m : Node State Tracked}
    (hm : (c.sprout parent p r state cover).graph.Live n m) (hn : ¬ c.Heads n) :
    ∃ a ma, m.parents = .singleton a ∧ a < n ∧
      (c.sprout parent p r state cover).graph.Live a ma ∧ ma.set = m.set := by
  rcases (live_sprout_iff hf).1 hm with ⟨rfl, rfl⟩ | ⟨m', hm', rfl⟩
  · exact ⟨parent, _, rfl, hf.parent_lt, live_sprout hf hf.parent, rfl⟩
  · obtain ⟨a, ma, hpar, hlt, hma, hset⟩ := h.parent hm' hn
    exact ⟨a, _, hpar, hlt, live_sprout hf hma, hset⟩

theorem cover_sprout {n k : NodeId} {m : Node State Tracked}
    (hm : (c.sprout parent p r state cover).graph.Live n m) (hk : m.coveredBy = some k) :
    ∃ mk, (c.sprout parent p r state cover).graph.Live k mk ∧ mk.set = m.set := by
  rcases (live_sprout_iff hf).1 hm with ⟨rfl, rfl⟩ | ⟨m', hm', rfl⟩
  · obtain ⟨mk, hmk, hset⟩ := hf.cover k hk
    exact ⟨_, live_sprout hf hmk, hset⟩
  · obtain ⟨mk, hmk, hset⟩ := h.cover hm' hk
    exact ⟨_, live_sprout hf hmk, hset⟩

theorem waitlist_sprout {q : ReachedSet}
    (hq : (c.sprout parent p r state cover).sets[t]? = some q) :
    q.waitlist.Nodup ∧ ∀ n ∈ q.waitlist, n ∈ q := by
  obtain ⟨q₀, hq₀, -, -, hmem, hw⟩ := mem_of_sets_sprout hf hq
  obtain ⟨hnd, hsub⟩ := h.waitlist hq₀
  have hold : ∀ n ∈ q₀.waitlist, n ∈ q := fun n hn => (hmem n).2 (Or.inl (hsub n hn))
  rcases hw with hw | ⟨ht, -, hw⟩
  · rw [hw]
    exact ⟨hnd, hold⟩
  · have hfresh : c.graph.size ∉ q₀.waitlist := by
      intro hn
      obtain ⟨m, hm, -⟩ := h.live_of_mem hq₀ (hsub _ hn)
      exact Nat.lt_irrefl _ hm.lt_size
    have hnew : c.graph.size ∈ q := (hmem _).2 (Or.inr ⟨ht, rfl⟩)
    rw [hw]
    refine ⟨List.concat_eq_append ▸ hnd.concat hfresh, fun n hn => ?_⟩
    rcases List.mem_append.1 hn with hn | hn
    · exact hold n hn
    · exact List.mem_singleton.1 hn ▸ hnew

theorem sprout : (c.sprout parent p r state cover).Structured where
  graph := h.graph.sprout hf.parent fun k hk => by
    obtain ⟨m, hm, -⟩ := hf.cover k hk
    exact ⟨m, hm⟩
  setId := by
    intro t q hq
    obtain ⟨q₀, hq₀, hid, -⟩ := mem_of_sets_sprout hf hq
    exact hid.trans (h.setId hq₀)
  mem_iff := h.mem_sprout hf
  first_mem := by
    intro t q hq
    obtain ⟨q₀, hq₀, -, hfirst, hmem, -⟩ := mem_of_sets_sprout hf hq
    rw [hfirst, hmem]
    exact Or.inl (h.first_mem hq₀)
  set_lt := h.set_lt_sprout hf
  head := fun hm hn => h.head_sprout hf hm ((heads_sprout hf).1 hn)
  parent := fun hm hn => h.parent_sprout hf hm fun hn' => hn ((heads_sprout hf).2 hn')
  cover := h.cover_sprout hf
  waitlist := h.waitlist_sprout hf

end Structured

end Sprout

/-! ### Another reached set -/

section AddReachedSet

variable {state : State} {precision : Tracked}

theorem sets_addReachedSet : (c.addReachedSet state precision).sets[t]? =
    if t = c.sets.size then some (.start c.sets.size c.graph.size c.options.order)
    else c.sets[t]? := by
  simp only [addReachedSet, Array.getElem?_push]

theorem live_addReachedSet_iff {n : NodeId} {m : Node State Tracked} :
    (c.addReachedSet state precision).graph.Live n m ↔
      (n = c.graph.size ∧ m = { id := n, state, precision, set := c.sets.size }) ∨
      c.graph.Live n m := by
  unfold Graph.Live
  change (c.graph.addNode state precision c.sets.size).node? n = some m ∧ _ ↔ _
  rw [Graph.node?_addNode_eq_some_iff]
  constructor
  · rintro ⟨⟨rfl, rfl⟩ | hm, hd⟩
    · exact Or.inl ⟨rfl, rfl⟩
    · exact Or.inr ⟨hm, hd⟩
  · rintro (⟨rfl, rfl⟩ | ⟨hm, hd⟩)
    · exact ⟨Or.inl ⟨rfl, rfl⟩, rfl⟩
    · exact ⟨Or.inr hm, hd⟩

theorem heads_addReachedSet {n : NodeId} :
    (c.addReachedSet state precision).Heads n ↔ n = c.graph.size ∨ c.Heads n := by
  simp only [Heads, sets_addReachedSet]
  constructor
  · rintro ⟨t, q, hq, rfl⟩
    split at hq
    · cases hq
      exact Or.inl rfl
    · exact Or.inr ⟨t, q, hq, rfl⟩
  · rintro (rfl | ⟨t, q, hq, rfl⟩)
    · exact ⟨c.sets.size, _, if_pos rfl, rfl⟩
    · exact ⟨t, q, by rw [if_neg (Nat.ne_of_lt (lt_size_of_sets hq)), hq], rfl⟩

theorem evolves_addReachedSet : c.Evolves (c.addReachedSet state precision) where
  partitioning := rfl
  reducer := rfl
  node := by
    intro n m hm
    refine ⟨m, ?_, rfl, rfl, fun hd => ⟨hd, fun _ => Iff.rfl⟩⟩
    exact Graph.node?_addNode_eq_some_iff.2 (Or.inr hm)
  set := by
    intro t q hq
    exact ⟨q, by rw [sets_addReachedSet, if_neg (Nat.ne_of_lt (lt_size_of_sets hq)), hq], rfl⟩
  head := by
    intro n hn
    rcases heads_addReachedSet.1 hn with rfl | hn
    · exact Or.inr (Nat.le_refl _)
    · exact Or.inl hn

theorem sets_of_addReachedSet {q : ReachedSet}
    (hq : (c.addReachedSet state precision).sets[t]? = some q) :
    t = c.sets.size ∧ q = .start c.sets.size c.graph.size c.options.order ∨
      t ≠ c.sets.size ∧ c.sets[t]? = some q := by
  rw [sets_addReachedSet] at hq
  split at hq
  · exact Or.inl ⟨‹_›, (Option.some.inj hq).symm⟩
  · exact Or.inr ⟨‹_›, hq⟩

variable (h : c.Structured)

include h

namespace Structured

theorem mem_addReachedSet {q : ReachedSet} {n : NodeId}
    (hq : (c.addReachedSet state precision).sets[t]? = some q) :
    n ∈ q ↔ ∃ m, (c.addReachedSet state precision).graph.Live n m ∧ m.set = t := by
  simp only [live_addReachedSet_iff]
  rcases sets_of_addReachedSet hq with ⟨rfl, rfl⟩ | ⟨ht, hq⟩
  · rw [ReachedSet.mem_start]
    constructor
    · rintro rfl
      exact ⟨_, Or.inl ⟨rfl, rfl⟩, rfl⟩
    · rintro ⟨m, ⟨rfl, -⟩ | hm, hset⟩
      · rfl
      · exact absurd hset (Nat.ne_of_lt (h.set_lt hm))
  · rw [h.mem_iff hq]
    constructor
    · rintro ⟨m, hm, hset⟩
      exact ⟨m, Or.inr hm, hset⟩
    · rintro ⟨m, ⟨-, rfl⟩ | hm, hset⟩
      · exact absurd hset.symm ht
      · exact ⟨m, hm, hset⟩

theorem set_lt_addReachedSet {n : NodeId} {m : Node State Tracked}
    (hm : (c.addReachedSet state precision).graph.Live n m) :
    m.set < (c.addReachedSet state precision).sets.size := by
  have hsize : (c.addReachedSet state precision).sets.size = c.sets.size + 1 := Array.size_push ..
  rw [hsize]
  rcases live_addReachedSet_iff.1 hm with ⟨rfl, rfl⟩ | hm
  · exact Nat.lt_succ_self _
  · exact Nat.lt_succ_of_lt (h.set_lt hm)

theorem head_addReachedSet {n : NodeId} {m : Node State Tracked}
    (hm : (c.addReachedSet state precision).graph.Live n m)
    (hn : (c.addReachedSet state precision).Heads n) : m.parents = ∅ ∧ m.coveredBy = none := by
  rcases live_addReachedSet_iff.1 hm with ⟨rfl, rfl⟩ | hm
  · exact ⟨rfl, rfl⟩
  · rcases heads_addReachedSet.1 hn with rfl | hn
    · exact absurd hm.lt_size (Nat.lt_irrefl _)
    · exact h.head hm hn

theorem parent_addReachedSet {n : NodeId} {m : Node State Tracked}
    (hm : (c.addReachedSet state precision).graph.Live n m)
    (hn : ¬ (c.addReachedSet state precision).Heads n) :
    ∃ a ma, m.parents = .singleton a ∧ a < n ∧
      (c.addReachedSet state precision).graph.Live a ma ∧ ma.set = m.set := by
  rw [heads_addReachedSet, not_or] at hn
  rcases live_addReachedSet_iff.1 hm with ⟨rfl, rfl⟩ | hm
  · exact absurd rfl hn.1
  · obtain ⟨a, ma, hpar, hlt, hma, hset⟩ := h.parent hm hn.2
    exact ⟨a, ma, hpar, hlt, live_addReachedSet_iff.2 (Or.inr hma), hset⟩

theorem cover_addReachedSet {n k : NodeId} {m : Node State Tracked}
    (hm : (c.addReachedSet state precision).graph.Live n m) (hk : m.coveredBy = some k) :
    ∃ mk, (c.addReachedSet state precision).graph.Live k mk ∧ mk.set = m.set := by
  rcases live_addReachedSet_iff.1 hm with ⟨rfl, rfl⟩ | hm
  · cases hk
  · obtain ⟨mk, hmk, hset⟩ := h.cover hm hk
    exact ⟨mk, live_addReachedSet_iff.2 (Or.inr hmk), hset⟩

theorem waitlist_addReachedSet {q : ReachedSet}
    (hq : (c.addReachedSet state precision).sets[t]? = some q) :
    q.waitlist.Nodup ∧ ∀ n ∈ q.waitlist, n ∈ q := by
  rcases sets_of_addReachedSet hq with ⟨-, rfl⟩ | ⟨-, hq⟩
  · exact ⟨List.nodup_singleton _, fun n hn => ReachedSet.mem_start.2 (List.mem_singleton.1 hn)⟩
  · exact h.waitlist hq

theorem addReachedSet : (c.addReachedSet state precision).Structured where
  graph := h.graph.addNode
  setId := by
    intro t q hq
    rcases sets_of_addReachedSet hq with ⟨rfl, rfl⟩ | ⟨-, hq⟩
    · rfl
    · exact h.setId hq
  mem_iff := h.mem_addReachedSet
  first_mem := by
    intro t q hq
    rcases sets_of_addReachedSet hq with ⟨-, rfl⟩ | ⟨-, hq⟩
    · exact ReachedSet.mem_start.2 rfl
    · exact h.first_mem hq
  set_lt := h.set_lt_addReachedSet
  head := h.head_addReachedSet
  parent := h.parent_addReachedSet
  cover := h.cover_addReachedSet
  waitlist := h.waitlist_addReachedSet

end Structured

end AddReachedSet

/-! ### A removal -/

section Cut

variable {adjustment : Adjustment Tracked} {root : NodeId} {gone : IdSet}

def cut (c : Context) (s : SetId) (r : ReachedSet) (adjustment : Adjustment Tracked)
    (gone : IdSet) : Context :=
  let region := Region.applyRemoval adjustment ⟨gone, Region.frontier c.graph gone⟩ ⟨c.graph, r⟩
  { c with graph := region.graph, sets := c.sets.setIfInBounds s region.reached }

/-- The nodes in `gone` are members of `r`, and all that depends on `root`, which is not the first
of them. -/
structure Cuttable (c : Context) (s : SetId) (r : ReachedSet) (root : NodeId) (gone : IdSet) :
    Prop where
  set : c.sets[s]? = some r
  ne_first : root ≠ r.first
  gone : Region.Gone ⟨c.graph, r⟩ root gone

def priceAfter (c : Context) (adjustment : Adjustment Tracked) (gone : IdSet) :
    NodeId → Tracked → Tracked :=
  Region.reprice adjustment (Region.frontier c.graph gone)

theorem node?_cut (n : NodeId) : (c.cut s r adjustment gone).graph.node? n =
    (c.graph.node? n).map (Graph.cutOut (· ∈ gone) (c.priceAfter adjustment gone) n) :=
  Region.node?_applyRemoval n

theorem live_cut_iff {n : NodeId} {m : Node State Tracked} :
    (c.cut s r adjustment gone).graph.Live n m ↔ ∃ m₀, c.graph.Live n m₀ ∧ n ∉ gone ∧
      m = Graph.cutOut (· ∈ gone) (c.priceAfter adjustment gone) n m₀ := by
  rw [Graph.live_of_cutOut node?_cut]
  simp

theorem sets_cut (adjustment : Adjustment Tracked) (gone : IdSet) (hr : c.sets[s]? = some r) :
    ∃ q, q.id = r.id ∧ q.first = r.first ∧
    (∀ n, n ∈ q ↔ n ∈ r ∧ n ∉ gone) ∧
    (r.waitlist.Nodup → (∀ n ∈ r.waitlist, n ∈ r) → q.waitlist.Nodup ∧ ∀ n ∈ q.waitlist, n ∈ q) ∧
    ∀ t, (c.cut s r adjustment gone).sets[t]? = if s = t then some q else c.sets[t]? := by
  obtain ⟨more, hq, hmore, -, hnd⟩ := Region.applyRemoval_reached adjustment
    ⟨gone, Region.frontier c.graph gone⟩ ⟨c.graph, r⟩
  refine ⟨_, ?_, ?_, ?_, ?_, fun t => getElem?_setIfInBounds hr⟩
  · rw [hq]
    rfl
  · rw [hq]
    rfl
  · intro n
    rw [hq]
    exact ReachedSet.mem_removeAll
  · intro hw hsub
    rw [hq]
    refine ⟨hnd hw, ?_⟩
    intro n hn
    rcases List.mem_append.1 hn with hn | hn
    · obtain ⟨hn, hgone⟩ := List.mem_filter.1 hn
      exact ReachedSet.mem_removeAll.2 ⟨hsub n hn, by simpa using hgone⟩
    · exact ((hmore n).1 hn).2.1

theorem mem_waitlist_cut {n : NodeId} {q : ReachedSet} (hr : c.sets[s]? = some r)
    (hq : (c.cut s r adjustment gone).sets[s]? = some q) (hn : n ∉ gone) :
    n ∈ q.waitlist ↔ n ∈ r.waitlist ∨ n ∈ Region.frontier c.graph gone ∧ n ∈ r := by
  obtain ⟨more, hreached, hmore, -⟩ := Region.applyRemoval_reached adjustment
    ⟨gone, Region.frontier c.graph gone⟩ ⟨c.graph, r⟩
  have hset := (getElem?_setIfInBounds hr).symm.trans hq
  rw [if_pos rfl, Option.some.injEq, hreached] at hset
  have hkept : n ∈ (r.removeAll gone).waitlist ↔ n ∈ r.waitlist := by
    simp [ReachedSet.removeAll, hn]
  rw [← hset, List.mem_append, hkept, hmore n, ReachedSet.mem_removeAll, hkept]
  by_cases hw : n ∈ r.waitlist <;> simp [hw, hn]

variable (hc : c.Cuttable s r root gone) (h : c.Structured)

include hc

theorem Cuttable.closed {a b : NodeId} (ha : a ∈ gone) (hab : c.graph.Supports a b) : b ∈ gone :=
  (hc.gone.mem b).2 (((hc.gone.mem a).1 ha).tail hab)

theorem sets_of_cut {q : ReachedSet} (hq : (c.cut s r adjustment gone).sets[t]? = some q) :
    ∃ q₀, c.sets[t]? = some q₀ ∧ q.id = q₀.id ∧ q.first = q₀.first ∧
      (∀ n, n ∈ q ↔ n ∈ q₀ ∧ (t = s → n ∉ gone)) ∧
      (q₀.waitlist.Nodup ∧ (∀ n ∈ q₀.waitlist, n ∈ q₀) →
        q.waitlist.Nodup ∧ ∀ n ∈ q.waitlist, n ∈ q) := by
  obtain ⟨q', hid, hfirst, hmem, hw, hsets⟩ :=
    sets_cut adjustment gone hc.set
  rw [hsets] at hq
  split at hq
  · rename_i hst
    subst hst
    cases hq
    exact ⟨r, hc.set, hid, hfirst, by simpa using hmem, fun h => hw h.1 h.2⟩
  · rename_i hst
    have hts : t ≠ s := fun h => hst h.symm
    exact ⟨q, hq, rfl, rfl, by simp [hts], id⟩

theorem heads_cut {n : NodeId} : (c.cut s r adjustment gone).Heads n ↔ c.Heads n := by
  obtain ⟨q', -, hfirst, -, -, hsets⟩ :=
    sets_cut adjustment gone hc.set
  constructor
  · rintro ⟨t, q, hq, rfl⟩
    obtain ⟨q₀, hq₀, -, hf, -⟩ := sets_of_cut hc hq
    exact ⟨t, q₀, hq₀, hf.symm⟩
  · rintro ⟨t, q₀, hq₀, rfl⟩
    by_cases hst : s = t
    · subst hst
      cases Option.some.inj (hc.set.symm.trans hq₀)
      exact ⟨s, q', by rw [hsets, if_pos rfl], hfirst⟩
    · exact ⟨t, q₀, by rw [hsets, if_neg hst, hq₀], rfl⟩

include h

theorem Cuttable.live {n : NodeId} (hn : n ∈ gone) : ∃ m, c.graph.Live n m ∧ m.set = s :=
  h.live_of_mem hc.set (hc.gone.inside n hn)

theorem Cuttable.heads_not_gone {n : NodeId} (hn : c.Heads n) : n ∉ gone := by
  intro hgone
  obtain ⟨m, hm, rfl⟩ := hc.live h hgone
  obtain ⟨r', hr', rfl⟩ := h.first_of_heads hn hm
  cases Option.some.inj (hr'.symm.trans hc.set)
  refine Region.Rooted.first_not_mem ⟨h.graph, m, hm, h.head hm hn⟩ hc.gone hc.ne_first hgone

theorem Cuttable.parent_not_gone {n a : NodeId} {m : Node State Tracked} (hm : c.graph.Live n m)
    (hn : n ∉ gone) (ha : a ∈ m.parents) : a ∉ gone := by
  intro hgone
  exact hn (hc.closed hgone (Or.inl (h.graph.edge_iff.2 ⟨m, hm.1, ha⟩)))

theorem evolves_cut : c.Evolves (c.cut s r adjustment gone) where
  partitioning := rfl
  reducer := rfl
  node := by
    intro n m hm
    refine ⟨_, by rw [node?_cut, hm]; rfl, Graph.state_cutOut, Graph.set_cutOut, fun hd => ?_⟩
    rw [Graph.destroyed_cutOut, Bool.or_eq_false_iff] at hd
    refine ⟨hd.2, fun a => ?_⟩
    rw [Graph.mem_parents_cutOut]
    refine ⟨fun ha => ha.1, fun ha => ⟨ha, hd.1, ?_⟩⟩
    simpa using hc.parent_not_gone h ⟨hm, hd.2⟩ (by simpa using hd.1) ha
  set := by
    intro t q hq
    obtain ⟨q', -, hfirst, -, -, hsets⟩ :=
      sets_cut adjustment gone hc.set
    by_cases hst : s = t
    · subst hst
      cases Option.some.inj (hc.set.symm.trans hq)
      exact ⟨q', by rw [hsets, if_pos rfl], hfirst⟩
    · exact ⟨q, by rw [hsets, if_neg hst, hq], rfl⟩
  head := fun hh => Or.inl ((heads_cut hc).1 hh)

namespace Structured

theorem mem_cut {q : ReachedSet} {n : NodeId}
    (hq : (c.cut s r adjustment gone).sets[t]? = some q) :
    n ∈ q ↔ ∃ m, (c.cut s r adjustment gone).graph.Live n m ∧ m.set = t := by
  obtain ⟨q₀, hq₀, -, -, hmem, -⟩ := sets_of_cut hc hq
  rw [hmem, h.mem_iff hq₀]
  constructor
  · rintro ⟨⟨m, hm, rfl⟩, hn⟩
    refine ⟨_, live_cut_iff.2 ⟨m, hm, fun hgone => ?_, rfl⟩, Graph.set_cutOut⟩
    obtain ⟨m', hm', hset⟩ := hc.live h hgone
    rw [hm.unique hm'] at hset
    exact hn hset hgone
  · rintro ⟨m, hm, rfl⟩
    obtain ⟨m₀, hm₀, hn, rfl⟩ := live_cut_iff.1 hm
    exact ⟨⟨m₀, hm₀, Graph.set_cutOut.symm⟩, fun _ => hn⟩

theorem parent_cut {n : NodeId} {m : Node State Tracked}
    (hm : (c.cut s r adjustment gone).graph.Live n m) (hn : ¬ c.Heads n) :
    ∃ a ma, m.parents = .singleton a ∧ a < n ∧
      (c.cut s r adjustment gone).graph.Live a ma ∧ ma.set = m.set := by
  obtain ⟨m₀, hm₀, hkept, rfl⟩ := live_cut_iff.1 hm
  obtain ⟨a, ma, hpar, hlt, hma, hset⟩ := h.parent hm₀ hn
  have ha : a ∉ gone := hc.parent_not_gone h hm₀ hkept (hpar ▸ SortedSet.mem_singleton.2 rfl)
  refine ⟨a, _, ?_, hlt, live_cut_iff.2 ⟨ma, hma, ha, rfl⟩, ?_⟩
  · ext b
    rw [Graph.mem_parents_cutOut, hpar, SortedSet.mem_singleton]
    constructor
    · exact fun hb => hb.1
    · rintro rfl
      exact ⟨rfl, by simpa using hkept, by simpa using ha⟩
  · rw [Graph.set_cutOut, Graph.set_cutOut, hset]

omit hc in
theorem cover_cut {n k : NodeId} {m : Node State Tracked}
    (hm : (c.cut s r adjustment gone).graph.Live n m) (hk : m.coveredBy = some k) :
    ∃ mk, (c.cut s r adjustment gone).graph.Live k mk ∧ mk.set = m.set := by
  obtain ⟨m₀, hm₀, -, rfl⟩ := live_cut_iff.1 hm
  obtain ⟨hk, -, hgone⟩ := Graph.coveredBy_cutOut.1 hk
  obtain ⟨mk, hmk, hset⟩ := h.cover hm₀ hk
  refine ⟨_, live_cut_iff.2 ⟨mk, hmk, by simpa using hgone, rfl⟩, ?_⟩
  rw [Graph.set_cutOut, Graph.set_cutOut, hset]

theorem cut : (c.cut s r adjustment gone).Structured where
  graph := h.graph.cutOut node?_cut
  setId := by
    intro t q hq
    obtain ⟨q₀, hq₀, hid, -⟩ := sets_of_cut hc hq
    exact hid.trans (h.setId hq₀)
  mem_iff := h.mem_cut hc
  first_mem := by
    intro t q hq
    obtain ⟨q₀, hq₀, -, hfirst, hmem, -⟩ := sets_of_cut hc hq
    rw [hfirst, hmem]
    exact ⟨h.first_mem hq₀, fun _ => hc.heads_not_gone h ⟨t, q₀, hq₀, rfl⟩⟩
  set_lt := by
    intro n m hm
    obtain ⟨m₀, hm₀, -, rfl⟩ := live_cut_iff.1 hm
    rw [Graph.set_cutOut]
    simpa [Context.cut] using h.set_lt hm₀
  head := by
    intro n m hm hh
    obtain ⟨m₀, hm₀, -, rfl⟩ := live_cut_iff.1 hm
    obtain ⟨hp, hk⟩ := h.head hm₀ ((heads_cut hc).1 hh)
    exact Graph.detached_cutOut hp hk
  parent := fun hm hn => h.parent_cut hc hm fun hn' => hn ((heads_cut hc).2 hn')
  cover := h.cover_cut
  waitlist := by
    intro t q hq
    obtain ⟨q₀, hq₀, -, -, -, hw⟩ := sets_of_cut hc hq
    exact hw (h.waitlist hq₀)

end Structured

end Cut

end Context

namespace Action

open Context

variable {c : Context} {parent : NodeId} {p : Node State Tracked} {r : ReachedSet} {state : State}

theorem addChild_eq_ok (hp : c.graph.Live parent p) : addChild parent state c =
    .ok c.graph.size
      { c with graph := c.graph.sprout parent state p.precision p.set none } := by
  rw [← ensures_eq_ok_iff]
  simp only [addChild, editGraph, modifyGraph, ensures_bind, ensures_get, ensures_modify,
    ensures_pure, ensures_lift_of_ok (Graph.liveNode_eq_ok.2 hp),
    ensures_lift_of_ok (Graph.addEdge_addNode hp), and_self]

theorem addChild_eq_error {fault : Fault} (hp : c.graph.liveNode parent = .error fault) :
    addChild parent state c = .error fault c := by
  have hask : (liftM (c.graph.liveNode parent) : Action (Node State Tracked)) c =
      .error fault c := by
    rw [hp]
    rfl
  have hget : (get : Action Context) c = .ok c c := rfl
  exact (bind_eq_of_ok hget).trans (bind_eq_of_error hask)

theorem addSuccessor_eq_error {fault : Fault} (hp : c.graph.liveNode parent = .error fault) :
    addSuccessor parent state c = .error fault c :=
  bind_eq_of_error (addChild_eq_error hp)

theorem addCoveredSuccessor_eq_error {fault : Fault} (hp : c.graph.liveNode parent = .error fault)
    (cover : NodeId) : addCoveredSuccessor parent state cover c = .error fault c :=
  bind_eq_of_error (addChild_eq_error hp)

theorem modifySet_eq_ok {s : SetId} {f : ReachedSet → ReachedSet} (hr : c.sets[s]? = some r) :
    modifySet s f c = .ok () (c.putSet s (f r)) := by
  rw [← ensures_eq_ok_iff]
  simp only [modifySet, ensures_bind, ensures_get, ensures_modify,
    ensures_lift_of_ok (reachedSet_eq_ok.2 hr), putSet, and_self]

theorem addSuccessor_eq_ok (hp : c.graph.Live parent p) (hr : c.sets[p.set]? = some r) :
    addSuccessor parent state c = .ok c.graph.size (c.sprout parent p r state none) := by
  have hnew : (c.graph.sprout parent state p.precision p.set none).Live c.graph.size
      (c.graph.sprouted parent state p.precision p.set none) :=
    Graph.live_size_sprout hp.lt_size (by simp)
  rw [← ensures_eq_ok_iff]
  simp only [addSuccessor, ensures_bind, ensures_get, ensures_pure,
    ensures_of_ok (addChild_eq_ok hp), ensures_lift_of_ok (Graph.liveNode_eq_ok.2 hnew)]
  rw [ensures_of_ok (modifySet_eq_ok (r := r) (by exact hr))]
  exact ⟨trivial, rfl⟩

theorem addCoveredSuccessor_eq_ok {cover : NodeId} {k : Node State Tracked}
    (hp : c.graph.Live parent p) (hr : c.sets[p.set]? = some r) (hk : c.graph.Live cover k) :
    addCoveredSuccessor parent state cover c =
      .ok c.graph.size (c.sprout parent p r state (some cover)) := by
  have hnew : (c.graph.sprout parent state p.precision p.set (some cover)).Live c.graph.size
      (c.graph.sprouted parent state p.precision p.set (some cover)) :=
    Graph.live_size_sprout hp.lt_size (by rintro _ ⟨⟩; exact hk.lt_size)
  rw [← ensures_eq_ok_iff]
  simp only [addCoveredSuccessor, editGraph, modifyGraph, ensures_bind, ensures_get,
    ensures_modify, ensures_pure, ensures_of_ok (addChild_eq_ok hp),
    ensures_lift_of_ok (Graph.cover_sprout hp.lt_size hk),
    ensures_lift_of_ok (Graph.liveNode_eq_ok.2 hnew)]
  rw [ensures_of_ok (modifySet_eq_ok (r := r) (by exact hr))]
  exact ⟨trivial, rfl⟩

theorem ensures_removeSubtree {s : SetId} {node : NodeId} {adjustment : Adjustment Tracked}
    {ok : Bool → Context → Prop} {bad : Fault → Context → Prop} (hr : c.sets[s]? = some r) :
    Ensures (removeSubtree s node adjustment) c ok bad ↔
      Ensures (Region.removeSubtree node adjustment) ⟨c.graph, r⟩
        (fun changed region => ok changed (c.putRegion s region))
        (fun fault region => bad fault (c.putRegion s region)) := by
  simp only [Ensures, removeSubtree, reachedSet_eq_ok.2 hr]
  cases Region.removeSubtree node adjustment ⟨c.graph, r⟩ <;> rfl

end Action

end Blockwise
