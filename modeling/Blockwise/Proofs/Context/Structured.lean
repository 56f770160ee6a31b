import Blockwise.Context.Basic
import Blockwise.Proofs.Graph.Removal

/-!
The shape of a context: the members of a reached set are the live nodes that carry its index, its
first node hangs below nothing, and every other node below exactly one older node of the set. Each
way in which an action changes graph and sets together keeps this shape.
-/
namespace Blockwise

namespace Context

def Heads (c : Context) (n : NodeId) : Prop :=
  ∃ (s : SetId) (r : ReachedSet), c.sets[s]? = some r ∧ r.first = n

structure Structured (c : Context) : Prop where
  graph : c.graph.WellFormed
  setId : ∀ {s : SetId} {r : ReachedSet}, c.sets[s]? = some r → r.id = s
  mem_iff : ∀ {s : SetId} {r : ReachedSet} {n : NodeId}, c.sets[s]? = some r →
    (n ∈ r ↔ ∃ m, c.graph.Live n m ∧ m.set = s)
  first_mem : ∀ {s : SetId} {r : ReachedSet}, c.sets[s]? = some r → r.first ∈ r
  set_lt : ∀ {n m}, c.graph.Live n m → m.set < c.sets.size
  head : ∀ {n m}, c.graph.Live n m → c.Heads n → m.parents = ∅ ∧ m.coveredBy = none
  parent : ∀ {n m}, c.graph.Live n m → ¬ c.Heads n →
    ∃ p mp, m.parents = .singleton p ∧ p < n ∧ c.graph.Live p mp ∧ mp.set = m.set
  cover : ∀ {n m k}, c.graph.Live n m → m.coveredBy = some k →
    ∃ mk, c.graph.Live k mk ∧ mk.set = m.set
  waitlist : ∀ {s : SetId} {r : ReachedSet}, c.sets[s]? = some r →
    r.waitlist.Nodup ∧ ∀ n ∈ r.waitlist, n ∈ r

namespace Structured

variable {c : Context} (h : c.Structured)

include h

theorem set_of_live {n : NodeId} {m : Node State Tracked} (hm : c.graph.Live n m) :
    ∃ r, c.sets[m.set]? = some r ∧ n ∈ r := by
  have hr := Array.getElem?_eq_getElem (h.set_lt hm)
  exact ⟨_, hr, (h.mem_iff hr).2 ⟨m, hm, rfl⟩⟩

theorem live_first {s : SetId} {r : ReachedSet} (hr : c.sets[s]? = some r) :
    ∃ m, c.graph.Live r.first m ∧ m.set = s :=
  (h.mem_iff hr).1 (h.first_mem hr)

theorem live_of_mem {s : SetId} {r : ReachedSet} {n : NodeId} (hr : c.sets[s]? = some r)
    (hn : n ∈ r) : ∃ m, c.graph.Live n m ∧ m.set = s :=
  (h.mem_iff hr).1 hn

theorem live_of_heads {n : NodeId} (hn : c.Heads n) : ∃ m, c.graph.Live n m := by
  obtain ⟨s, r, hr, rfl⟩ := hn
  obtain ⟨m, hm, -⟩ := h.live_first hr
  exact ⟨m, hm⟩

theorem first_of_heads {n : NodeId} {m : Node State Tracked} (hn : c.Heads n)
    (hm : c.graph.Live n m) : ∃ r, c.sets[m.set]? = some r ∧ r.first = n := by
  obtain ⟨s, r, hr, rfl⟩ := hn
  obtain ⟨m', hm', rfl⟩ := h.live_first hr
  rw [hm'.unique hm]
  exact ⟨r, hr, rfl⟩

theorem heads_iff {s : SetId} {r : ReachedSet} {n : NodeId} (hr : c.sets[s]? = some r)
    (hn : n ∈ r) : c.Heads n ↔ n = r.first := by
  constructor
  · intro hh
    obtain ⟨m, hm, rfl⟩ := h.live_of_mem hr hn
    obtain ⟨r', hr', rfl⟩ := h.first_of_heads hh hm
    rw [Option.some.inj (hr.symm.trans hr')]
  · rintro rfl
    exact ⟨s, r, hr, rfl⟩

theorem set_unique {s t : SetId} {r q : ReachedSet} {n : NodeId} (hr : c.sets[s]? = some r)
    (hq : c.sets[t]? = some q) (hn : n ∈ r) (hn' : n ∈ q) : s = t := by
  obtain ⟨m, hm, rfl⟩ := h.live_of_mem hr hn
  obtain ⟨m', hm', rfl⟩ := h.live_of_mem hq hn'
  rw [hm.unique hm']

theorem live_of_edge {a b : NodeId} (he : c.graph.Edge a b) :
    ∃ ma mb, c.graph.Live a ma ∧ c.graph.Live b mb ∧ mb.parents = .singleton a ∧ a < b ∧
      ma.set = mb.set := by
  have hp := h.graph.edge_iff.1 he
  obtain ⟨mb, hb⟩ := h.graph.live_of_parent hp
  obtain ⟨mb', hb', ha⟩ := hp
  cases Option.some.inj (hb'.symm.trans hb.1)
  by_cases hh : c.Heads b
  · rw [(h.head hb hh).1] at ha
    exact absurd ha (SortedSet.not_mem_empty a)
  · obtain ⟨p, mp, hp, hlt, hlive, hset⟩ := h.parent hb hh
    rw [hp, SortedSet.mem_singleton] at ha
    subst ha
    exact ⟨mp, mb, hlive, hb, hp, hlt, hset⟩

theorem parent_unique {a a' b : NodeId} (he : c.graph.Edge a b) (he' : c.graph.Edge a' b) :
    a' = a := by
  obtain ⟨-, m, -, hm, hp, -⟩ := h.live_of_edge he
  obtain ⟨-, m', -, hm', hp', -⟩ := h.live_of_edge he'
  cases hm.unique hm'
  rw [hp] at hp'
  exact SortedSet.mem_singleton.1 (hp' ▸ SortedSet.mem_singleton.2 rfl)

theorem not_heads_of_edge {a b : NodeId} (he : c.graph.Edge a b) : ¬ c.Heads b := by
  intro hb
  obtain ⟨-, m, -, hm, hp, -⟩ := h.live_of_edge he
  rw [(h.head hm hb).1] at hp
  exact SortedSet.not_mem_empty a (hp ▸ SortedSet.mem_singleton.2 rfl)

theorem live_of_covers {a b : NodeId} (hc : c.graph.Covers a b) :
    ∃ ma mb, c.graph.Live a ma ∧ c.graph.Live b mb ∧ mb.coveredBy = some a ∧
      ma.set = mb.set := by
  have hp := h.graph.covers_iff.1 hc
  obtain ⟨mb, hb⟩ := h.graph.live_of_coveredBy hp
  obtain ⟨mb', hb', ha⟩ := hp
  cases Option.some.inj (hb'.symm.trans hb.1)
  obtain ⟨ma, hma, hset⟩ := h.cover hb ha
  exact ⟨ma, mb, hma, hb, ha, hset⟩

end Structured

/-- What no step of an analysis takes back. -/
structure Evolves (c c' : Context) : Prop where
  partitioning : c'.partitioning = c.partitioning
  reducer : c'.reducer = c.reducer
  node : ∀ {n m}, c.graph.node? n = some m → ∃ m', c'.graph.node? n = some m' ∧
    m'.state = m.state ∧ m'.set = m.set ∧
    (m'.destroyed = false → m.destroyed = false ∧ ∀ p, p ∈ m'.parents ↔ p ∈ m.parents)
  set : ∀ {s : SetId} {r : ReachedSet}, c.sets[s]? = some r →
    ∃ r', c'.sets[s]? = some r' ∧ r'.first = r.first
  head : ∀ {n}, c'.Heads n → c.Heads n ∨ c.graph.size ≤ n

namespace Evolves

variable {c c' c'' : Context}

theorem refl (c : Context) : c.Evolves c where
  partitioning := rfl
  reducer := rfl
  node := fun hm => ⟨_, hm, rfl, rfl, fun hd => ⟨hd, fun _ => Iff.rfl⟩⟩
  set := fun hr => ⟨_, hr, rfl⟩
  head := Or.inl

theorem size_le (e : c.Evolves c') : c.graph.size ≤ c'.graph.size := by
  by_contra hlt
  obtain ⟨m, hm⟩ := Graph.node?_of_lt (g := c.graph) (Nat.lt_of_not_le hlt)
  obtain ⟨m', hm', -⟩ := e.node hm
  rw [Graph.node?_size] at hm'
  cases hm'

theorem trans (e : c.Evolves c') (e' : c'.Evolves c'') : c.Evolves c'' where
  partitioning := e'.partitioning.trans e.partitioning
  reducer := e'.reducer.trans e.reducer
  node := by
    intro n m hm
    obtain ⟨m', hm', hs, ht, hd⟩ := e.node hm
    obtain ⟨m'', hm'', hs', ht', hd'⟩ := e'.node hm'
    refine ⟨m'', hm'', hs'.trans hs, ht'.trans ht, fun hdd => ?_⟩
    obtain ⟨h₁, h₂⟩ := hd' hdd
    obtain ⟨h₃, h₄⟩ := hd h₁
    exact ⟨h₃, fun p => (h₂ p).trans (h₄ p)⟩
  set := by
    intro s r hr
    obtain ⟨r', hr', hf⟩ := e.set hr
    obtain ⟨r'', hr'', hf'⟩ := e'.set hr'
    exact ⟨r'', hr'', hf'.trans hf⟩
  head := by
    intro n hn
    rcases e'.head hn with hn | hn
    · exact e.head hn
    · exact Or.inr (e.size_le.trans hn)

theorem heads (e : c.Evolves c') {n : NodeId} (hn : c.Heads n) : c'.Heads n := by
  obtain ⟨s, r, hr, hf⟩ := hn
  obtain ⟨r', hr', hf'⟩ := e.set hr
  exact ⟨s, r', hr', hf'.trans hf⟩

theorem heads_iff (e : c.Evolves c') {n : NodeId} (hn : n < c.graph.size) :
    c'.Heads n ↔ c.Heads n :=
  ⟨fun h => (e.head h).resolve_right (Nat.not_le.2 hn), e.heads⟩

end Evolves

end Context

end Blockwise
