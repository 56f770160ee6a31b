import Blockwise.Proofs.Exploration.Growth

/-!
Runs of growth. From a given context on, steps are made only at nodes that wait there or are added
later, and each only after the node was taken from its waitlist. So the nodes that did not wait at
the start keep their links.
-/
namespace Blockwise

namespace ReachedSet

variable {r : ReachedSet}

theorem dropWhile_members {l : List NodeId} (h : ∀ n ∈ l, n ∈ r) :
    l.dropWhile (· ∉ r) = l := by
  cases l with
  | nil => rfl
  | cons a l => simp [h a (List.mem_cons_self ..)]

theorem pop_spec (h : ∀ n ∈ r.waitlist, n ∈ r) :
    r.pop.2.id = r.id ∧ r.pop.2.first = r.first ∧ r.pop.2.nodes = r.nodes ∧
      match r.pop.1 with
      | none => r.waitlist = [] ∧ r.pop.2.waitlist = []
      | some n => (n :: r.pop.2.waitlist).Perm r.waitlist := by
  unfold pop
  cases r.order with
  | fifo =>
    simp only [dropWhile_members h]
    refine ⟨trivial, trivial, trivial, ?_⟩
    cases r.waitlist with
    | nil => exact ⟨rfl, rfl⟩
    | cons a l => exact .refl _
  | lifo =>
    have hr : ∀ n ∈ r.waitlist.reverse, n ∈ r := fun n hn => h n (List.mem_reverse.1 hn)
    simp only [dropWhile_members hr]
    refine ⟨trivial, trivial, trivial, ?_⟩
    cases hw : r.waitlist.reverse with
    | nil => exact ⟨by simpa using hw, rfl⟩
    | cons a l =>
      have he : r.waitlist = l.reverse ++ [a] := by
        rw [← List.reverse_reverse r.waitlist, hw, List.reverse_cons]
      rw [he]
      exact (List.perm_append_singleton a l.reverse).symm

theorem perm_of_pop (h : ∀ n ∈ r.waitlist, n ∈ r) {n : NodeId} (hn : r.pop.1 = some n) :
    (n :: r.pop.2.waitlist).Perm r.waitlist := by
  obtain ⟨-, -, -, hpop⟩ := pop_spec h
  rwa [hn] at hpop

theorem waitlist_pop (hnd : r.waitlist.Nodup) (h : ∀ n ∈ r.waitlist, n ∈ r) :
    r.pop.2.waitlist.Nodup ∧ ∀ n ∈ r.pop.2.waitlist, n ∈ r.waitlist := by
  obtain ⟨-, -, -, hpop⟩ := pop_spec h
  split at hpop
  · rw [hpop.2]
    simp
  · exact ⟨(List.nodup_cons.1 (hpop.nodup_iff.2 hnd)).2,
      fun n hn => hpop.mem_iff.1 (List.mem_cons_of_mem _ hn)⟩

end ReachedSet

namespace Context

def Waits (c : Context) (n : NodeId) : Prop :=
  ∃ (s : SetId) (r : ReachedSet), c.sets[s]? = some r ∧ n ∈ r.waitlist

/-- A node at which growth from `c` can happen: it waits, or there is no such node yet. -/
def Open (c : Context) (n : NodeId) : Prop := c.Waits n ∨ c.graph.size ≤ n

theorem waits_sprout {c : Context} {parent n : NodeId} {p : Node State Tracked} {r : ReachedSet}
    {state : State} {cover : Option NodeId} (hf : c.Fertile parent p r cover)
    (h : (c.sprout parent p r state cover).Waits n) : c.Open n := by
  obtain ⟨t, q, hq, hn⟩ := h
  obtain ⟨q₀, hq₀, -, -, -, hw | ⟨-, -, hw⟩⟩ := mem_of_sets_sprout hf hq
  · exact Or.inl ⟨t, q₀, hq₀, hw ▸ hn⟩
  · rw [hw] at hn
    rcases List.mem_append.1 hn with hn | hn
    · exact Or.inl ⟨t, q₀, hq₀, hn⟩
    · rw [List.mem_singleton.1 hn]
      exact Or.inr (Nat.le_refl _)

theorem waits_addReachedSet {c : Context} {n : NodeId} {state : State} {precision : Tracked}
    (h : (c.addReachedSet state precision).Waits n) : c.Open n := by
  obtain ⟨t, q, hq, hn⟩ := h
  rw [sets_addReachedSet] at hq
  split at hq
  · cases hq
    rw [List.mem_singleton.1 hn]
    exact Or.inr (Nat.le_refl _)
  · exact Or.inl ⟨t, q, hq, hn⟩

theorem Structured.lt_of_waits {c : Context} (h : c.Structured) {n : NodeId} (hn : c.Waits n) :
    n < c.graph.size := by
  obtain ⟨s, r, hr, hn⟩ := hn
  obtain ⟨m, hm, -⟩ := h.live_of_mem hr ((h.waitlist hr).2 n hn)
  exact hm.lt_size

end Context

open Context

variable {program : Program} {c c' c'' : Context} {n k : NodeId} {t : SetId}

namespace Resolves

theorem waits (st : Resolves n c t c') (hk : c'.Waits k) : c.Open k := by
  cases st with
  | stored => exact Or.inl hk
  | similar => exact Or.inl hk
  | @fresh p K =>
    have hk : (c.addReachedSet K.state K.precision).Waits k := hk
    exact waits_addReachedSet hk

theorem links (st : Resolves n c t c') : c'.links = c.links.linkEntry n t := by
  cases st <;> rfl

theorem call (st : Resolves n c t c') : ∃ p, c.graph.Live n p ∧ c.task p.set n = .ok .call := by
  cases st with
  | stored hp ht => exact ⟨_, hp, ht⟩
  | similar hp ht => exact ⟨_, hp, ht⟩
  | fresh hp ht => exact ⟨_, hp, ht⟩

theorem edge (st : Resolves n c t c') {a b : NodeId} (he : c'.graph.Edge a b) :
    c.graph.Edge a b := by
  cases st with
  | stored => exact he
  | similar => exact he
  | fresh =>
    obtain ⟨m, hm, hb⟩ := he
    rcases Graph.node?_addNode_eq_some_iff.1 hm with ⟨-, rfl⟩ | hm
    · exact absurd hb (SortedSet.not_mem_empty b)
    · exact ⟨m, hm, hb⟩

end Resolves

namespace Unfolds

theorem waits (h : c.Structured) (st : Unfolds program n c c') (hk : c'.Waits k) : c.Open k := by
  cases st with
  | successor hp hr _ _ hc => exact waits_sprout (fertile_of_findCover h hp hr hc) hk
  | @expand p m r t x b hp hr =>
    have hf : c.Fertile n p r none := ⟨hp, hr, by simp⟩
    have hk : (c.sprout n p r (c.reducer.expand p.state b m.state) none).Waits k := hk
    exact waits_sprout hf hk
  | record => exact Or.inl hk

theorem entry (st : Unfolds program n c c') : c'.links.setOfEntry k = c.links.setOfEntry k := by
  cases st <;> rfl

theorem edge (h : c.Structured) (st : Unfolds program n c c') {a b : NodeId}
    (he : c'.graph.Edge a b) :
    c.graph.Edge a b ∨ a = n ∧ n < c.graph.size ∧ b = c.graph.size := by
  cases st with
  | successor hp hr _ _ hc =>
    have hf := fertile_of_findCover h hp hr hc
    exact ((Graph.edge_sprout hf.parent_lt hf.cover_lt).1 he).imp_right
      fun ⟨ha, hb⟩ => ⟨ha, hf.parent_lt, hb⟩
  | @expand p m r t x b hp hr =>
    have hf : c.Fertile n p r none := ⟨hp, hr, by simp⟩
    exact ((Graph.edge_sprout hf.parent_lt hf.cover_lt).1 he).imp_right
      fun ⟨ha, hb⟩ => ⟨ha, hf.parent_lt, hb⟩
  | record => exact Or.inl he

theorem reducedOf (st : Unfolds program n c c') {e x : NodeId}
    (hx : c'.links.reducedOf e = some x) : c.links.reducedOf e = some x ∨
      e = c.graph.size ∧ ∃ t, c.links.setOfEntry n = some t ∧ c.IsExit t x := by
  cases st with
  | successor => exact Or.inl hx
  | expand _ _ _ hs hxt =>
    change (c.links.linkExpanded _ _).reducedOf e = some x at hx
    rw [Links.reducedOf_linkExpanded] at hx
    split at hx
    · rename_i he
      cases hx
      exact Or.inr ⟨he.symm, _, hs, hxt⟩
    · exact Or.inl hx
  | record => exact Or.inl hx

end Unfolds

inductive Grows (program : Program) (c : Context) : Context → Prop
  | refl : Grows program c c
  | quiet {d} (g : Grows program c d) (statistics : Statistics) (shutdown : Shutdown) :
      Grows program c { d with statistics, shutdown }
  | pop {d} {s : SetId} {r : ReachedSet} (g : Grows program c d) (hr : d.sets[s]? = some r) :
      Grows program c (d.putSet s r.pop.2)
  | resolve {d d' n t} (g : Grows program c d) (ho : c.Open n) (hw : ¬ d.Waits n)
      (hc : ∀ k, d.graph.Edge n k → k < c.graph.size) (st : Resolves n d t d') :
      Grows program c d'
  | unfold {d d' n} (g : Grows program c d) (ho : c.Open n) (hw : ¬ d.Waits n)
      (st : Unfolds program n d d') : Grows program c d'

namespace Grows

theorem waits_pop {s : SetId} {r : ReachedSet} (h : c.Structured) (hr : c.sets[s]? = some r)
    (hk : (c.putSet s r.pop.2).Waits k) : c.Waits k := by
  obtain ⟨t, q, hq, hn⟩ := hk
  rw [putSet, getElem?_setIfInBounds hr] at hq
  split at hq
  · cases hq
    obtain ⟨hnd, hsub⟩ := h.waitlist hr
    exact ⟨s, r, hr, (ReachedSet.waitlist_pop hnd hsub).2 k hn⟩
  · exact ⟨t, q, hq, hn⟩

theorem sound_pop {s : SetId} {r : ReachedSet} (h : c.Sound) (hr : c.sets[s]? = some r) :
    (c.putSet s r.pop.2).Sound ∧ c.Extends (c.putSet s r.pop.2) := by
  obtain ⟨hnd, hsub⟩ := h.waitlist hr
  obtain ⟨hid, hfirst, hnodes, -⟩ := ReachedSet.pop_spec hsub
  obtain ⟨hnd', hsub'⟩ := ReachedSet.waitlist_pop hnd hsub
  exact ⟨h.putSet hr hid hfirst hnodes ⟨hnd', fun n hn => hsub n (hsub' n hn)⟩,
    extends_putSet hr hfirst hnodes⟩

theorem sound_quiet (h : c.Sound) (statistics : Statistics) (shutdown : Shutdown) :
    Sound { c with statistics, shutdown } :=
  { h with }

theorem extends_quiet (statistics : Statistics) (shutdown : Shutdown) :
    c.Extends { c with statistics, shutdown } :=
  { Extends.refl c with evolves := { Evolves.refl c with } }

theorem spec (h : c.Sound) (g : Grows program c c') : c'.Sound ∧ c.Extends c' := by
  induction g with
  | refl => exact ⟨h, .refl c⟩
  | quiet g statistics shutdown ih =>
    exact ⟨sound_quiet ih.1 _ _, ih.2.trans (extends_quiet _ _)⟩
  | pop g hr ih =>
    obtain ⟨hs, he⟩ := sound_pop ih.1 hr
    exact ⟨hs, ih.2.trans he⟩
  | resolve g _ _ _ st ih =>
    obtain ⟨hs, he⟩ := st.spec ih.1
    exact ⟨hs, ih.2.trans he⟩
  | unfold g _ _ st ih =>
    obtain ⟨hs, he⟩ := st.spec ih.1
    exact ⟨hs, ih.2.trans he⟩

variable (h : c.Sound) (g : Grows program c c')

include h g

theorem sound : c'.Sound := (g.spec h).1

theorem toExtends : c.Extends c' := (g.spec h).2

theorem size_le : c.graph.size ≤ c'.graph.size := (g.toExtends h).evolves.size_le

theorem open_of_waits (hk : c'.Waits k) : c.Open k := by
  induction g with
  | refl => exact Or.inl hk
  | quiet g _ _ ih => exact ih hk
  | pop g hr ih => exact ih (waits_pop (g.sound h).toStructured hr hk)
  | resolve g _ _ _ st ih =>
    rcases st.waits hk with hk | hk
    · exact ih hk
    · exact Or.inr ((g.size_le h).trans hk)
  | unfold g _ _ st ih =>
    rcases st.waits (g.sound h).toStructured hk with hk | hk
    · exact ih hk
    · exact Or.inr ((g.size_le h).trans hk)

theorem open_of_open (hk : c'.Open k) : c.Open k := by
  rcases hk with hk | hk
  · exact g.open_of_waits h hk
  · exact Or.inr ((g.size_le h).trans hk)

theorem edge_lt_of_waits (hn : c'.Waits n) (he : c'.graph.Edge n k) : k < c.graph.size := by
  induction g with
  | refl =>
    obtain ⟨-, m, -, hm, -⟩ := h.live_of_edge he
    exact hm.lt_size
  | quiet g _ _ ih => exact ih hn he
  | pop g hr ih => exact ih (waits_pop (g.sound h).toStructured hr hn) he
  | resolve g _ _ _ st ih =>
    have he' := st.edge he
    rcases st.waits hn with hn | hn
    · exact ih hn he'
    · obtain ⟨m, -, hm, -⟩ := (g.sound h).live_of_edge he'
      exact absurd hm.lt_size (Nat.not_lt.2 hn)
  | unfold g _ hw st ih =>
    have hs := (g.sound h).toStructured
    rcases st.edge hs he with he' | ⟨rfl, hlt, -⟩
    · rcases st.waits hs hn with hn | hn
      · exact ih hn he'
      · obtain ⟨m, -, hm, -⟩ := hs.live_of_edge he'
        exact absurd hm.lt_size (Nat.not_lt.2 hn)
    · rcases st.waits hs hn with hn | hn
      · exact absurd hn hw
      · exact absurd hlt (Nat.not_lt.2 hn)

theorem edge_of_lt (he : c'.graph.Edge n k) (hk : k < c.graph.size) : c.graph.Edge n k := by
  obtain ⟨m, hm⟩ := Graph.node?_of_lt hk
  obtain ⟨-, mk, -, hmk, hp, -⟩ := (g.sound h).live_of_edge he
  obtain ⟨m', hm', -, -, hdead⟩ := (g.toExtends h).evolves.node hm
  cases Option.some.inj (hm'.symm.trans hmk.1)
  obtain ⟨-, hpar⟩ := hdead hmk.2
  exact h.graph.edge_iff.2 ⟨m, hm, (hpar n).1 (hp ▸ SortedSet.mem_singleton.2 rfl)⟩

theorem trans (g' : Grows program c' c'') : Grows program c c'' := by
  induction g' with
  | refl => exact g
  | quiet _ statistics shutdown ih => exact ih.quiet statistics shutdown
  | pop _ hr ih => exact ih.pop hr
  | @resolve d d' n t g' ho hw hc st ih =>
    refine ih.resolve (g.open_of_open h ho) hw (fun k hk => ?_) st
    have hlt := hc k hk
    rcases ho with ho | ho
    · exact g.edge_lt_of_waits h ho (g'.edge_of_lt (g.sound h) hk hlt)
    · obtain ⟨ma, mk, -, -, -, hlt', -⟩ := (g'.sound (g.sound h)).live_of_edge hk
      exact absurd (Nat.lt_trans hlt' hlt) (Nat.not_lt.2 ho)
  | unfold _ ho hw st ih => exact ih.unfold (g.open_of_open h ho) hw st

omit h in
theorem entry_of_not_open (hn : ¬ c.Open n) :
    c'.links.setOfEntry n = c.links.setOfEntry n := by
  induction g with
  | refl => rfl
  | quiet _ _ _ ih => exact ih
  | pop _ _ ih => exact ih
  | resolve _ ho _ _ st ih =>
    rw [st.links, Links.setOfEntry_linkEntry, if_neg, ih]
    rintro rfl
    exact hn ho
  | unfold _ _ _ st ih => rw [st.entry, ih]

omit h in
theorem reducedOf_of_lt {e x : NodeId} (h : c.Sound) (he : e < c.graph.size)
    (hx : c'.links.reducedOf e = some x) : c.links.reducedOf e = some x := by
  induction g with
  | refl => exact hx
  | quiet _ _ _ ih => exact ih hx
  | pop _ _ ih => exact ih hx
  | resolve _ _ _ _ st ih =>
    rw [st.links, Links.reducedOf_linkEntry] at hx
    exact ih hx
  | unfold g _ _ st ih =>
    rcases st.reducedOf hx with hx | ⟨rfl, -⟩
    · exact ih hx
    · exact absurd he (Nat.not_lt.2 (g.size_le h))

theorem exit_of_new {e x p : NodeId} (he : c.graph.size ≤ e)
    (hx : c'.links.reducedOf e = some x) (hp : c'.graph.Edge p e) :
    ∃ t, c'.links.setOfEntry p = some t ∧ c'.IsExit t x := by
  induction g with
  | refl =>
    obtain ⟨m, hm⟩ := (h.exit hx).expanded
    exact absurd (Graph.lt_size_of_node? hm) (Nat.not_lt.2 he)
  | quiet _ _ _ ih => exact ih hx hp
  | pop g hr ih =>
    obtain ⟨t, ht, hxt⟩ := ih hx hp
    exact ⟨t, ht, (sound_pop (g.sound h) hr).2.isExit hxt⟩
  | @resolve d d' n t g ho hw hc st ih =>
    have hp' := st.edge hp
    have hne : n ≠ p := by
      rintro rfl
      exact absurd (hc e hp') (Nat.not_lt.2 he)
    rw [st.links] at hx ⊢
    obtain ⟨t', ht', hxt⟩ := ih hx hp'
    refine ⟨t', ?_, (st.spec (g.sound h)).2.isExit hxt⟩
    rw [Links.setOfEntry_linkEntry, if_neg hne, ht']
  | @unfold d d' n g ho hw st ih =>
    have hs := g.sound h
    have hext := (st.spec hs).2
    rw [st.entry]
    rcases st.reducedOf hx with hx' | ⟨rfl, t, ht, hxt⟩
    · rcases st.edge hs.toStructured hp with hp' | ⟨-, -, rfl⟩
      · obtain ⟨t, ht, hxt⟩ := ih hx' hp'
        exact ⟨t, ht, hext.isExit hxt⟩
      · rw [hs.reducedOf_size] at hx'
        cases hx'
    · rcases st.edge hs.toStructured hp with hp' | ⟨rfl, -, -⟩
      · obtain ⟨_, m, -, hm, -⟩ := hs.live_of_edge hp'
        exact absurd hm.lt_size (Nat.lt_irrefl _)
      · exact ⟨t, ht, hext.isExit hxt⟩

end Grows

end Blockwise
