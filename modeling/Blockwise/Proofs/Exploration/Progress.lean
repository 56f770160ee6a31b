import Blockwise.Proofs.Exploration.Steps

/-!
What an exploration achieves. A node is done when its children are its successors, or the views of
the exits of the block that it calls. A reached set in which no node waits does not change any more,
and so a node that is done stays done.
-/
namespace Blockwise

open Relation (ReflTransGen TransGen)
open Context

variable {program : Program} {c c' c'' : Context} {n k x : NodeId} {s t : SetId}
  {active : List SetId}

/-! ### What one step adds -/

namespace Resolves

theorem waits_of_waits (st : Resolves n c t c') (hk : c.Waits k) : c'.Waits k := by
  cases st with
  | stored => exact hk
  | similar => exact hk
  | @fresh p K =>
    obtain ⟨s, r, hr, hk⟩ := hk
    refine ⟨s, r, ?_, hk⟩
    change (c.addReachedSet K.state K.precision).sets[s]? = some r
    rw [sets_addReachedSet, if_neg (Nat.ne_of_lt (lt_size_of_sets hr)), hr]

theorem live_cases (st : Resolves n c t c') {m : Node State Tracked} (hm : c'.graph.Live k m) :
    c.graph.Live k m ∨ k = c.graph.size ∧ m.set = c.sets.size ∧ c'.Waits k := by
  cases st with
  | stored => exact Or.inl hm
  | similar => exact Or.inl hm
  | @fresh p K =>
    rcases live_addReachedSet_iff.1 hm with ⟨rfl, rfl⟩ | hm
    · refine Or.inr ⟨rfl, rfl, c.sets.size, .start c.sets.size c.graph.size c.options.order, ?_,
        List.mem_singleton.2 rfl⟩
      change (c.addReachedSet K.state K.precision).sets[c.sets.size]? = _
      rw [sets_addReachedSet, if_pos rfl]
    · exact Or.inl hm

theorem idle (st : Resolves n c t c') (hs : s ≠ t)
    (hidle : ∀ r, c.sets[s]? = some r → r.waitlist = []) :
    ∀ r, c'.sets[s]? = some r → r.waitlist = [] := by
  cases st with
  | stored => exact hidle
  | similar => exact hidle
  | @fresh p K =>
    intro r hr
    change (c.addReachedSet K.state K.precision).sets[s]? = some r at hr
    rw [sets_addReachedSet, if_neg hs] at hr
    exact hidle r hr

end Resolves

namespace Unfolds

theorem shape (h : c.Structured) (st : Unfolds program n c c') :
    (c'.graph = c.graph ∧ c'.sets = c.sets) ∨ ∃ p r state cover, c.Fertile n p r cover ∧
      c'.graph = (c.sprout n p r state cover).graph ∧
      c'.sets = (c.sprout n p r state cover).sets := by
  cases st with
  | @successor p r _ _ next cover hp hr _ _ hc =>
    exact Or.inr ⟨p, r, next, cover, fertile_of_findCover h hp hr hc, rfl, rfl⟩
  | @expand p m r t x b hp hr =>
    exact Or.inr ⟨p, r, c.reducer.expand p.state b m.state, none, ⟨hp, hr, by simp⟩, rfl, rfl⟩
  | record => exact Or.inl ⟨rfl, rfl⟩

theorem waits_of_waits (h : c.Structured) (st : Unfolds program n c c') (hk : c.Waits k) :
    c'.Waits k := by
  obtain ⟨s, q, hq, hk⟩ := hk
  rcases st.shape h with ⟨-, hsets⟩ | ⟨p, r, state, cover, hf, -, hsets⟩
  · exact ⟨s, q, by rw [hsets, hq], hk⟩
  · obtain ⟨q', hq', -⟩ := sets_sprout_of hf state hq
    obtain ⟨q₀, hq₀, -, -, -, hw⟩ := mem_of_sets_sprout hf hq'
    cases Option.some.inj (hq.symm.trans hq₀)
    refine ⟨s, q', by rw [hsets, hq'], ?_⟩
    rcases hw with hw | ⟨-, -, hw⟩
    · rwa [hw]
    · rw [hw]
      exact List.mem_append_left _ hk

theorem live_cases (h : c.Structured) (st : Unfolds program n c c') {m : Node State Tracked}
    (hm : c'.graph.Live k m) :
    (∃ m₀, c.graph.Live k m₀ ∧ m.set = m₀.set ∧ m.coveredBy = m₀.coveredBy) ∨
      k = c.graph.size ∧ (∃ p, c.graph.Live n p ∧ m.set = p.set) ∧
        (m.coveredBy = none → c'.Waits k) := by
  rcases st.shape h with ⟨hgraph, -⟩ | ⟨p, r, state, cover, hf, hgraph, hsets⟩
  · exact Or.inl ⟨m, hgraph ▸ hm, rfl, rfl⟩
  · rw [hgraph] at hm
    rcases (live_sprout_iff hf).1 hm with ⟨rfl, rfl⟩ | ⟨m₀, hm₀, rfl⟩
    · refine Or.inr ⟨rfl, ⟨p, hf.parent, rfl⟩, fun hcover => ?_⟩
      have hnone : cover = none := hcover
      subst hnone
      refine ⟨p.set, r.add c.graph.size, ?_, List.mem_append_right _ (List.mem_singleton.2 rfl)⟩
      rw [hsets, sets_sprout hf, if_pos rfl]
      rfl
    · exact Or.inl ⟨m₀, hm₀, rfl, rfl⟩

end Unfolds

/-! ### Finished reached sets -/

namespace Context

def Idle (c : Context) (s : SetId) : Prop :=
  ∀ r, c.sets[s]? = some r → r.waitlist = []

theorem Idle.not_waits (hidle : c.Idle t) (h : c.Structured) {m : Node State Tracked}
    (hm : c.graph.Live n m) (hset : m.set = t) : ¬ c.Waits n := by
  rintro ⟨s, r, hr, hn⟩
  obtain ⟨m', hm', hs⟩ := h.live_of_mem hr ((h.waitlist hr).2 n hn)
  cases hm.unique hm'
  have hst : s = t := hs.symm.trans hset
  subst hst
  rw [hidle r hr] at hn
  cases hn

theorem idle_of_not_waits (h : c.Structured)
    (hno : ∀ n m, c.graph.Live n m → m.set = t → ¬ c.Waits n) : c.Idle t := by
  intro r hr
  refine List.eq_nil_iff_forall_not_mem.2 fun n hn => ?_
  obtain ⟨m, hm, hset⟩ := h.live_of_mem hr ((h.waitlist hr).2 n hn)
  exact hno n m hm hset ⟨t, r, hr, hn⟩

def Frozen (c c' : Context) (t : SetId) : Prop :=
  ∀ n m, c'.graph.Live n m → m.set = t → n < c.graph.size

theorem Frozen.isExit (hf : c.Frozen c' t) (h : c.Structured) (h' : c'.Structured)
    (e : c.Extends c') (ht : t < c.sets.size) (hx : c'.IsExit t x) : c.IsExit t x := by
  obtain ⟨q', f', b, m', hq', hf', hb, hxq, hne, hm', hexit⟩ := hx
  have hq := Array.getElem?_eq_getElem ht
  obtain ⟨f, hfirst, -⟩ := h.live_first hq
  obtain ⟨q'', f'', hq'', hsame, hf'', hfs, -⟩ := e.live_first hq hfirst
  cases Option.some.inj (hq'.symm.trans hq'')
  rw [hsame] at hf' hne
  cases hf'.unique hf''
  obtain ⟨k, hk, hset⟩ := h'.live_of_mem hq' hxq
  cases hm'.unique hk
  obtain ⟨m, hm⟩ := Graph.node?_of_lt (hf x m' hm' hset)
  obtain ⟨m'', hm'', hstate, hset', hlive⟩ := e.evolves.node hm
  cases Option.some.inj (hm''.symm.trans hm'.1)
  have hlivex : c.graph.Live x m := ⟨hm, (hlive hm'.2).1⟩
  refine ⟨_, f, b, m, hq, hfirst, ?_, (h.mem_iff hq).2 ⟨m, hlivex, hset'.symm.trans hset⟩, hne,
    hlivex, ?_⟩
  · rwa [← e.evolves.partitioning, ← hfs]
  · rwa [← hstate]

end Context

theorem Unfolds.frozen (h : c.Structured) (st : Unfolds program n c c')
    (hne : ∀ p, c.graph.Live n p → p.set ≠ t) : c.Frozen c' t := by
  intro k m hm hset
  rcases st.live_cases h hm with ⟨m₀, hm₀, -⟩ | ⟨-, ⟨p, hp, hps⟩, -⟩
  · exact hm₀.lt_size
  · exact absurd (hps.symm.trans hset) (hne p hp)

theorem Unfolds.idle (h : c.Sound) (st : Unfolds program n c c')
    (hne : ∀ p, c.graph.Live n p → p.set ≠ t) (hidle : c.Idle t) : c'.Idle t := by
  refine idle_of_not_waits (st.spec h).1.toStructured fun k m hm hset hw => ?_
  rcases st.live_cases h.toStructured hm with ⟨m₀, hm₀, hsame, -⟩ | ⟨-, ⟨p, hp, hps⟩, -⟩
  · rcases st.waits h.toStructured hw with hw | hlt
    · exact hidle.not_waits h.toStructured hm₀ (hsame.symm.trans hset) hw
    · exact Nat.not_lt.2 hlt hm₀.lt_size
  · exact hne p hp (hps.symm.trans hset)

theorem Grows.frozen (h : c.Sound) (g : Grows program c c') (ht : t < c.sets.size)
    (hidle : c.Idle t) : c.Frozen c' t := by
  intro k m hm hset
  induction g generalizing k m with
  | refl => exact hm.lt_size
  | quiet _ _ _ ih => exact ih k m hm hset
  | pop _ _ ih => exact ih k m hm hset
  | resolve g _ _ _ st ih =>
    rcases st.live_cases hm with hm | ⟨-, hnew, -⟩
    · exact ih k m hm hset
    · have hlt := (g.toExtends h).evolves.lt_sets_size ht
      exact absurd hlt (hset.symm.trans hnew ▸ Nat.lt_irrefl _)
  | unfold g ho _ st ih =>
    rcases st.live_cases (g.sound h).toStructured hm with ⟨m₀, hm₀, hsame, -⟩ | ⟨-, ⟨p, hp, hps⟩, -⟩
    · exact ih k m₀ hm₀ (hsame.symm.trans hset)
    · -- the step would be made at an old node of the set, but there none waits
      have hlt := ih _ p hp (hps.symm.trans hset)
      obtain ⟨m₀, hm₀⟩ := Graph.node?_of_lt hlt
      obtain ⟨m', hm', -, hset', hlive⟩ := (g.toExtends h).evolves.node hm₀
      cases Option.some.inj (hm'.symm.trans hp.1)
      rcases ho with hw | hnew
      · exact absurd hw (hidle.not_waits h.toStructured ⟨hm₀, (hlive hp.2).1⟩
          (hset'.symm.trans (hps.symm.trans hset)))
      · exact absurd hlt (Nat.not_lt.2 hnew)

theorem Grows.idle (h : c.Sound) (g : Grows program c c') (ht : t < c.sets.size)
    (hidle : c.Idle t) : c'.Idle t := by
  refine idle_of_not_waits (g.sound h).toStructured fun k m hm hset hw => ?_
  have hlt := g.frozen h ht hidle k m hm hset
  obtain ⟨m₀, hm₀⟩ := Graph.node?_of_lt hlt
  obtain ⟨m', hm', -, hset', hlive⟩ := (g.toExtends h).evolves.node hm₀
  cases Option.some.inj (hm'.symm.trans hm.1)
  rcases g.open_of_waits h hw with hw | hnew
  · exact hidle.not_waits h.toStructured ⟨hm₀, (hlive hm.2).1⟩ (hset'.symm.trans hset) hw
  · exact Nat.not_lt.2 hnew hlt

/-! ### Recursion -/

namespace Context

/-- A node of `s` calls `t`, and no more growth happens there. -/
def Enters (c : Context) (s t : SetId) : Prop :=
  ∃ n m, c.graph.Live n m ∧ m.set = s ∧ c.links.setOfEntry n = some t ∧ ¬ c.Open n

def Recursive (c : Context) : Prop := ∃ s, TransGen c.Enters s s

def Encloses (c : Context) (outer : List SetId) (s : SetId) : Prop :=
  ∀ q ∈ outer, ReflTransGen c.Enters q s

theorem Encloses.enter {outer : List SetId} (ho : c.Encloses outer s) (he : c.Enters s t) :
    c.Encloses (s :: outer) t := by
  intro q hq
  rcases List.mem_cons.1 hq with rfl | hq
  · exact .single he
  · exact (ho q hq).tail he

theorem Encloses.recursive {outer : List SetId} (ho : c.Encloses outer s) (he : c.Enters s t)
    (ht : t ∈ s :: outer) : c.Recursive := by
  rcases List.mem_cons.1 ht with rfl | ht
  · exact ⟨t, .single he⟩
  · exact ⟨t, TransGen.tail' (ho t ht) he⟩

end Context

theorem Context.Enters.unfolds (h : c.Sound) (st : Unfolds program n c c') (he : c.Enters s t) :
    c'.Enters s t := by
  obtain ⟨k, m, hm, hset, hk, hopen⟩ := he
  have e := (st.spec h).2
  obtain ⟨m', hm', -, -, hset', -⟩ := e.node hm
  refine ⟨k, m', hm', hset'.trans hset, st.entry.trans hk, ?_⟩
  rintro (hw | hnew)
  · exact hopen (st.waits h.toStructured hw)
  · exact hopen (Or.inr (e.evolves.size_le.trans hnew))

theorem Context.Enters.grows (h : c.Sound) (g : Grows program c c') (he : c.Enters s t) :
    c'.Enters s t := by
  obtain ⟨k, m, hm, hset, hk, hopen⟩ := he
  obtain ⟨m', hm', -, -, hset', -⟩ := (g.toExtends h).node hm
  exact ⟨k, m', hm', hset'.trans hset, (g.entry_of_not_open hopen).trans hk,
    fun ho => hopen (g.open_of_open h ho)⟩

theorem Context.Recursive.mono (hr : c.Recursive) (he : ∀ s t, c.Enters s t → c'.Enters s t) :
    c'.Recursive := by
  obtain ⟨s, hs⟩ := hr
  exact ⟨s, TransGen.mono he _ _ hs⟩

theorem Context.Encloses.grows {outer : List SetId} (h : c.Sound) (g : Grows program c c')
    (ho : c.Encloses outer s) : c'.Encloses outer s :=
  fun q hq => ReflTransGen.mono (fun _ _ he => he.grows h g) _ _ (ho q hq)

/-! ### Nodes that are done -/

/-- The children of `n` are its successors, or the views of all exits of the block that it calls. -/
inductive Context.Done (program : Program) (active : List SetId) (c : Context) (n : NodeId) : Prop
  | stop {p : Node State Tracked} (hp : c.graph.Live n p) (ht : c.task p.set n = .ok .stop)
  | successors {p : Node State Tracked} {state : State} {precision : Tracked}
      (hp : c.graph.Live n p) (ht : c.task p.set n = .ok (.successors state precision))
      (hv : c.views n = (program.successors state precision).map fun next => (some next, none))
  | call {p : Node State Tracked} {t : SetId} {b : Block} {exits : List NodeId}
      (hp : c.graph.Live n p) (ht : c.task p.set n = .ok .call)
      (hl : c.links.setOfEntry n = some t)
      (hb : c.partitioning.block? p.state.location = some b)
      (hsorted : exits.Pairwise (· < ·)) (hexit : ∀ x ∈ exits, c.IsExit t x)
      (hv : c.views n = exits.map (c.viewOf p.state b))
      (hall : t ∉ active ∧ c.Idle t ∧ (∀ x, c.IsExit t x → x ∈ exits) ∨ c.Recursive)

namespace Context.Done

theorem weaken {outer : List SetId} (hd : c.Done program active n)
    (hsub : ∀ t ∈ outer, t ∈ active) : c.Done program outer n := by
  cases hd with
  | stop hp ht => exact .stop hp ht
  | successors hp ht hv => exact .successors hp ht hv
  | call hp ht hl hb hsorted hexit hv hall =>
    exact .call hp ht hl hb hsorted hexit hv
      (hall.imp_left fun ⟨ha, hidle, hx⟩ => ⟨fun ht => ha (hsub _ ht), hidle, hx⟩)

theorem extend (h : c.Sound) (h' : c'.Sound) (e : c.Extends c') (hd : c.Done program active n)
    (hviews : c'.views n = c.views n)
    (hentry : c'.links.setOfEntry n = c.links.setOfEntry n)
    (henters : ∀ s t, c.Enters s t → c'.Enters s t)
    (hkeep : ∀ t, t ∉ active → t < c.sets.size → c.Idle t → c'.Idle t ∧ c.Frozen c' t) :
    c'.Done program active n := by
  have task : ∀ {p : Node State Tracked} {todo}, c.graph.Live n p → c.task p.set n = .ok todo →
      ∃ p', c'.graph.Live n p' ∧ p'.state = p.state ∧ c'.task p'.set n = .ok todo := by
    intro p todo hp ht
    obtain ⟨p', hp', hs, -, hset, -⟩ := e.node hp
    exact ⟨p', hp', hs, hset ▸ e.task h.toStructured ht⟩
  cases hd with
  | stop hp ht =>
    obtain ⟨p', hp', -, ht'⟩ := task hp ht
    exact .stop hp' ht'
  | successors hp ht hv =>
    obtain ⟨p', hp', -, ht'⟩ := task hp ht
    exact .successors hp' ht' (hviews.trans hv)
  | @call p t b exits hp ht hl hb hsorted hexit hv hall =>
    obtain ⟨p', hp', hs, ht'⟩ := task hp ht
    obtain ⟨_, _, r, _, _, _, _, hr, -⟩ := h.call hl
    have hlt := lt_size_of_sets hr
    refine .call (b := b) hp' ht' (hentry.trans hl) ?_ hsorted
      (fun x hx => e.isExit (hexit x hx)) ?_ ?_
    · rw [e.evolves.partitioning, hs, hb]
    · rw [hviews, hv, hs]
      refine List.map_congr_left fun x hx => (e.evolves.viewOf ?_).symm
      obtain ⟨-, -, -, mx, -, -, -, -, -, hmx, -⟩ := hexit x hx
      exact hmx.lt_size
    · rcases hall with ⟨ha, hidle, hx⟩ | hr
      · obtain ⟨hidle', hfrozen⟩ := hkeep t ha hlt hidle
        refine Or.inl ⟨ha, hidle', fun x hx' => ?_⟩
        exact hx x (hfrozen.isExit h.toStructured h'.toStructured e hlt hx')
      · exact Or.inr (hr.mono henters)

theorem grows (h : c.Sound) (g : Grows program c c') (hn : ¬ c.Open n)
    (hd : c.Done program active n) : c'.Done program active n :=
  hd.extend h (g.sound h) (g.toExtends h) (g.views_of_not_open h hn) (g.entry_of_not_open hn)
    (fun _ _ he => he.grows h g) fun _ _ ht hidle => ⟨g.idle h ht hidle, g.frozen h ht hidle⟩

theorem unfolds (h : c.Sound) (st : Unfolds program k c c') (hne : n ≠ k)
    (hk : ∀ p, c.graph.Live k p → p.set ∈ active) (hd : c.Done program active n) :
    c'.Done program active n := by
  obtain ⟨h', e⟩ := st.spec h
  refine hd.extend h h' e (st.views h hne) st.entry (fun _ _ he => he.unfolds h st)
    fun t ha _ hidle => ?_
  have hne : ∀ p, c.graph.Live k p → p.set ≠ t := by
    rintro p hp rfl
    exact ha (hk p hp)
  exact ⟨st.idle h hne hidle, st.frozen h.toStructured hne⟩

end Context.Done

namespace Context

/-- A live node that no other covers waits, or it is done. -/
def Settled (program : Program) (active : List SetId) (c : Context) (n : NodeId) : Prop :=
  ∀ m, c.graph.Live n m → m.coveredBy = none → c.Waits n ∨ c.Done program active n

def IdleBut (c : Context) (active : List SetId) : Prop := ∀ t, t ∉ active → c.Idle t

namespace Settled

theorem of_open (hn : c.Open n) : c.Settled program active n := by
  intro m hm _
  rcases hn with hw | hnew
  · exact Or.inl hw
  · exact absurd hm.lt_size (Nat.not_lt.2 hnew)

theorem of_done (hd : c.Done program active n) : c.Settled program active n :=
  fun _ _ _ => Or.inr hd

theorem weaken {outer : List SetId} (hn : c.Settled program active n)
    (hsub : ∀ t ∈ outer, t ∈ active) : c.Settled program outer n :=
  fun m hm hcover => (hn m hm hcover).imp_right fun hd => hd.weaken hsub

theorem grows (h : c.Sound) (g : Grows program c c') (hn : c.Settled program active n)
    (hopen : c.Open n → c'.Settled program active n) : c'.Settled program active n := by
  by_cases ho : c.Open n
  · exact hopen ho
  · intro m' hm' hcover
    obtain ⟨m, hm⟩ := Graph.node?_of_lt (Nat.lt_of_not_le fun hle => ho (Or.inr hle))
    obtain ⟨m'', hm'', -, -, hlive⟩ := (g.toExtends h).evolves.node hm
    cases Option.some.inj (hm''.symm.trans hm'.1)
    have hlive := (hlive hm'.2).1
    obtain ⟨m₁, hm₁, -, -, -, -, hsame, -⟩ := (g.toExtends h).node ⟨hm, hlive⟩
    cases hm'.unique hm₁
    rcases hn m ⟨hm, hlive⟩ (hsame.symm.trans hcover) with hw | hd
    · exact absurd (Or.inl hw) ho
    · exact Or.inr (hd.grows h g ho)

theorem unfold (h : c.Sound) (st : Unfolds program k c c') (hne : n ≠ k)
    (hk : ∀ p, c.graph.Live k p → p.set ∈ active) (hn : c.Settled program active n) :
    c'.Settled program active n := by
  intro m hm hcover
  rcases st.live_cases h.toStructured hm with ⟨m₀, hm₀, -, hsame⟩ | ⟨-, -, hw⟩
  · exact (hn m₀ hm₀ (hsame.symm.trans hcover)).imp (st.waits_of_waits h.toStructured)
      fun hd => hd.unfolds h st hne hk
  · exact Or.inl (hw hcover)

theorem resolve (st : Resolves k c t c') (hn : c.Open n) : c'.Settled program active n := by
  intro m hm _
  rcases st.live_cases hm with hm | ⟨-, -, hw⟩
  · rcases hn with hw | hnew
    · exact Or.inl (st.waits_of_waits hw)
    · exact absurd hm.lt_size (Nat.not_lt.2 hnew)
  · exact Or.inl hw

end Settled

end Context

theorem unfolds_settled (h : c.Sound) (st : ReflTransGen (Unfolds program k) c c')
    {p : Node State Tracked} (hp : c.graph.Live k p) (ha : p.set ∈ active) :
    (∀ n, n ≠ k → c.Settled program active n → c'.Settled program active n) ∧
      ∀ t, t ∉ active → c.Idle t → c'.Idle t ∧ c.Frozen c' t := by
  induction st with
  | refl => exact ⟨fun _ _ => id, fun t _ hidle => ⟨hidle, fun n m hm _ => hm.lt_size⟩⟩
  | @tail d d' st' st ih =>
    obtain ⟨hs, he, -⟩ := unfolds_spec h st'
    obtain ⟨hsettled, hkept⟩ := ih
    have hk : ∀ q, d.graph.Live k q → q.set ∈ active := by
      intro q hq
      obtain ⟨q', hq', -, -, hset, -⟩ := he.node hp
      rw [hq'.unique hq, hset]
      exact ha
    refine ⟨fun n hne hn => (hsettled n hne hn).unfold hs st hne hk, fun t ht hidle => ?_⟩
    obtain ⟨hidle', hfrozen⟩ := hkept t ht hidle
    have hne : ∀ q, d.graph.Live k q → q.set ≠ t := by
      rintro q hq rfl
      exact ht (hk q hq)
    refine ⟨st.idle hs hne hidle', fun n m hm hset => ?_⟩
    obtain ⟨m₀, hm₀⟩ := Graph.node?_of_lt (st.frozen hs.toStructured hne n m hm hset)
    obtain ⟨m', hm', -, hset', hlive⟩ := (st.spec hs).2.evolves.node hm₀
    cases Option.some.inj (hm'.symm.trans hm.1)
    exact hfrozen n m₀ ⟨hm₀, (hlive hm.2).1⟩ (hset'.symm.trans hset)

end Blockwise
