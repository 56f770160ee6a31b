import Blockwise.Proofs.Brackets
import Blockwise.Proofs.Repair.OpenCalls
import Mathlib.Data.List.Chain

/-!
On the path to a node of an explored context, the calls that are open at a target are nested: each
call node stands in the reached set of the call before, and the target in that of the last. A repair
removes nodes, but what stands where does not change by it.
-/
namespace Blockwise

open Context

variable {c c' : Context} {n y : NodeId} {s : SetId} {stack left : List SetId} {path : Path}
  {opened : List PathIndex}

namespace Context

def Runs (c : Context) (outer : NodeId) (s : SetId) : Prop :=
  (s = .topLevel ∧ ∃ r, c.sets[SetId.topLevel]? = some r ∧ r.first = outer) ∨
    c.links.setOfEntry outer = some s

/-- `y` stands for `n` in the reached set `s`: it is `n` itself, or the exit that `n` is the view
of. -/
structure StandsFor (c : Context) (s : SetId) (n y : NodeId) : Prop where
  node : n = y ∨ c.links.reducedOf n = some y ∧ ∀ m, c.graph.node? n = some m → m.set ≠ s
  inside : ∃ m, c.graph.node? y = some m ∧ m.set = s
  not_head : ¬ c.Heads y

/-- The second node of the pair stands in the reached set below the first. -/
def Nested (c : Context) (pair : CallPair) : Prop :=
  ∃ s y, c.Runs pair.1 s ∧ c.StandsFor s pair.2 y

theorem Runs.reachedSetFor (h : c.Sound) (hr : c.Runs n s) : c.reachedSetFor n = .ok s := by
  obtain ⟨top, htop⟩ : ∃ top, c.sets[SetId.topLevel]? = some top :=
    ⟨_, Array.getElem?_eq_getElem h.topLevel⟩
  simp only [Context.reachedSetFor, topLevel, reachedSet_eq_ok.2 htop, bind, Except.bind]
  rcases hr with ⟨rfl, r, hr, hfirst⟩ | hs
  · cases Option.some.inj (htop.symm.trans hr)
    rw [if_pos hfirst]
    rfl
  · rw [if_neg, ownerReachedSet_eq_ok.2 hs]
    intro hfirst
    have hhead : c.Heads n := ⟨SetId.topLevel, _, htop, hfirst⟩
    rw [h.entry_first hhead] at hs
    cases hs

theorem StandsFor.nodeIn (h : c.Sound) (hy : c.StandsFor s n y) : c.nodeIn s n = .ok y := by
  obtain ⟨m, hm, hset⟩ := hy.inside
  have here : ∀ start hops, c.followInto s start (hops + 1) y = .ok y := by
    intro start hops
    simp only [followInto, Graph.node, hm, Except.mapError, bind, Except.bind, hset, if_true]
    rfl
  rcases hy.node with rfl | ⟨hx, hne⟩
  · exact here n _
  · obtain ⟨mn, hmn⟩ := (h.exit hx).expanded
    have hsize : c.links.exits.size ≠ 0 := by
      intro hzero
      have hmem : (n, y) ∈ c.links.exits.entries := Table.mem_entries_iff.2 hx
      rw [List.length_eq_zero_iff.1 hzero] at hmem
      cases hmem
    obtain ⟨hops, hops_eq⟩ := Nat.exists_eq_succ_of_ne_zero hsize
    unfold Context.nodeIn
    rw [hops_eq, followInto]
    simp only [Graph.node, hmn, Except.mapError, bind, Except.bind, if_neg (hne mn hmn), hx]
    exact here n hops

end Context

namespace Shrinks

variable {roots : List NodeId} (h : c.Sound) (g : Shrinks c roots c')

include h g

theorem runs (hr : c.Runs n s) : c'.Runs n s := by
  rcases hr with ⟨rfl, r, hr, hfirst⟩ | hs
  · obtain ⟨r', hr', hfirst'⟩ := (g.evolves h).set hr
    exact Or.inl ⟨rfl, r', hr', hfirst'.trans hfirst⟩
  · exact Or.inr (by rwa [g.links h])

theorem standsFor (hy : c.StandsFor s n y) : c'.StandsFor s n y := by
  have he := g.evolves h
  obtain ⟨m, hm, hset⟩ := hy.inside
  obtain ⟨m', hm', -, hset', -⟩ := he.node hm
  refine ⟨?_, ⟨m', hm', hset'.trans hset⟩, ?_⟩
  · refine hy.node.imp_right fun ⟨hx, hne⟩ => ⟨by rwa [g.links h], fun mn hmn => ?_⟩
    obtain ⟨m₀, hm₀⟩ := (h.exit hx).expanded
    obtain ⟨m₁, hm₁, -, hsame, -⟩ := he.node hm₀
    cases Option.some.inj (hm₁.symm.trans hmn)
    rw [hsame]
    exact hne m₀ hm₀
  · rw [he.heads_iff (Graph.lt_size_of_node? hm)]
    exact hy.not_head

theorem nested {pair : CallPair} (hp : c.Nested pair) : c'.Nested pair := by
  obtain ⟨s, y, hr, hy⟩ := hp
  exact ⟨s, y, g.runs h hr, g.standsFor h hy⟩

end Shrinks

theorem Path.first_eq_ok (hfirst : path.nodes[0]? = some y) : path.first = .ok 0 := by
  unfold Path.first
  cases hnodes : path.nodes with
  | nil =>
    rw [hnodes] at hfirst
    cases hfirst
  | cons => rfl

namespace Context

/-! ### The calls that are open at a target -/

theorem Closes.mostInner (h : c.Sound) (hn : c.Closes stack n left) :
    ∃ m rest, c.graph.Live (c.links.mostInner n) m ∧ stack = m.set :: rest := by
  have follow : ∀ hops, c.links.below n < hops →
      ∃ m rest, c.graph.Live (c.links.follow hops n) m ∧ stack = m.set :: rest := by
    induction hn with
    | here hm hx =>
      intro hops hlt
      cases hops with
      | zero => omega
      | succ hops =>
        rw [Links.follow, hx]
        exact ⟨_, _, hm, rfl⟩
    | link hm hx _ ih =>
      intro hops hlt
      cases hops with
      | zero => omega
      | succ hops =>
        rw [Links.follow, hx]
        have hbelow := Links.below_lt (fun hx => (h.exit hx).lt) hx
        exact ih hops (by omega)
  exact follow _ (Nat.lt_succ_of_le (List.length_filter_le ..))

def Opened.nodeAt (path : Path) (i : PathIndex) : NodeId := (path.nodes[i]?).getD 0

theorem Opened.callState (ho : c.Opened path opened stack) :
    ∀ i ∈ opened, c.callState path i = .ok (nodeAt path i) := by
  induction ho with
  | none => exact fun i hi => absurd hi List.not_mem_nil
  | @call i n m t opened stack hi _ hl _ ih =>
    refine List.forall_mem_cons.2 ⟨?_, ih⟩
    have hentry : c.links.isBlockEntry n = true := Table.contains_eq_true_iff.2 ⟨t, hl⟩
    rw [callState_of_node hi, if_pos hentry, nodeAt, hi]
    rfl

theorem Opened.nested (h : c.Sound) {root : NodeId} (hroot : c.Runs root .topLevel)
    (ho : c.Opened path opened (s :: stack)) : ∃ innermost outer,
      opened.map (nodeAt path) ++ [root] = innermost :: outer ∧ c.Runs innermost s ∧
        (innermost :: outer).IsChain fun inner outer => c.Nested (outer, inner) := by
  generalize hst : s :: stack = whole at ho
  induction ho generalizing s stack with
  | none =>
    cases hst
    exact ⟨root, [], rfl, hroot, .singleton _⟩
  | @call i n m t opened stack hi hm hl ho ih =>
    cases hst
    obtain ⟨a, l, hal, hruns, hchain⟩ := ih rfl
    have hnode : nodeAt path i = n := by rw [nodeAt, hi]; rfl
    refine ⟨n, a :: l, by rw [List.map_cons, hnode, List.cons_append, hal], Or.inr hl,
      List.isChain_cons_cons.2
        ⟨⟨m.set, n, hruns, Or.inl rfl, ⟨m, hm.1, rfl⟩, fun hn => ?_⟩, hchain⟩⟩
    rw [h.entry_first hn] at hl
    cases hl

theorem Threads.openCalls_take {target : PathIndex}
    (ht : c.Threads [.topLevel] (path.nodes.take target) stack) : ∃ opened,
      c.links.openCalls [] (path.nodes.take target).zipIdx = .ok opened ∧
        c.Opened path opened stack := by
  refine ht.openCalls .none (k := 0) fun i n hn => ?_
  rw [Nat.zero_add]
  rw [List.getElem?_take] at hn
  split at hn
  · exact hn
  · cases hn

theorem Threads.relevantCalls (hfirst : path.nodes[0]? = some y) {target : PathIndex}
    (ht : c.Threads [.topLevel] (path.nodes.take target) stack) :
    ∃ opened, c.relevantCalls path target = .ok (0 :: opened.reverse) ∧
      c.Opened path opened stack := by
  obtain ⟨opened, hopen, ho⟩ := ht.openCalls_take
  refine ⟨opened, ?_, ho⟩
  rw [Context.relevantCalls, Path.first_eq_ok hfirst]
  simp only [hopen, Except.mapError, bind, Except.bind, pure, Except.pure]

theorem Threads.openCallNodes (h : c.Sound) {r : ReachedSet} (hr : c.sets[SetId.topLevel]? = some r)
    (hfirst : path.nodes[0]? = some r.first) {target : PathIndex}
    (ht : c.Threads [.topLevel] (path.nodes.take target) (s :: stack)) :
    ∃ calls innermost, c.openCallNodes path target = .ok calls ∧
      calls.IsChain (fun outer inner => c.Nested (outer, inner)) ∧
      calls.getLast? = some innermost ∧ c.Runs innermost s := by
  have hhead : c.Heads r.first := ⟨SetId.topLevel, r, hr, rfl⟩
  obtain ⟨opened, hcallsAt, ho⟩ := ht.relevantCalls hfirst
  obtain ⟨innermost, outer, hcalls, hruns, hchain⟩ := ho.nested h (Or.inl ⟨rfl, r, hr, rfl⟩)
  have hstart : c.callState path 0 = .ok (Opened.nodeAt path 0) := by
    have hentry : c.links.isBlockEntry r.first = false := by
      have hno : (c.links.setOfEntry r.first).isSome = false := by rw [h.entry_first hhead]; rfl
      exact hno
    have hself : c.links.mostInner r.first = r.first := by
      rw [Links.mostInner, Links.follow, h.reducedOf_first hhead]
    rw [callState_of_node hfirst, hentry, hself, Opened.nodeAt, hfirst]
    rfl
  have hmapM := mapM_eq_ok (l := 0 :: opened.reverse) (f := c.callState path)
    (g := Opened.nodeAt path) fun i hi => by
      rcases List.mem_cons.1 hi with rfl | hi
      · exact hstart
      · exact ho.callState i (List.mem_reverse.1 hi)
  have hreverse : (0 :: opened.reverse).map (Opened.nodeAt path) =
      (innermost :: outer).reverse := by
    rw [← hcalls, List.reverse_append, List.reverse_singleton, List.map_cons, List.map_reverse,
      Opened.nodeAt, hfirst]
    rfl
  refine ⟨(innermost :: outer).reverse, innermost, ?_, List.isChain_reverse.2 hchain, by simp,
    hruns⟩
  rw [Context.openCallNodes, hcallsAt, ← hreverse]
  exact hmapM

theorem nested_of_mem_zip {calls : List NodeId}
    (hc : calls.IsChain fun outer inner => c.Nested (outer, inner)) {pair : CallPair}
    (hp : pair ∈ calls.zip calls.tail) : c.Nested pair := by
  induction hc with
  | nil => cases hp
  | singleton => cases hp
  | cons_cons hab _ ih =>
    rcases List.mem_cons.1 hp with rfl | hp
    · exact hab
    · exact ih hp

theorem PathTo.first_eq (h : c.Sound) (hb : c.Bracketed) {t : NodeId} {nodes : List NodeId}
    (hp : c.PathTo t nodes) {m : Node State Tracked} (hm : c.graph.Live t m)
    (htop : m.set = .topLevel) {r : ReachedSet} (hr : c.sets[SetId.topLevel]? = some r) :
    nodes[0]? = some r.first := by
  obtain ⟨f, rest, hf, hhead⟩ := hp.heads
  obtain ⟨init, hinit, hthread⟩ := hp.threads h hb
  obtain ⟨out, ht, -⟩ := hthread m hm []
  have hset : ∃ mf, c.graph.Live f mf ∧ mf.set = .topLevel := by
    cases init with
    | nil =>
      cases hinit.symm.trans hf
      exact ⟨m, hm, htop⟩
    | cons a init =>
      cases hinit.symm.trans hf
      obtain ⟨left, hn, -⟩ := ht.cons_inv
      obtain ⟨mf, around, hlive, hleft⟩ := hn.live
      rw [hn.eq_of_unlinked (h.reducedOf_first hhead)] at hleft
      exact ⟨mf, hlive, (List.cons.inj hleft).1.symm.trans htop⟩
  obtain ⟨mf, hmf, hset⟩ := hset
  obtain ⟨r', hr', hfirst⟩ := h.first_of_heads hhead hmf
  rw [hset] at hr'
  cases Option.some.inj (hr.symm.trans hr')
  rw [hf, hfirst]
  rfl

end Context

end Blockwise
