import Blockwise.Proofs.Repair.Parts
import Blockwise.Proofs.Repair.Stale

/-!
A repair as a whole. Whatever its outcome, it shrinks the context and then drops the links of
destroyed nodes; when it succeeds, the report lists the removed nodes and nothing is owed.
-/
namespace Blockwise

open Context

variable {c c' c'' : Context} {s : SetId} {node n x : NodeId} {path : Path}
  {report report' report'' : Report}

def Report.roots (report : Report) : List NodeId := report.removals.map (·.2)

namespace Context

theorem followInto_cases {start : NodeId} {hops : Nat} {cur : NodeId}
    (hn : c.followInto s start hops cur = .ok n) :
    n = start ∨ n = cur ∨ ∃ e, c.links.reducedOf e = some n := by
  induction hops generalizing cur with
  | zero => cases hn
  | succ hops ih =>
    rw [followInto] at hn
    obtain ⟨m, -, hn⟩ := except_bind_eq_ok.1 hn
    by_cases hset : m.set = s
    · rw [if_pos hset] at hn
      cases hn
      exact Or.inr (Or.inl rfl)
    · rw [if_neg hset] at hn
      cases hx : c.links.reducedOf cur with
      | none =>
        rw [hx] at hn
        cases hn
        exact Or.inl rfl
      | some exit =>
        rw [hx] at hn
        rcases ih hn with h | h | h
        · exact Or.inl h
        · exact Or.inr (Or.inr ⟨cur, h ▸ hx⟩)
        · exact Or.inr (Or.inr h)

theorem nodeIn_eq_self (hx : c.links.reducedOf node = none) (hn : c.nodeIn s node = .ok n) :
    n = node := by
  unfold nodeIn at hn
  rw [followInto] at hn
  obtain ⟨m, -, hn⟩ := except_bind_eq_ok.1 hn
  by_cases hset : m.set = s
  · rw [if_pos hset] at hn
    cases hn
    rfl
  · rw [if_neg hset, hx] at hn
    cases hn
    rfl

end Context

/-- A part of a repair that removes some of the nodes in `asked`, or exits behind them, and settles
what it owes. -/
def Repairs (c : Context) (report : Report) (asked : NodeId → Prop) (report' : Report)
    (c' : Context) : Prop :=
  ∃ roots, Shrinks c roots c' ∧ report'.roots = report.roots ++ roots ∧
    (∀ n ∈ roots, asked n ∨ ∃ e, c.links.reducedOf e = some n) ∧
    (c.Faithful → c.Owed [] (fun _ => False) → c'.Owed [] fun _ => False)

namespace Repairs

variable {asked asked' : NodeId → Prop}

theorem refl : Repairs c report asked report c :=
  ⟨[], .start, by simp, by simp, fun _ => id⟩

theorem sound (h : c.Sound) (t : Repairs c report asked report' c') : c'.Sound := by
  obtain ⟨roots, g, -⟩ := t
  exact g.sound h

theorem links (h : c.Sound) (t : Repairs c report asked report' c') : c'.links = c.links := by
  obtain ⟨roots, g, -⟩ := t
  exact g.links h

theorem imp (t : Repairs c report asked report' c') (ha : ∀ n, asked n → asked' n) :
    Repairs c report asked' report' c' := by
  obtain ⟨roots, g, hr, hroots, ho⟩ := t
  exact ⟨roots, g, hr, fun n hn => (hroots n hn).imp_left (ha n), ho⟩

theorem trans (h : c.Sound) (t : Repairs c report asked report' c')
    (t' : Repairs c' report' asked report'' c'') : Repairs c report asked report'' c'' := by
  have hl := t.links h
  obtain ⟨roots, g, hr, hroots, ho⟩ := t
  obtain ⟨roots', g', hr', hroots', ho'⟩ := t'
  refine ⟨roots ++ roots', g.trans g', ?_, fun n hn => ?_, fun hf hc => ?_⟩
  · rw [hr', hr, List.append_assoc]
  · rcases List.mem_append.1 hn with hn | hn
    · exact hroots n hn
    · rw [← hl]
      exact hroots' n hn
  · exact ho' (g.faithful h hf) (ho hf hc)

theorem shrinks (t : Repairs c report asked report' c') : ∃ roots, Shrinks c roots c' := by
  obtain ⟨roots, g, -⟩ := t
  exact ⟨roots, g⟩

theorem exists_node (h : c.Sound) (t : Repairs c report asked report' c')
    (hn : ∃ m, c.graph.node? n = some m) : ∃ m, c'.graph.node? n = some m := by
  obtain ⟨roots, g, -⟩ := t
  obtain ⟨m, hm⟩ := hn
  obtain ⟨m', hm', -⟩ := (g.evolves h).node hm
  exact ⟨m', hm'⟩

theorem heads_iff (h : c.Sound) (t : Repairs c report asked report' c')
    (hn : ∃ m, c.graph.node? n = some m) : c'.Heads n ↔ c.Heads n := by
  obtain ⟨roots, g, -⟩ := t
  obtain ⟨m, hm⟩ := hn
  exact (g.evolves h).heads_iff (Graph.lt_size_of_node? hm)

theorem of_keeps (h : c.Sound) (k : c.Keeps c') (hr : report'.removals = report.removals) :
    Repairs c report asked report' c' := by
  refine ⟨[], k.1, by simp [Report.roots, hr], by simp, fun _ ho => ?_⟩
  refine k.1.owed h ho (fun {n m} hm hlost => ?_) (fun _ => id) (fun _ => id)
  obtain ⟨m', hm'⟩ := k.2 n m hm
  exact absurd hm' (hlost m')

end Repairs

theorem removeCachedSubtree_spec (h : c.Sound) (fuel : Nat) (outer node : NodeId)
    (increments : List (Increment Tracked)) (report : Report) :
    Ensures (removeCachedSubtree fuel outer node increments report) c
      (fun report' c' => Repairs c report (· = node) report' c' ∧
        (c.links.reducedOf node = none → ¬ c.Heads node → ∀ m, ¬ c'.graph.Live node m))
      (fun _ c' => ∃ roots, Shrinks c roots c') := by
  refine ensures_removeCachedSubtree (fun _ => ⟨[], .start⟩) (fun {s n} hn hgone => ?_)
    fun {s r n key adjustment} hread => ?_
  · refine ⟨.of_keeps h (.refl c) rfl, fun hx _ => ?_⟩
    rw [← nodeIn_eq_self hx hn]
    exact Graph.dead_iff.2 hgone
  · have hstands : c.Stands s key := hread.stands fun hl => (h.call hl).answers
    refine (Action.removeFromSet_spec h.toStructured h.results hread.reached hstands report).imp
      (fun report' d hd => ?_) (fun _ _ hd => ⟨[], hd.1⟩)
    have g := hd.shrinks
    refine (removeStaleExpansions_spec fuel ⟨[s], report'⟩ (g.sound h)).imp
      (fun report'' d' hd' => ?_) (fun _ _ g' => ⟨_, g.trans g'⟩)
    obtain ⟨g', hremovals, ho⟩ := hd'
    have hasked : n = node ∨ ∃ e, c.links.reducedOf e = some n := by
      rcases followInto_cases hread.inside with he | he | he
      · exact Or.inl he
      · exact Or.inl he
      · exact Or.inr he
    refine ⟨⟨[n], g.trans g', ?_, by simpa using hasked, fun hf hc => ?_⟩, fun hx hhead => ?_⟩
    · rw [Report.roots, hremovals, hd.removals]
      simp [Report.roots]
    · refine ho (g.faithful h hf) (g.owed h hc (fun hm hlost => ?_) (by simp) (fun _ => id))
      exact List.mem_singleton.2 (hd.loses.only hm hlost)
    · obtain ⟨m, hm⟩ := hread.live
      obtain ⟨m', hm', -⟩ := (g.evolves h).node hm.1
      rw [← nodeIn_eq_self hx hread.inside] at hhead ⊢
      exact g'.dead (g.sound h) ⟨m', hm'⟩ (hd.loses.gone hhead)

theorem removePair_spec (h : c.Sound) (fuel : Nat) (innermost : NodeId) (targetParents : IdSet)
    (increments : List (Increment Tracked)) (report : Report) (pair : CallPair) :
    Ensures (removePair fuel innermost targetParents increments report pair) c
      (fun report' c' => Repairs c report (· = pair.2) report' c')
      (fun _ c' => ∃ roots, Shrinks c roots c') := by
  simp only [removePair, ensures_bind, ensures_liftAction]
  refine Action.poll_spec.imp (fun _ d hd => ?_) (fun _ d hd => ⟨[], hd.2 ▸ .start⟩)
  obtain ⟨shutdown, rfl⟩ := hd
  have k : c.Keeps { c with shutdown } := (Keeps.refl c).quiet c.statistics shutdown
  simp only [ensures_get]
  rw [ensures_liftFault]
  refine ⟨fun refines _ => ?_, fun _ _ => ⟨[], k.1⟩⟩
  refine (removeCachedSubtree_spec (k.1.sound h) fuel pair.1 pair.2 _ report).imp
    (fun report' d t => ?_) (fun _ d g => ?_)
  · exact (Repairs.of_keeps h k rfl).trans h t.1
  · obtain ⟨roots, g⟩ := g
    exact ⟨_, k.1.trans g⟩

def Path.EndsAt (path : Path) (n : NodeId) : Prop :=
  ∃ element, path.last = .ok element ∧ path.reachedNode element = .ok n

theorem removePathEnd_spec (h : c.Sound) (path : Path) (report : Report) :
    Ensures (removePathEnd path report) c
      (fun report' c' => Repairs c report path.EndsAt report' c' ∧
        ∀ n, path.EndsAt n → ¬ c.Heads n → ∀ m, ¬ c'.graph.Live n m)
      (fun _ c' => c' = c) := by
  simp only [removePathEnd, ensures_bind]
  rw [ensures_liftExcept]
  refine ⟨fun element helement => ?_, fun _ _ => rfl⟩
  rw [ensures_liftExcept]
  refine ⟨fun last hlast => ?_, fun _ _ => rfl⟩
  have hend : ∀ n, path.EndsAt n ↔ n = last := by
    intro n
    constructor
    · rintro ⟨element', he, hn⟩
      cases helement.symm.trans he
      cases hlast.symm.trans hn
      rfl
    · rintro rfl
      exact ⟨element, helement, hlast⟩
  simp only [ensures_get, ensures_ite, ensures_pure]
  refine ⟨fun hgone => ⟨.refl, fun n hn _ => ?_⟩, fun _ => ?_⟩
  · rw [(hend n).1 hn]
    exact Graph.dead_iff.2 hgone
  have hr := Array.getElem?_eq_getElem h.topLevel
  rw [ensures_bind]
  refine (Action.removeSubtree_topLevel h.toStructured h.results hr).imp (fun _ d hd => ?_)
    (fun _ _ => id)
  have rm := hd.1
  have g : Shrinks c [last] d := Shrinks.start.remove rm
  refine ⟨⟨[last], g, by simp [Report.roots], by simp [hend], fun _ ho => ?_⟩, fun n hn hhead => ?_⟩
  · -- exits belong to blocks, so none of them was lost
    have hd : d.Owed [.topLevel] fun _ => False := g.owed h ho
      (fun hm hlost => List.mem_singleton.2 (rm.set_of_lost h.toStructured hm hlost)) (by simp)
      (fun _ => id)
    intro e x m k hx hm hk hdead
    rcases hd e x m k hx hm hk hdead with htop | hno
    · obtain ⟨k', hk', hpos⟩ := ((g.sound h).exit hx).exit
      cases Option.some.inj (hk.symm.trans hk')
      rw [List.mem_singleton.1 htop] at hpos
      exact absurd hpos (Nat.lt_irrefl 0)
    · exact hno.elim
  · rw [(hend n).1 hn] at hhead ⊢
    exact rm.not_live hhead

theorem removePairs_spec (h : c.Sound) (fuel : Nat) (innermost : NodeId) (targetParents : IdSet)
    (increments : List (Increment Tracked)) {pairs : List CallPair} (hp : c.PairsCall pairs)
    (report : Report) :
    Ensures (pairs.foldlM (removePair fuel innermost targetParents increments) report) c
      (fun report' c' => Repairs c report c.Calls report' c')
      (fun _ c' => ∃ roots, Shrinks c roots c') := by
  refine (Ensures.foldlM (I := fun rest report' d => Repairs c report c.Calls report' d ∧
    c.PairsCall rest) (fun pair rest report' d hI => ?_) ⟨.refl, hp⟩).imp
      (fun _ _ hd => hd.1) (fun _ _ => id)
  obtain ⟨t, hrest⟩ := hI
  obtain ⟨hpair, hrest⟩ := List.forall_mem_cons.1 hrest
  refine (removePair_spec (t.sound h) fuel innermost targetParents increments report' pair).imp
    (fun report'' d' t' => ⟨t.trans h (t'.imp fun n hn => hn ▸ hpair), hrest⟩) (fun _ d' g' => ?_)
  obtain ⟨roots, g, -⟩ := t
  obtain ⟨roots', g'⟩ := g'
  exact ⟨_, g.trans g'⟩

structure Repaired (c : Context) (path : Path) (t : NodeId) (report : Report) (c' : Context) :
    Prop where
  repairs : Repairs c {} (fun n => c.Calls n ∨ n = t ∨ path.EndsAt n) report c'
  target : c.links.reducedOf t = none → ¬ c.Heads t → ∀ m, ¬ c'.graph.Live t m
  pathEnd : ∀ n, path.EndsAt n → ¬ c.Heads n → (∃ m, c.graph.node? n = some m) →
    ∀ m, ¬ c'.graph.Live n m

theorem removeScheduled_spec (h : c.Sound) (fuel : Nat) (path : Path) {t : NodeId}
    (ht : ∃ m, c.graph.node? t = some m) (innermost : NodeId)
    (increments : List (Increment Tracked)) {pairs : List CallPair} {d : Context} (k : c.Keeps d)
    (hp : d.PairsCall pairs) (hremovals : report.removals = []) :
    Ensures (removeScheduled fuel path t innermost increments pairs report) d
      (fun report c' => Repaired c path t report c') (fun _ c' => ∃ roots, Shrinks c roots c') := by
  have hd := k.1.sound h
  simp only [removeScheduled, ensures_bind, ensures_get]
  rw [ensures_liftFault]
  refine ⟨fun n _ => ?_, fun _ _ => ⟨[], k.1⟩⟩
  refine (removePairs_spec hd fuel innermost n.parents increments hp report).imp
    (fun r₁ d₁ t₁ => ?_) (fun _ _ g => g.imp fun _ g => k.1.trans g)
  have hc₁ : Repairs c {} (fun n => c.Calls n ∨ n = t ∨ path.EndsAt n) r₁ d₁ := by
    refine (Repairs.of_keeps h k hremovals).trans h (t₁.imp fun n hn => Or.inl ?_)
    unfold Calls at hn ⊢
    rwa [k.1.links h] at hn
  rw [ensures_liftAction]
  refine Action.poll_spec.imp (fun _ d₂ hd₂ => ?_) (fun _ d₂ hd₂ => hd₂.2 ▸ hc₁.shrinks)
  obtain ⟨shutdown, rfl⟩ := hd₂
  have k₁ : d₁.Keeps { d₁ with shutdown } := (Keeps.refl d₁).quiet d₁.statistics shutdown
  have hc₂ : Repairs c {} _ r₁ { d₁ with shutdown } := hc₁.trans h (.of_keeps (hc₁.sound h) k₁ rfl)
  refine (removeCachedSubtree_spec (hc₂.sound h) fuel innermost t increments r₁).imp
    (fun r₃ d₃ t₃ => ?_) (fun _ _ g => ?_)
  · have hc₃ := hc₂.trans h (t₃.1.imp fun n hn => Or.inr (Or.inl hn))
    have hd₃ := hc₃.sound h
    rw [ensures_liftAction]
    refine (removePathEnd_spec hd₃ path r₃).imp (fun r₄ d₄ t₄ => ?_)
      (fun _ d₄ hd₄ => hd₄ ▸ hc₃.shrinks)
    obtain ⟨roots, g, -⟩ := id t₄.1
    refine ⟨hc₃.trans h (t₄.1.imp fun n hn => Or.inr (Or.inr hn)), fun hx hhead => ?_,
      fun n hn hhead hex => ?_⟩
    · refine g.dead hd₃ (hc₃.exists_node h ht) (t₃.2 ?_ ?_)
      · rwa [hc₂.links h]
      · rwa [hc₂.heads_iff h ht]
    · refine t₄.2 n hn ?_
      rwa [hc₃.heads_iff h hex]
  · obtain ⟨roots, g₂⟩ := hc₂.shrinks
    exact g.imp' _ fun _ g => g₂.trans g

theorem removeTarget_spec (h : c.Sound) (fuel : Nat) (path : Path) (target : PathIndex)
    {t : NodeId} (ht : ∃ m, c.graph.node? t = some m) (increments : List (Increment Tracked)) :
    Ensures (removeTarget fuel path target t increments) c
      (fun report c' => Repaired c path t report c') (fun _ c' => ∃ roots, Shrinks c roots c') := by
  refine ensures_removeTarget
    (I := fun _ hits d => c.Keeps d ∧ d.PairsCall hits.1 ∧ hits.2.removals = [])
    (fun _ _ => ⟨[], .start⟩) (fun hcalls _ => ?_) (fun hcalls _ => ?_)
    fun {_ innermost _ _} _ _ hI => ?_
  · exact ⟨.refl c, pairsCall_zip (openCallNodes_call hcalls), rfl⟩
  · exact (Action.ensureExactHits_spec h path target increments
      (pairsCall_zip (openCallNodes_call hcalls)) _).imp (fun _ _ => id) (fun _ _ k => ⟨[], k.1⟩)
  · exact removeScheduled_spec h fuel path ht innermost increments hI.1 hI.2.1 hI.2.2

end Blockwise
