import Blockwise.Graph.Arena
import Blockwise.Proofs.Graph.WellFormed
import Blockwise.Proofs.Outcome
import Mathlib.Tactic.SplitIfs

/-!
The operations that change a graph, one by one. Each keeps a well-formed graph well formed, and
leaves the index of every node and all tombstones alone.
-/
namespace Blockwise.Graph

variable {σ π : Type} {g g' g'' : Graph σ π} {a b i id other : NodeId} {n m : Node σ π} {p : π}

def Numbered (g : Graph σ π) : Prop := ∀ i n, g.node? i = some n → n.id = i

/-- `g'` comes from `g` by changes that leave the index of a node alone, and all of a tombstone. -/
structure Alters (g g' : Graph σ π) : Prop where
  wellFormed : g'.WellFormed
  keeps : ∀ i n, g.node? i = some n →
    ∃ n', g'.node? i = some n' ∧ n'.id = n.id ∧ (n.destroyed = true → n' = n)
  numbered : g.Numbered → g'.Numbered

theorem Alters.refl (h : g.WellFormed) : g.Alters g where
  wellFormed := h
  keeps := fun _ n hn => ⟨n, hn, rfl, fun _ => rfl⟩
  numbered := fun hid => hid

theorem Alters.trans (h : g.Alters g') (h' : g'.Alters g'') : g.Alters g'' where
  wellFormed := h'.wellFormed
  numbered := fun hid => h'.numbered (h.numbered hid)
  keeps := by
    intro i n hn
    obtain ⟨n', hn', hid, hdead⟩ := h.keeps i n hn
    obtain ⟨n'', hn'', hid', hdead'⟩ := h'.keeps i n' hn'
    refine ⟨n'', hn'', hid'.trans hid, fun hd => ?_⟩
    have hsame := hdead hd
    rw [hsame] at hdead'
    exact hdead' hd

theorem WellFormed.not_listed (h : g.WellFormed) (hn : g.node? i = some n)
    (hd : n.destroyed = true) (hm : g.node? b = some m) :
    i ∉ m.parents ∧ i ∉ m.children ∧ m.coveredBy ≠ some i ∧ i ∉ m.covers := by
  obtain ⟨hparents, hchildren, hcovered, hcovers⟩ := h.buried hn hd
  have hnode : ∀ {k}, g.node? i = some k → k = n := fun hk => Option.some.inj (hk.symm.trans hn)
  refine ⟨fun hi => ?_, fun hi => ?_, fun hi => ?_, fun hi => ?_⟩
  · obtain ⟨k, hk, hb⟩ := h.edge_iff.2 ⟨m, hm, hi⟩
    rw [hnode hk, hchildren] at hb
    exact SortedSet.not_mem_empty b hb
  · obtain ⟨k, hk, hb⟩ := h.edge_iff.1 ⟨m, hm, hi⟩
    rw [hnode hk, hparents] at hb
    exact SortedSet.not_mem_empty b hb
  · obtain ⟨k, hk, hb⟩ := h.covers_iff.2 ⟨m, hm, hi⟩
    rw [hnode hk, hcovers] at hb
    exact SortedSet.not_mem_empty b hb
  · obtain ⟨k, hk, hb⟩ := h.covers_iff.1 ⟨m, hm, hi⟩
    rw [hnode hk, hcovered] at hb
    cases hb

/-! ### Changes of records in place -/

def Maps (g : Graph σ π) (f : NodeId → Node σ π → Node σ π) (g' : Graph σ π) : Prop :=
  ∀ i, g'.node? i = (g.node? i).map (f i)

section Maps

variable {f f' : NodeId → Node σ π → Node σ π}

theorem maps_modify (g : Graph σ π) (id : NodeId) (f : Node σ π → Node σ π) :
    g.Maps (fun i n => if i = id then f n else n) (g.modify id f) := by
  intro i
  rw [node?_modify]
  by_cases h : id = i
  · simp [h]
  · simp [h, Ne.symm h]

theorem Maps.trans (hf : g.Maps f g') (hf' : g'.Maps f' g'') :
    g.Maps (fun i n => f' i (f i n)) g'' := by
  intro i
  rw [hf' i, hf i, Option.map_map]
  rfl

theorem Maps.congr (hf : g.Maps f g') (h : ∀ i n, g.node? i = some n → f i n = f' i n) :
    g.Maps f' g' := by
  intro i
  rw [hf i]
  exact Option.map_congr fun n hn => h i n hn

theorem Maps.lt_size (hf : g.Maps f g') (hi : i < g.size) : i < g'.size := by
  obtain ⟨n, hn⟩ := node?_of_lt hi
  have hn' : g'.node? i = some (f i n) := by rw [hf i, hn, Option.map_some]
  exact lt_size_of_node? hn'

theorem Maps.unique (hf : g.Maps f g') (hf' : g.Maps f g'') : g' = g'' := by
  obtain ⟨nodes'⟩ := g'
  obtain ⟨nodes''⟩ := g''
  have hnodes : nodes' = nodes'' := Array.ext_getElem? fun i => (hf i).trans (hf' i).symm
  rw [hnodes]

structure Gentle (g : Graph σ π) (f : NodeId → Node σ π → Node σ π) : Prop where
  id : ∀ i n, (f i n).id = n.id
  destroyed : ∀ i n, (f i n).destroyed = n.destroyed
  dead : ∀ i n, g.node? i = some n → n.destroyed = true → f i n = n

theorem Maps.alters (hf : g.Maps f g') (hg : g.Gentle f) (h : g.WellFormed)
    (hedge : ∀ {a b}, g'.Edge a b ↔ g'.Parent b a)
    (hcovers : ∀ {a b}, g'.Covers a b ↔ g'.CoveredBy b a) : g.Alters g' where
  wellFormed := by
    refine ⟨hedge, hcovers, fun {i n'} hn' hd => ?_⟩
    rw [hf i] at hn'
    obtain ⟨n, hn, rfl⟩ := Option.map_eq_some_iff.1 hn'
    rw [hg.destroyed] at hd
    rw [hg.dead i n hn hd]
    exact h.buried hn hd
  keeps := by
    intro i n hn
    refine ⟨f i n, ?_, hg.id i n, hg.dead i n hn⟩
    rw [hf i, hn, Option.map_some]
  numbered := by
    intro hid i n' hn'
    rw [hf i] at hn'
    obtain ⟨n, hn, rfl⟩ := Option.map_eq_some_iff.1 hn'
    exact (hg.id i n).trans (hid i n hn)

theorem Maps.edge_iff (hf : g.Maps f g') (h : g.WellFormed)
    (hchildren : ∀ i n, (f i n).children = n.children)
    (hparents : ∀ i n, (f i n).parents = n.parents) : g'.Edge a b ↔ g'.Parent b a := by
  have hedge : g'.Edge a b ↔ g.Edge a b := by
    unfold Edge
    rw [hf a]
    cases g.node? a <;> simp [hchildren]
  have hparent : g'.Parent b a ↔ g.Parent b a := by
    unfold Parent
    rw [hf b]
    cases g.node? b <;> simp [hparents]
  rw [hedge, hparent, h.edge_iff]

theorem Maps.covers_iff (hf : g.Maps f g') (h : g.WellFormed)
    (hcovers : ∀ i n, (f i n).covers = n.covers)
    (hcovered : ∀ i n, (f i n).coveredBy = n.coveredBy) : g'.Covers a b ↔ g'.CoveredBy b a := by
  have hcover : g'.Covers a b ↔ g.Covers a b := by
    unfold Covers
    rw [hf a]
    cases g.node? a <;> simp [hcovers]
  have hcoveredBy : g'.CoveredBy b a ↔ g.CoveredBy b a := by
    unfold CoveredBy
    rw [hf b]
    cases g.node? b <;> simp [hcovered]
  rw [hcover, hcoveredBy, h.covers_iff]

theorem Maps.isDestroyed_eq (hf : g.Maps f g') (hg : g.Gentle f) (i : NodeId) :
    g'.isDestroyed i = g.isDestroyed i := by
  unfold isDestroyed
  rw [hf i]
  cases g.node? i with
  | none => rfl
  | some n => exact hg.destroyed i n

end Maps

theorem Live.ne_of_dead (hm : g.Live b m) (hn : g.node? i = some n) (hd : n.destroyed = true) :
    i ≠ b := by
  rintro rfl
  rw [Option.some.inj (hn.symm.trans hm.1), hm.2] at hd
  cases hd

/-! ### Edges -/

def joined (a b i : NodeId) (n : Node σ π) : Node σ π :=
  { n with
    children := if i = a then n.children.insert b else n.children
    parents := if i = b then n.parents.insert a else n.parents }

theorem addEdge_spec (h : g.addEdge a b = .ok g') :
    (∃ n, g.Live a n) ∧ (∃ n, g.Live b n) ∧ g.Maps (joined a b) g' := by
  unfold addEdge at h
  obtain ⟨nb, hb, h⟩ := except_bind_eq_ok.1 h
  obtain ⟨na, ha, h⟩ := except_bind_eq_ok.1 h
  cases h
  refine ⟨⟨na, liveNode_eq_ok.1 ha⟩, ⟨nb, liveNode_eq_ok.1 hb⟩, ?_⟩
  refine ((maps_modify _ _ _).trans (maps_modify _ _ _)).congr fun i n _ => ?_
  unfold joined
  split_ifs <;> rfl

theorem gentle_joined (ha : ∃ n, g.Live a n) (hb : ∃ n, g.Live b n) : g.Gentle (joined a b) where
  id := fun _ _ => rfl
  destroyed := fun _ _ => rfl
  dead := by
    intro i n hn hd
    obtain ⟨na, ha⟩ := ha
    obtain ⟨nb, hb⟩ := hb
    simp [joined, ha.ne_of_dead hn hd, hb.ne_of_dead hn hd]

theorem alters_addEdge (h : g.WellFormed) (he : g.addEdge a b = .ok g') : g.Alters g' := by
  obtain ⟨⟨na, ha⟩, ⟨nb, hb⟩, hf⟩ := addEdge_spec he
  have hedge : ∀ {x y}, g'.Edge x y ↔ g.Edge x y ∨ x = a ∧ y = b := by
    intro x y
    unfold Edge
    rw [hf x]
    by_cases hx : x = a
    · subst hx
      simp [ha.1, joined, or_comm]
    · cases g.node? x <;> simp [joined, hx]
  have hparent : ∀ {x y}, g'.Parent y x ↔ g.Parent y x ∨ x = a ∧ y = b := by
    intro x y
    unfold Parent
    rw [hf y]
    by_cases hy : y = b
    · subst hy
      simp [hb.1, joined, or_comm]
    · cases g.node? y <;> simp [joined, hy]
  refine hf.alters (gentle_joined ⟨na, ha⟩ ⟨nb, hb⟩) h ?_
    (hf.covers_iff h (fun _ _ => rfl) fun _ _ => rfl)
  intro x y
  rw [hedge, hparent, h.edge_iff]

/-! ### Precisions -/

def priced (id : NodeId) (p : π) (i : NodeId) (n : Node σ π) : Node σ π :=
  { n with precision := if i = id then p else n.precision }

theorem setPrecision_spec (h : g.setPrecision id p = .ok g') :
    (∃ n, g.Live id n) ∧ g.Maps (priced id p) g' := by
  unfold setPrecision at h
  obtain ⟨n, hn, h⟩ := except_bind_eq_ok.1 h
  cases h
  refine ⟨⟨n, liveNode_eq_ok.1 hn⟩, (maps_modify _ _ _).congr fun i n _ => ?_⟩
  unfold priced
  split_ifs <;> rfl

theorem gentle_priced (hn : ∃ n, g.Live id n) : g.Gentle (priced id p) where
  id := fun _ _ => rfl
  destroyed := fun _ _ => rfl
  dead := by
    intro i n hi hd
    obtain ⟨m, hm⟩ := hn
    simp [priced, hm.ne_of_dead hi hd]

theorem alters_setPrecision (h : g.WellFormed) (hp : g.setPrecision id p = .ok g') :
    g.Alters g' := by
  obtain ⟨hn, hf⟩ := setPrecision_spec hp
  exact hf.alters (gentle_priced hn) h (hf.edge_iff h (fun _ _ => rfl) fun _ _ => rfl)
    (hf.covers_iff h (fun _ _ => rfl) fun _ _ => rfl)

/-! ### Covers -/

def coverTaken (id other i : NodeId) (n : Node σ π) : Node σ π :=
  { n with
    coveredBy := if i = id then some other else n.coveredBy
    covers := if i = other then n.covers.insert id else n.covers.erase id }

theorem WellFormed.maps_freed (h : g.WellFormed) (hn : g.Live id n) :
    g.Maps (fun _ m => { m with covers := m.covers.erase id }) (match n.coveredBy with
      | some old => g.modify old fun c => { c with covers := c.covers.erase id }
      | none => g) := by
  have hother : ∀ {i m}, g.node? i = some m → n.coveredBy ≠ some i →
      m.covers.erase id = m.covers := by
    intro i m hm hi
    refine SortedSet.erase_of_not_mem fun hid => hi ?_
    obtain ⟨n', hn', hcovered⟩ := h.covers_iff.1 ⟨m, hm, hid⟩
    rwa [Option.some.inj (hn'.symm.trans hn.1)] at hcovered
  cases hold : n.coveredBy with
  | none =>
    intro i
    cases hi : g.node? i with
    | none => rfl
    | some m =>
      have hm := hother hi (by simp [hold])
      simp [hm]
  | some old =>
    refine (maps_modify _ _ _).congr fun i m hi => ?_
    by_cases hio : i = old
    · simp [hio]
    · have hm := hother hi (by simpa [hold] using Ne.symm hio)
      simp [hio, hm]

theorem cover_spec (h : g.WellFormed) (hc : g.cover id other = .ok g') :
    (∃ n, g.Live id n) ∧ (∃ n, g.Live other n) ∧ g.Maps (coverTaken id other) g' := by
  unfold cover at hc
  obtain ⟨m, hm, hc⟩ := except_bind_eq_ok.1 hc
  obtain ⟨n, hn, hc⟩ := except_bind_eq_ok.1 hc
  have hn := liveNode_eq_ok.1 hn
  cases hc
  refine ⟨⟨n, hn⟩, ⟨m, liveNode_eq_ok.1 hm⟩, ?_⟩
  refine (((h.maps_freed hn).trans (maps_modify _ _ _)).trans (maps_modify _ _ _)).congr
    fun i k _ => ?_
  unfold coverTaken
  split_ifs <;> simp [SortedSet.insert_erase]

theorem gentle_coverTaken (h : g.WellFormed) (hn : ∃ n, g.Live id n) (hm : ∃ m, g.Live other m) :
    g.Gentle (coverTaken id other) where
  id := fun _ _ => rfl
  destroyed := fun _ _ => rfl
  dead := by
    intro i k hk hd
    obtain ⟨n, hn⟩ := hn
    obtain ⟨m, hm⟩ := hm
    have hempty : k.covers.erase id = k.covers := by
      rw [(h.buried hk hd).2.2.2]
      exact SortedSet.erase_of_not_mem (SortedSet.not_mem_empty id)
    simp [coverTaken, hn.ne_of_dead hk hd, hm.ne_of_dead hk hd, hempty]

theorem alters_cover (h : g.WellFormed) (hc : g.cover id other = .ok g') : g.Alters g' := by
  obtain ⟨⟨n, hn⟩, ⟨m, hm⟩, hf⟩ := cover_spec h hc
  have hcovers : ∀ {x y}, g'.Covers x y ↔ if y = id then x = other else g.Covers x y := by
    intro x y
    unfold Covers
    rw [hf x]
    by_cases hx : x = other
    · subst hx
      by_cases hy : y = id <;> simp [hm.1, coverTaken, hy]
    · by_cases hy : y = id <;> cases g.node? x <;> simp [coverTaken, hx, hy]
  have hcovered : ∀ {x y}, g'.CoveredBy y x ↔ if y = id then x = other else g.CoveredBy y x := by
    intro x y
    unfold CoveredBy
    rw [hf y]
    by_cases hy : y = id
    · subst hy
      simp [hn.1, coverTaken, eq_comm]
    · cases g.node? y <;> simp [coverTaken, hy]
  refine hf.alters (gentle_coverTaken h ⟨n, hn⟩ ⟨m, hm⟩) h
    (hf.edge_iff h (fun _ _ => rfl) fun _ _ => rfl) ?_
  intro x y
  rw [hcovers, hcovered, h.covers_iff]

/-! ### Nodes that come and go -/

theorem alters_addNode (h : g.WellFormed) (state : σ) (set : SetId) :
    g.Alters (g.addNode state p set) where
  wellFormed := h.addNode
  keeps := by
    intro i n hn
    exact ⟨n, node?_addNode_eq_some_iff.2 (Or.inr hn), rfl, fun _ => rfl⟩
  numbered := by
    intro hid i n hn
    rcases node?_addNode_eq_some_iff.1 hn with ⟨rfl, rfl⟩ | hn
    · rfl
    · exact hid i n hn

theorem maps_remove : g.Maps (fun i n => if i = id then n.bury else n.detach id) (g.remove id) := by
  intro i
  rw [node?_remove]
  by_cases h : id = i
  · simp [h]
  · simp [h, Ne.symm h]

theorem WellFormed.removed_tombstone (h : g.WellFormed) (id : NodeId) (hn : g.node? i = some n)
    (hd : n.destroyed = true) : n.bury = n ∧ n.detach id = n := by
  obtain ⟨h₁, h₂, h₃, h₄⟩ := h.buried hn hd
  obtain ⟨_, _, _, _, _, _, _, _, _⟩ := n
  cases h₁
  cases h₂
  cases h₃
  cases h₄
  cases hd
  exact ⟨rfl, rfl⟩

theorem alters_destroy (h : g.WellFormed) (hd : g.destroy id = .ok g') : g.Alters g' := by
  unfold destroy at hd
  obtain ⟨n, -, hd⟩ := except_bind_eq_ok.1 hd
  cases hd
  split
  · exact .refl h
  · have hcut : ∀ i, (g.remove id).node? i =
        (g.node? i).map (Graph.cutOut (· = id) (fun _ p => p) i) := by
      intro i
      rw [node?_remove_eq_pruned]
      congr 1
      funext n
      by_cases hi : i = id <;> simp [Graph.cutOut, pruned, hi, Node.bury]
    have hkind : ∀ i (n : Node σ π), (if i = id then n.bury else n.detach id).id = n.id := by
      intro i n
      split <;> rfl
    refine ⟨h.cutOut hcut, fun i n hn => ⟨_, ?_, hkind i n, fun hdead => ?_⟩,
      fun hid i n' hn' => ?_⟩
    · rw [maps_remove i, hn, Option.map_some]
    · obtain ⟨hbury, hdetach⟩ := h.removed_tombstone id hn hdead
      rw [hbury, hdetach, ite_self]
    · rw [maps_remove i] at hn'
      obtain ⟨n, hn, rfl⟩ := Option.map_eq_some_iff.1 hn'
      exact (hkind i n).trans (hid i n hn)

theorem live_addNode_iff {state : σ} {set : SetId} :
    (∃ n, (g.addNode state p set).Live i n) ↔ i = g.size ∨ ∃ n, g.Live i n := by
  constructor
  · rintro ⟨n, hn, hd⟩
    rcases node?_addNode_eq_some_iff.1 hn with ⟨hi, -⟩ | hn
    · exact Or.inl hi
    · exact Or.inr ⟨n, hn, hd⟩
  · rintro (rfl | ⟨n, hn, hd⟩)
    · exact ⟨_, node?_addNode_eq_some_iff.2 (Or.inl ⟨rfl, rfl⟩), rfl⟩
    · exact ⟨n, node?_addNode_eq_some_iff.2 (Or.inr hn), hd⟩

theorem isDestroyed_destroy (hd : g.destroy id = .ok g') (i : NodeId) :
    g'.isDestroyed i = (decide (i = id) || g.isDestroyed i) := by
  unfold destroy node at hd
  cases hn : g.node? id with
  | none => simp [hn, bind, Except.bind] at hd
  | some n =>
    rw [hn] at hd
    cases hd
    cases hdead : n.destroyed with
    | true =>
      by_cases hi : i = id
      · subst hi
        simp [isDestroyed, hn, hdead]
      · simp [hi]
    | false =>
      simp only [Bool.false_eq_true, if_false, isDestroyed, maps_remove i]
      by_cases hi : i = id
      · subst hi
        simp [hn, Node.bury]
      · cases g.node? i <;> simp [hi, Node.detach]

end Blockwise.Graph

namespace Blockwise.GraphChange

variable {σ π : Type} {g g' : Graph σ π}

theorem alters_apply (h : g.WellFormed) {change : GraphChange σ π}
    (hg : change.apply g = .ok g') : g.Alters g' := by
  cases change with
  | addNode state precision set =>
    cases hg
    exact Graph.alters_addNode h state set
  | addEdge parent child => exact Graph.alters_addEdge h hg
  | setPrecision id precision => exact Graph.alters_setPrecision h hg
  | cover id other => exact Graph.alters_cover h hg
  | destroy id => exact Graph.alters_destroy h hg

end Blockwise.GraphChange
