import Blockwise.Graph.Basic
import Mathlib.Data.List.Perm.Subperm

/-!
Well-formed graphs. An edge is recorded at both of its ends, and so is a cover; tombstones have
neither. Each change of a graph is described by the nodes that are found in it afterwards.
-/
namespace Blockwise.Graph

variable {σ π : Type} {g g' : Graph σ π} {id a b : NodeId} {n n' : Node σ π}

def Live (g : Graph σ π) (id : NodeId) (n : Node σ π) : Prop :=
  g.node? id = some n ∧ n.destroyed = false

theorem liveNode_eq_ok : g.liveNode id = .ok n ↔ g.Live id n := liveNode_eq_ok_iff

theorem isDestroyed_eq_false : g.isDestroyed id = false ↔ ∃ n, g.Live id n := by
  simp only [isDestroyed_eq_false_iff, liveNode_eq_ok]

theorem dead_iff : (∀ n, ¬ g.Live id n) ↔ g.isDestroyed id = true := by
  rw [← Bool.not_eq_false, isDestroyed_eq_false, not_exists]

theorem Live.isDestroyed (h : g.Live id n) : g.isDestroyed id = false :=
  isDestroyed_eq_false.2 ⟨n, h⟩

theorem Live.unique (h : g.Live id n) (h' : g.Live id n') : n' = n :=
  Option.some.inj (h'.1.symm.trans h.1)

theorem lt_size_of_node? (h : g.node? id = some n) : id < g.size := by
  unfold node? at h
  exact (Array.getElem?_eq_some_iff.1 h).1

theorem node?_of_lt (h : id < g.size) : ∃ n, g.node? id = some n :=
  ⟨_, Array.getElem?_eq_getElem h⟩

theorem Live.lt_size (h : g.Live id n) : id < g.size := lt_size_of_node? h.1

theorem node?_size (g : Graph σ π) : g.node? g.size = none := by
  simp [node?, size]

def Edge (g : Graph σ π) (a b : NodeId) : Prop := ∃ n, g.node? a = some n ∧ b ∈ n.children

def Parent (g : Graph σ π) (b a : NodeId) : Prop := ∃ n, g.node? b = some n ∧ a ∈ n.parents

def Covers (g : Graph σ π) (a b : NodeId) : Prop := ∃ n, g.node? a = some n ∧ b ∈ n.covers

def CoveredBy (g : Graph σ π) (b a : NodeId) : Prop :=
  ∃ n, g.node? b = some n ∧ n.coveredBy = some a

structure WellFormed (g : Graph σ π) : Prop where
  edge_iff : ∀ {a b}, g.Edge a b ↔ g.Parent b a
  covers_iff : ∀ {a b}, g.Covers a b ↔ g.CoveredBy b a
  buried : ∀ {id n}, g.node? id = some n → n.destroyed = true →
    n.parents = ∅ ∧ n.children = ∅ ∧ n.coveredBy = none ∧ n.covers = ∅

namespace WellFormed

variable (h : g.WellFormed)

include h

theorem live_of_parent (hp : g.Parent b a) : ∃ n, g.Live b n := by
  obtain ⟨n, hn, ha⟩ := hp
  cases hd : n.destroyed with
  | false => exact ⟨n, hn, hd⟩
  | true =>
    rw [(h.buried hn hd).1] at ha
    exact absurd ha (SortedSet.not_mem_empty a)

theorem live_of_edge (he : g.Edge a b) : ∃ n, g.Live a n := by
  obtain ⟨n, hn, hb⟩ := he
  cases hd : n.destroyed with
  | false => exact ⟨n, hn, hd⟩
  | true =>
    rw [(h.buried hn hd).2.1] at hb
    exact absurd hb (SortedSet.not_mem_empty b)

theorem live_of_coveredBy (hc : g.CoveredBy b a) : ∃ n, g.Live b n := by
  obtain ⟨n, hn, ha⟩ := hc
  cases hd : n.destroyed with
  | false => exact ⟨n, hn, hd⟩
  | true =>
    rw [(h.buried hn hd).2.2.1] at ha
    cases ha

end WellFormed

theorem wellFormed_empty : (∅ : Graph σ π).WellFormed where
  edge_iff := by simp [Edge, Parent]
  covers_iff := by simp [Covers, CoveredBy]
  buried := by simp

/-! ### A new node without edges -/

section AddNode

variable {s : σ} {p : π} {set : SetId}

theorem node?_addNode_eq_some_iff : (g.addNode s p set).node? id = some n ↔
    (id = g.size ∧ n = { id, state := s, precision := p, set }) ∨ g.node? id = some n := by
  rw [node?_addNode]
  split
  · rename_i h
    subst h
    simp [node?_size, eq_comm]
  · rename_i h
    simp [h]

theorem WellFormed.addNode (h : g.WellFormed) : (g.addNode s p set).WellFormed where
  edge_iff := by
    intro a b
    have hab := h.edge_iff (a := a) (b := b)
    simp only [Edge, Parent, node?_addNode_eq_some_iff] at hab ⊢
    grind [SortedSet.not_mem_empty]
  covers_iff := by
    intro a b
    have hab := h.covers_iff (a := a) (b := b)
    simp only [Covers, CoveredBy, node?_addNode_eq_some_iff] at hab ⊢
    grind [SortedSet.not_mem_empty]
  buried := by
    intro id n hn hd
    rcases node?_addNode_eq_some_iff.1 hn with ⟨-, rfl⟩ | hn
    · cases hd
    · exact h.buried hn hd

end AddNode

/-! ### A new node below another one, covered or not -/

def sprout (g : Graph σ π) (parent : NodeId) (state : σ) (precision : π) (set : SetId)
    (cover : Option NodeId) : Graph σ π :=
  let child := g.size
  let born := ((g.addNode state precision set).modify parent fun n =>
    { n with children := n.children.insert child }).modify child fun n =>
      { n with parents := n.parents.insert parent }
  match cover with
  | none => born
  | some k => (born.modify child fun n => { n with coveredBy := some k }).modify k fun n =>
      { n with covers := n.covers.insert child }

def sprouted (g : Graph σ π) (parent : NodeId) (state : σ) (precision : π) (set : SetId)
    (cover : Option NodeId) : Node σ π :=
  { id := g.size, state, precision, set, parents := .singleton parent, coveredBy := cover }

section Sprout

variable {parent : NodeId} {state : σ} {precision : π} {set : SetId} {cover : Option NodeId}

theorem size_sprout : (g.sprout parent state precision set cover).size = g.size + 1 := by
  cases cover <;> simp [sprout, modify, size, addNode]

def grown (g : Graph σ π) (parent : NodeId) (cover : Option NodeId) (id : NodeId)
    (n : Node σ π) : Node σ π :=
  { n with
    children := if id = parent then n.children.insert g.size else n.children
    covers := if cover = some id then n.covers.insert g.size else n.covers }

theorem node?_sprout (hp : parent < g.size) (hc : ∀ k, cover = some k → k < g.size) :
    (g.sprout parent state precision set cover).node? id =
      if id = g.size then some (g.sprouted parent state precision set cover)
      else (g.node? id).map (g.grown parent cover id) := by
  have hps : parent ≠ g.size := Nat.ne_of_lt hp
  by_cases hid : id = g.size
  · subst hid
    cases cover with
    | none => simp [sprout, sprouted, node?_addNode, hps]; rfl
    | some k =>
      have hks : k ≠ g.size := Nat.ne_of_lt (hc k rfl)
      simp [sprout, sprouted, node?_addNode, hps, hks]
      rfl
  · have hid' : g.size ≠ id := Ne.symm hid
    cases hg : g.node? id with
    | none =>
      cases cover with
      | none => by_cases hpi : parent = id <;> simp_all [sprout, node?_addNode]
      | some k =>
        by_cases hpi : parent = id <;> by_cases hki : k = id <;>
          simp_all [sprout, node?_addNode]
    | some n =>
      cases cover with
      | none =>
        by_cases hpi : id = parent
        · subst hpi
          simp [sprout, node?_addNode, hid, hid', hg, grown]
        · simp [sprout, node?_addNode, hid, hid', Ne.symm hpi, hpi, hg, grown]
      | some k =>
        by_cases hpi : id = parent <;> by_cases hki : k = id <;>
          first
          | subst hpi
            simp [sprout, node?_addNode, hid, hid', hki, hg, grown]
          | simp [sprout, node?_addNode, hid, hid', hki, Ne.symm hpi, hpi, hg, grown]

theorem live_size_sprout (hp : parent < g.size) (hc : ∀ k, cover = some k → k < g.size) :
    (g.sprout parent state precision set cover).Live g.size
      (g.sprouted parent state precision set cover) := by
  refine ⟨?_, rfl⟩
  rw [node?_sprout hp hc, if_pos rfl]

theorem live_sprout_iff (hp : parent < g.size) (hc : ∀ k, cover = some k → k < g.size) :
    (g.sprout parent state precision set cover).Live id n' ↔
      (id = g.size ∧ n' = g.sprouted parent state precision set cover) ∨
      ∃ n, g.Live id n ∧ n' = g.grown parent cover id n := by
  unfold Live
  rw [node?_sprout hp hc]
  split
  · rename_i hid
    subst hid
    simp only [Option.some.injEq, true_and]
    constructor
    · rintro ⟨rfl, -⟩
      exact Or.inl rfl
    · rintro (rfl | ⟨n, ⟨hn, -⟩, -⟩)
      · exact ⟨rfl, rfl⟩
      · rw [node?_size] at hn
        cases hn
  · rename_i hid
    rw [Option.map_eq_some_iff]
    constructor
    · rintro ⟨⟨n, hn, rfl⟩, hd⟩
      exact Or.inr ⟨n, ⟨hn, hd⟩, rfl⟩
    · rintro (⟨he, -⟩ | ⟨n, ⟨hn, hd⟩, rfl⟩)
      · exact absurd he hid
      · exact ⟨⟨n, hn, rfl⟩, hd⟩

theorem addEdge_addNode {p : Node σ π} (hp : g.Live parent p) :
    (g.addNode state precision set).addEdge parent g.size =
      .ok (g.sprout parent state precision set none) := by
  have hchild : (g.addNode state precision set).liveNode g.size =
      .ok { id := g.size, state, precision, set } :=
    liveNode_eq_ok.2 ⟨node?_addNode_eq_some_iff.2 (Or.inl ⟨rfl, rfl⟩), rfl⟩
  have hparent : (g.addNode state precision set).liveNode parent = .ok p :=
    liveNode_eq_ok.2 ⟨node?_addNode_eq_some_iff.2 (Or.inr hp.1), hp.2⟩
  rw [addEdge, hchild, hparent]
  rfl

theorem cover_sprout (hp : parent < g.size) {k : NodeId} {m : Node σ π} (hk : g.Live k m) :
    (g.sprout parent state precision set none).cover g.size k =
      .ok (g.sprout parent state precision set (some k)) := by
  have hchild : (g.sprout parent state precision set none).liveNode g.size =
      .ok (g.sprouted parent state precision set none) :=
    liveNode_eq_ok.2 (live_size_sprout hp (by simp))
  have hcover : (g.sprout parent state precision set none).liveNode k =
      .ok (g.grown parent none k m) :=
    liveNode_eq_ok.2 ((live_sprout_iff hp (by simp)).2 (Or.inr ⟨m, hk, rfl⟩))
  rw [cover, hchild, hcover]
  rfl

theorem liveNode_sprout (hp : parent < g.size) :
    (g.sprout parent state precision set none).liveNode id =
      if id = g.size then .ok (g.sprouted parent state precision set none)
      else (g.liveNode id).map (g.grown parent none id) := by
  unfold liveNode
  rw [node?_sprout hp (by simp)]
  by_cases hnew : id = g.size
  · rw [if_pos hnew, if_pos hnew]
    rfl
  · rw [if_neg hnew, if_neg hnew]
    cases g.node? id with
    | none => rfl
    | some m =>
      change (if m.destroyed then _ else _) = _
      cases hd : m.destroyed <;> simp [hd, Except.map]

theorem cover_sprout_eq_error {fault : Fault} (hp : parent < g.size) :
    (g.sprout parent state precision set none).cover g.size id = .error fault ↔
      id ≠ g.size ∧ g.liveNode id = .error fault := by
  have hnew : (g.sprout parent state precision set none).liveNode g.size =
      .ok (g.sprouted parent state precision set none) := by
    rw [liveNode_sprout hp, if_pos rfl]
  by_cases hid : id = g.size
  · subst hid
    simp [Graph.cover, hnew, bind, Except.bind, pure, Except.pure]
  · cases hm : g.liveNode id with
    | error e => simp [Graph.cover, liveNode_sprout hp, hid, hm, Except.map, bind, Except.bind]
    | ok m =>
      simp [Graph.cover, liveNode_sprout hp, hid, hm, Except.map, bind, Except.bind, pure,
        Except.pure]

theorem edge_sprout (hp : parent < g.size) (hc : ∀ k, cover = some k → k < g.size) :
    (g.sprout parent state precision set cover).Edge a b ↔
      g.Edge a b ∨ (a = parent ∧ b = g.size) := by
  unfold Edge
  rw [node?_sprout hp hc]
  by_cases ha : a = g.size
  · subst ha
    have hne : g.size ≠ parent := Ne.symm (Nat.ne_of_lt hp)
    simp [node?_size, hne, sprouted]
  · obtain ⟨np, hnp⟩ := node?_of_lt hp
    by_cases hap : a = parent
    · subst hap
      simp [ha, hnp, grown, or_comm]
    · cases g.node? a <;> simp [ha, hap, grown]

theorem parent_sprout (hp : parent < g.size) (hc : ∀ k, cover = some k → k < g.size) :
    (g.sprout parent state precision set cover).Parent b a ↔
      g.Parent b a ∨ (a = parent ∧ b = g.size) := by
  unfold Parent
  rw [node?_sprout hp hc]
  by_cases hb : b = g.size
  · subst hb
    simp [node?_size, sprouted]
  · cases g.node? b <;> simp [hb, grown]

theorem covers_sprout (hp : parent < g.size) (hc : ∀ k, cover = some k → k < g.size) :
    (g.sprout parent state precision set cover).Covers a b ↔
      g.Covers a b ∨ (cover = some a ∧ b = g.size) := by
  unfold Covers
  rw [node?_sprout hp hc]
  by_cases ha : a = g.size
  · subst ha
    have hne : cover ≠ some g.size := fun h => Nat.lt_irrefl _ (hc _ h)
    simp [node?_size, hne, sprouted]
  · by_cases hca : cover = some a
    · obtain ⟨na, hna⟩ := node?_of_lt (hc a hca)
      simp [ha, hca, hna, grown, or_comm]
    · cases g.node? a <;> simp [ha, hca, grown]

theorem coveredBy_sprout (hp : parent < g.size) (hc : ∀ k, cover = some k → k < g.size) :
    (g.sprout parent state precision set cover).CoveredBy b a ↔
      g.CoveredBy b a ∨ (cover = some a ∧ b = g.size) := by
  unfold CoveredBy
  rw [node?_sprout hp hc]
  by_cases hb : b = g.size
  · subst hb
    simp [node?_size, sprouted]
  · cases g.node? b <;> simp [hb, grown]

theorem WellFormed.sprout (h : g.WellFormed) {p : Node σ π} (hp : g.Live parent p)
    (hc : ∀ k, cover = some k → ∃ m, g.Live k m) :
    (g.sprout parent state precision set cover).WellFormed := by
  have hps : parent < g.size := hp.lt_size
  have hcs : ∀ k, cover = some k → k < g.size := by
    intro k hk
    obtain ⟨m, hm⟩ := hc k hk
    exact hm.lt_size
  refine ⟨?_, ?_, ?_⟩
  · intro a b
    rw [edge_sprout hps hcs, parent_sprout hps hcs, h.edge_iff]
  · intro a b
    rw [covers_sprout hps hcs, coveredBy_sprout hps hcs, h.covers_iff]
  · intro id n hn hd
    rw [node?_sprout hps hcs] at hn
    split at hn
    · cases hn
      cases hd
    · obtain ⟨m, hm, rfl⟩ := Option.map_eq_some_iff.1 hn
      have hmd : m.destroyed = true := hd
      have hidp : id ≠ parent := by
        rintro rfl
        rw [Option.some.inj (hm.symm.trans hp.1), hp.2] at hmd
        cases hmd
      have hidc : cover ≠ some id := by
        intro hk
        obtain ⟨k, hk⟩ := hc id hk
        rw [Option.some.inj (hm.symm.trans hk.1), hk.2] at hmd
        cases hmd
      simpa [grown, hidp, hidc] using h.buried hm hmd

end Sprout

/-! ### Removing several nodes -/

def pruned (gone : NodeId → Bool) (id : NodeId) (n : Node σ π) : Node σ π :=
  if gone id then n.bury
  else { n with
    parents := n.parents.filter (!gone ·)
    children := n.children.filter (!gone ·)
    coveredBy := n.coveredBy.filter (!gone ·)
    covers := n.covers.filter (!gone ·) }

theorem pruned_pruned (first second : NodeId → Bool) :
    pruned second id (pruned first id n) = pruned (fun k => first k || second k) id n := by
  have hf : ∀ s : IdSet, (s.filter (!first ·)).filter (!second ·) =
      s.filter (fun k => !(first k || second k)) := by
    intro s
    ext k
    simp [and_assoc]
  have he : ∀ keep : NodeId → Bool, (∅ : IdSet).filter keep = ∅ := fun _ => rfl
  unfold pruned
  cases h₁ : first id <;> cases h₂ : second id <;>
    simp [h₁, h₂, Node.bury, hf, he, Option.filter_filter]

theorem node?_remove_eq_pruned (d : NodeId) :
    (g.remove d).node? id = (g.node? id).map (pruned (· = d) id) := by
  rw [node?_remove]
  congr 1
  funext n
  by_cases h : d = id
  · simp [pruned, h]
  · have hid : ¬ id = d := fun e => h e.symm
    rw [if_neg h, pruned, if_neg (by simpa using hid)]
    simp only [Node.detach, SortedSet.erase]
    congr 1
    · ext k; simp
    · ext k; simp
    · cases hc : n.coveredBy with
      | none => rfl
      | some k => by_cases hk : k = d <;> simp [hk, Option.filter]
    · ext k; simp

theorem pruned_nothing (id : NodeId) (n : Node σ π) : pruned (fun _ => false) id n = n := by
  have hs : ∀ s : IdSet, s.filter (fun _ => true) = s := by
    intro s
    ext k
    simp
  have ho : n.coveredBy.filter (fun _ => true) = n.coveredBy := by
    cases n.coveredBy <;> rfl
  simp [pruned, hs, ho]

theorem node?_foldl_remove (l : List NodeId) :
    (l.foldl remove g).node? id = (g.node? id).map (pruned (· ∈ l) id) := by
  induction l generalizing g with
  | nil => cases hg : g.node? id <;> simp [hg, pruned_nothing]
  | cons d l ih =>
    rw [List.foldl_cons, ih, node?_remove_eq_pruned, Option.map_map]
    congr 1
    funext n
    simp only [Function.comp_apply, pruned_pruned, List.mem_cons, Bool.decide_or]

/-- What becomes of a node when nodes are cut out of the graph and others get a new precision. -/
def cutOut (gone : NodeId → Bool) (price : NodeId → π → π) (id : NodeId) (n : Node σ π) :
    Node σ π :=
  { pruned gone id n with precision := price id n.precision }

section CutOut

variable {gone : NodeId → Bool} {price : NodeId → π → π}

@[simp] theorem state_cutOut : (cutOut gone price id n).state = n.state := by
  cases h : gone id <;> simp [cutOut, pruned, h, Node.bury]

@[simp] theorem set_cutOut : (cutOut gone price id n).set = n.set := by
  cases h : gone id <;> simp [cutOut, pruned, h, Node.bury]

@[simp] theorem precision_cutOut : (cutOut gone price id n).precision = price id n.precision := rfl

@[simp] theorem destroyed_cutOut :
    (cutOut gone price id n).destroyed = (gone id || n.destroyed) := by
  cases h : gone id <;> simp [cutOut, pruned, h, Node.bury]

theorem mem_parents_cutOut :
    a ∈ (cutOut gone price id n).parents ↔ a ∈ n.parents ∧ gone id = false ∧ gone a = false := by
  cases h : gone id <;> simp [cutOut, pruned, h, Node.bury]

theorem mem_children_cutOut :
    a ∈ (cutOut gone price id n).children ↔ a ∈ n.children ∧ gone id = false ∧ gone a = false := by
  cases h : gone id <;> simp [cutOut, pruned, h, Node.bury]

theorem coveredBy_cutOut : (cutOut gone price id n).coveredBy = some a ↔
    n.coveredBy = some a ∧ gone id = false ∧ gone a = false := by
  cases h : gone id <;> simp [cutOut, pruned, h, Node.bury, Option.filter_eq_some_iff]

theorem mem_covers_cutOut :
    a ∈ (cutOut gone price id n).covers ↔ a ∈ n.covers ∧ gone id = false ∧ gone a = false := by
  cases h : gone id <;> simp [cutOut, pruned, h, Node.bury]

theorem detached_cutOut (hp : n.parents = ∅) (hk : n.coveredBy = none) :
    (cutOut gone price id n).parents = ∅ ∧ (cutOut gone price id n).coveredBy = none := by
  constructor
  · ext a
    simp [mem_parents_cutOut, hp]
  · refine Option.eq_none_iff_forall_not_mem.2 fun k hk' => ?_
    rw [Option.mem_def, coveredBy_cutOut, hk] at hk'
    cases hk'.1

variable (hg : ∀ id, g'.node? id = (g.node? id).map (cutOut gone price id))

include hg

theorem edge_of_cutOut : g'.Edge a b ↔ g.Edge a b ∧ gone a = false ∧ gone b = false := by
  unfold Edge
  rw [hg]
  cases g.node? a <;> simp [mem_children_cutOut]

theorem parent_of_cutOut : g'.Parent b a ↔ g.Parent b a ∧ gone a = false ∧ gone b = false := by
  unfold Parent
  rw [hg]
  cases g.node? b <;> simp [mem_parents_cutOut, and_comm]

theorem covers_of_cutOut : g'.Covers a b ↔ g.Covers a b ∧ gone a = false ∧ gone b = false := by
  unfold Covers
  rw [hg]
  cases g.node? a <;> simp [mem_covers_cutOut]

theorem coveredBy_of_cutOut :
    g'.CoveredBy b a ↔ g.CoveredBy b a ∧ gone a = false ∧ gone b = false := by
  unfold CoveredBy
  rw [hg]
  cases g.node? b <;> simp [coveredBy_cutOut, and_comm]

theorem live_of_cutOut :
    g'.Live id n' ↔ ∃ n, g.Live id n ∧ gone id = false ∧ n' = cutOut gone price id n := by
  unfold Live
  rw [hg]
  cases g.node? id with
  | none => simp
  | some n =>
    simp only [Option.map_some, Option.some.injEq]
    constructor
    · rintro ⟨rfl, hd⟩
      rw [destroyed_cutOut, Bool.or_eq_false_iff] at hd
      exact ⟨n, ⟨rfl, hd.2⟩, hd.1, rfl⟩
    · rintro ⟨m, ⟨rfl, hd⟩, hgone, rfl⟩
      exact ⟨rfl, by rw [destroyed_cutOut, hgone, hd]; rfl⟩

theorem WellFormed.cutOut (hw : g.WellFormed) : g'.WellFormed where
  edge_iff := by
    intro a b
    rw [edge_of_cutOut hg, parent_of_cutOut hg, hw.edge_iff]
  covers_iff := by
    intro a b
    rw [covers_of_cutOut hg, coveredBy_of_cutOut hg, hw.covers_iff]
  buried := by
    intro id n hn hd
    rw [hg] at hn
    obtain ⟨m, hm, rfl⟩ := Option.map_eq_some_iff.1 hn
    cases hgone : gone id with
    | true => simp [Graph.cutOut, pruned, hgone, Node.bury]
    | false =>
      rw [destroyed_cutOut, hgone, Bool.false_or] at hd
      obtain ⟨h₁, h₂, h₃, h₄⟩ := hw.buried hm hd
      have he : ∀ keep : NodeId → Bool, (∅ : IdSet).filter keep = ∅ := fun _ => rfl
      simp [Graph.cutOut, pruned, hgone, h₁, h₂, h₃, h₄, he]

end CutOut

/-! ### The number of live nodes -/

theorem mem_liveIds : id ∈ g.liveIds ↔ ∃ n, g.Live id n := by
  rw [liveIds, List.mem_filter, List.mem_range, Bool.not_eq_true', ← isDestroyed_eq_false,
    and_iff_right_iff_imp]
  intro hid
  obtain ⟨n, hn⟩ := isDestroyed_eq_false.1 hid
  exact hn.lt_size

theorem nodup_liveIds (g : Graph σ π) : g.liveIds.Nodup := List.nodup_range.filter _

theorem length_liveIds (g : Graph σ π) : g.liveIds.length = g.liveCount := by
  have hsome : g.nodes.toList.map some = (List.range g.size).map g.node? := by
    refine List.ext_getElem? fun i => ?_
    by_cases hi : i < g.nodes.size
    · simp [Graph.size, Graph.node?, hi]
    · simp [Graph.size, hi]
  have hcount := congrArg (List.countP fun o => o.any fun n : Node σ π => !n.destroyed) hsome
  rw [List.countP_map, List.countP_map] at hcount
  rw [liveIds, ← List.countP_eq_length_filter, liveCount, ← Array.countP_toList]
  refine (Eq.trans ?_ hcount.symm).trans ?_
  · refine List.countP_congr fun i _ => ?_
    simp only [Function.comp_apply, Graph.isDestroyed]
    cases g.node? i <;> simp
  · exact List.countP_congr fun n _ => by simp

theorem length_le_liveCount {l : List NodeId} (hnd : l.Nodup) (hlive : ∀ a ∈ l, ∃ n, g.Live a n) :
    l.length ≤ g.liveCount := by
  rw [← length_liveIds]
  exact (hnd.subperm fun a ha => mem_liveIds.2 (hlive a ha)).length_le

end Blockwise.Graph
