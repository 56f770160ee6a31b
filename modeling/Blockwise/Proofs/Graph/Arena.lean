import Blockwise.Proofs.Graph.Changes
import Blockwise.Proofs.Graph.Removal

/-!
Changes of the stored graph. Each has the effect of the operation on graphs of the same name, or it
is refused and changes nothing, and the set of live indices follows. In particular no index outside
of the arena is ever used.
-/
namespace Blockwise

variable {σ π : Type} {g : Graph σ π} {a a' : Arena σ π} {i id parent child other : NodeId}
  {n : Node σ π} {p : π} {fault : Fault} {f : Node σ π → Node σ π} {l : List NodeId}

namespace Graph

theorem size_modify : (g.modify id f).size = g.size := by
  simp [size, modify]

theorem maps_id (g : Graph σ π) : g.Maps (fun _ n => n) g := by
  intro i
  simp

def modifyAll (f : Node σ π → Node σ π) (l : List NodeId) (g : Graph σ π) : Graph σ π :=
  l.foldl (fun g id => g.modify id f) g

theorem size_modifyAll : (g.modifyAll f l).size = g.size := by
  induction l generalizing g with
  | nil => rfl
  | cons id l ih => exact ih.trans size_modify

theorem maps_modifyAll (hl : l.Nodup) :
    g.Maps (fun i n => if i ∈ l then f n else n) (g.modifyAll f l) := by
  induction l generalizing g with
  | nil => exact (maps_id g).congr fun i n _ => (if_neg List.not_mem_nil).symm
  | cons id l ih =>
    obtain ⟨hid, hl⟩ := List.nodup_cons.1 hl
    refine ((maps_modify g id f).trans (ih hl)).congr fun i n _ => ?_
    by_cases hi : i = id
    · subst hi
      simp [hid]
    · simp [hi]

theorem liveNode_modify (id : NodeId) (hf : ∀ n, (f n).destroyed = n.destroyed)
    (hn : g.liveNode i = .ok n) : ∃ n', (g.modify id f).liveNode i = .ok n' := by
  obtain ⟨hn, hd⟩ := liveNode_eq_ok_iff.1 hn
  refine ⟨if i = id then f n else n, liveNode_eq_ok_iff.2 ⟨?_, ?_⟩⟩
  · rw [maps_modify g id f i, hn, Option.map_some]
  · split
    · rw [hf, hd]
    · exact hd

theorem modify_comm (g : Graph σ π) (id i : NodeId) {f h : Node σ π → Node σ π}
    (hf : ∀ n, f (h n) = h (f n)) : (g.modify i h).modify id f = (g.modify id f).modify i h := by
  refine ((maps_modify g i h).trans (maps_modify _ id f)).unique
    (((maps_modify g id f).trans (maps_modify _ i h)).congr fun j n _ => ?_)
  split_ifs <;> simp [hf]

theorem cover_of_live {m : Node σ π} (hm : g.liveNode other = .ok m) (hn : g.liveNode id = .ok n) :
    g.cover id other = .ok ((((match n.coveredBy with
      | some old => g.modify old fun c => { c with covers := c.covers.erase id }
      | none => g).modify id fun n => { n with coveredBy := some other }).modify other
        fun c => { c with covers := c.covers.insert id })) := by
  rw [cover, hm, hn]
  rfl

end Graph

namespace Arena

variable {live : IdSet}

def of (g : Graph σ π) (live : IdSet) : Arena σ π := ⟨g.nodes, live⟩

@[simp] theorem graph_of (g : Graph σ π) : (of g live).graph = g := rfl

/-- What a change comes to when it has the effect of an operation on graphs. -/
def outcome (a : Arena σ π) (live : IdSet) :
    Except Fault (Graph σ π) → EStateM.Result Stop (Arena σ π) Unit
  | .ok g => .ok () (of g live)
  | .error fault => .error (.refused fault) a

/-! ### The parts of a change -/

theorem node_eq (id : NodeId) (a : Arena σ π) : node id a = match a.graph.node id with
    | .ok n => .ok n a
    | .error fault => .error (.refused fault) a := by
  rw [node, bind_eq_of_ok (show (get : Updating σ π _) a = .ok a a from rfl), Graph.node,
    Graph.node?, graph]
  cases a.nodes[id]? <;> rfl

theorem node_of_some (hn : a.graph.node? id = some n) : node id a = .ok n a := by
  rw [node_eq, Graph.node, hn]

theorem liveNode_of_ok (hn : a.graph.liveNode id = .ok n) : liveNode id a = .ok n a := by
  obtain ⟨hget, hd⟩ := Graph.liveNode_eq_ok_iff.1 hn
  rw [liveNode, bind_eq_of_ok (node_of_some hget), hd]
  rfl

theorem liveNode_of_error (hn : a.graph.liveNode id = .error fault) :
    liveNode id a = .error (.refused fault) a := by
  unfold Graph.liveNode at hn
  cases hget : a.graph.node? id with
  | none =>
    rw [hget] at hn
    cases hn
    have hnode : node id a = .error (.refused (.unknownNode id)) a := by
      rw [node_eq, Graph.node, hget]
    rw [liveNode, bind_eq_of_error hnode]
  | some n =>
    rw [hget] at hn
    rw [liveNode, bind_eq_of_ok (node_of_some hget)]
    cases hd : n.destroyed with
    | false => simp [hd] at hn
    | true =>
      simp only [hd, if_true, Except.error.injEq] at hn
      rw [← hn]
      rfl

theorem update_of (g : Graph σ π) : update id f (of g live) = .ok () (of (g.modify id f) live) :=
  rfl

theorem updateLive_of_ok (hn : g.liveNode id = .ok n) :
    updateLive id f (of g live) = .ok n (of (g.modify id f) live) := by
  have hlive : liveNode id (of g live) = .ok n (of g live) := liveNode_of_ok hn
  rw [updateLive, bind_eq_of_ok hlive, bind_eq_of_ok (update_of g)]
  rfl

theorem updateLive_of_error (hn : g.liveNode id = .error fault) :
    updateLive id f (of g live) = .error (.refused fault) (of g live) := by
  have hlive : liveNode id (of g live) = .error (.refused fault) (of g live) := liveNode_of_error hn
  rw [updateLive, bind_eq_of_error hlive]

theorem forM_updateAt (hl : ∀ i ∈ l, i < g.size) : l.forM (updateAt f) (of g live) =
    .ok () (of (g.modifyAll f l) live) := by
  induction l generalizing g with
  | nil => rfl
  | cons i l ih =>
    obtain ⟨hi, hl⟩ := List.forall_mem_cons.1 hl
    have hstep : updateAt f i (of g live) = .ok () (of (g.modify i f) live) := by
      rw [updateAt, bind_eq_of_ok (show (get : Updating σ π _) (of g live) = .ok _ _ from rfl),
        if_pos (show i < (of g live).nodes.size from hi), update_of]
    change (updateAt f i >>= fun _ => l.forM (updateAt f)) (of g live) = _
    rw [bind_eq_of_ok hstep, ih]
    · rfl
    · intro j hj
      rw [Graph.size_modify]
      exact hl j hj

/-! ### The changes -/

theorem addEdge_of (g : Graph σ π) (live : IdSet) (parent child : NodeId) :
    addEdge parent child (of g live) = outcome (of g live) live (g.addEdge parent child) := by
  cases hc : g.liveNode child with
  | error fault =>
    have hcheck : liveNode child (of g live) = .error (.refused fault) (of g live) :=
      liveNode_of_error hc
    simp only [addEdge, bind_eq_of_error hcheck, Graph.addEdge, hc]
    rfl
  | ok n =>
    have hcheck : liveNode child (of g live) = .ok n (of g live) := liveNode_of_ok hc
    cases hp : g.liveNode parent with
    | error fault =>
      simp only [addEdge, bind_eq_of_ok hcheck, bind_eq_of_error (updateLive_of_error hp),
        Graph.addEdge, hc, hp]
      rfl
    | ok m =>
      obtain ⟨n', hn'⟩ := Graph.liveNode_modify parent
        (f := fun m => { m with children := m.children.insert child }) (fun _ => rfl) hc
      simp only [addEdge, bind_eq_of_ok hcheck, bind_eq_of_ok (updateLive_of_ok hp),
        bind_eq_of_ok (updateLive_of_ok hn'), Graph.addEdge, hc, hp]
      rfl

theorem setPrecision_of (g : Graph σ π) (live : IdSet) (id : NodeId) (p : π) :
    setPrecision id p (of g live) = outcome (of g live) live (g.setPrecision id p) := by
  cases hn : g.liveNode id with
  | error fault =>
    simp only [setPrecision, bind_eq_of_error (updateLive_of_error hn), Graph.setPrecision, hn]
    rfl
  | ok n =>
    simp only [setPrecision, bind_eq_of_ok (updateLive_of_ok hn), Graph.setPrecision, hn]
    rfl

theorem cover_of (g : Graph σ π) (live : IdSet) (id other : NodeId) :
    cover id other (of g live) = outcome (of g live) live (g.cover id other) := by
  cases hm : g.liveNode other with
  | error fault =>
    have hcheck : liveNode other (of g live) = .error (.refused fault) (of g live) :=
      liveNode_of_error hm
    simp only [cover, bind_eq_of_error hcheck, Graph.cover, hm]
    rfl
  | ok m =>
    have hcheck : liveNode other (of g live) = .ok m (of g live) := liveNode_of_ok hm
    cases hn : g.liveNode id with
    | error fault =>
      simp only [cover, bind_eq_of_ok hcheck, bind_eq_of_error (updateLive_of_error hn),
        Graph.cover, hm, hn]
      rfl
    | ok n =>
      obtain ⟨m', hm'⟩ := Graph.liveNode_modify id
        (f := fun n => { n with coveredBy := some other }) (fun _ => rfl) hm
      rw [Graph.cover_of_live hm hn]
      simp only [cover, bind_eq_of_ok hcheck, bind_eq_of_ok (updateLive_of_ok hn)]
      cases n.coveredBy with
      | none =>
        simp only [bind_eq_of_ok (updateLive_of_ok hm')]
        rfl
      | some old =>
        obtain ⟨m'', hm''⟩ := Graph.liveNode_modify old (f := Node.dropCovered id)
          (fun _ => rfl) hm'
        -- the node that covered `id` is updated after `id` here, but before it in the graph
        have hswap := g.modify_comm old id (f := Node.dropCovered id)
          (h := fun n => { n with coveredBy := some other }) fun _ => rfl
        simp only [bind_eq_of_ok (update_of _), bind_eq_of_ok (updateLive_of_ok hm'')]
        rw [hswap]
        rfl

theorem addNode_of (g : Graph σ π) (live : IdSet) (state : σ) (precision : π) (set : SetId) :
    addNode state precision set (of g live) =
      .ok g.size (of (g.addNode state precision set) (live.insert g.size)) := rfl

end Arena

namespace Graph

/-- Cutting out a node step by step, along the indices that its record lists. -/
def unlink (g : Graph σ π) (id : NodeId) (n : Node σ π) : Graph σ π :=
  ((((g.modify id Node.bury).modifyAll (Node.dropChild id) n.parents.toList).modifyAll
    (Node.dropParent id) n.children.toList).modifyAll Node.dropCover n.covers.toList).modifyAll
      (Node.dropCovered id) n.coveredBy.toList

theorem WellFormed.unlink_eq_remove (h : g.WellFormed) (hn : g.node? id = some n) :
    g.unlink id n = g.remove id := by
  have hcover : n.coveredBy.toList.Nodup := by cases n.coveredBy <;> simp
  have hmaps := ((((maps_modify g id Node.bury).trans
    (maps_modifyAll (f := Node.dropChild id) (IdSet.nodup n.parents))).trans
    (maps_modifyAll (f := Node.dropParent id) (IdSet.nodup n.children))).trans
    (maps_modifyAll (f := Node.dropCover) (IdSet.nodup n.covers))).trans
    (maps_modifyAll (f := Node.dropCovered id) hcover)
  refine (hmaps.congr fun i m hm => ?_).unique maps_remove
  -- the lists of the record name the nodes whose own record lists `id`
  have hparents : i ∈ n.parents.toList ↔ id ∈ m.children := by
    have hedge := h.edge_iff (a := i) (b := id)
    simpa [Edge, Parent, hm, hn] using hedge.symm
  have hchildren : i ∈ n.children.toList ↔ id ∈ m.parents := by
    have hedge := h.edge_iff (a := id) (b := i)
    simpa [Edge, Parent, hm, hn] using hedge
  have hcovers : i ∈ n.covers.toList ↔ m.coveredBy = some id := by
    have hcovers := h.covers_iff (a := id) (b := i)
    simpa [Covers, CoveredBy, hm, hn] using hcovers
  have hcovered : i ∈ n.coveredBy.toList ↔ id ∈ m.covers := by
    have hcovers := h.covers_iff (a := i) (b := id)
    simpa [Covers, CoveredBy, hm, hn, eq_comm] using hcovers.symm
  simp only [hparents, hchildren, hcovers, hcovered]
  by_cases hi : i = id
  · simp only [if_pos hi]
    split_ifs <;> rfl
  · simp only [if_neg hi]
    by_cases h₁ : id ∈ m.children <;> by_cases h₂ : id ∈ m.parents <;>
      by_cases h₃ : m.coveredBy = some id <;> by_cases h₄ : id ∈ m.covers <;>
        simp [h₁, h₂, h₃, h₄, Node.detach, Node.dropChild, Node.dropParent, Node.dropCover,
          Node.dropCovered, SortedSet.erase_of_not_mem]

theorem destroy_of_some (hn : g.node? id = some n) :
    g.destroy id = .ok (if n.destroyed then g else g.remove id) := by
  rw [destroy, node, hn]
  rfl

theorem WellFormed.listed_lt (h : g.WellFormed) (hn : g.node? id = some n) :
    (∀ i ∈ n.parents.toList, i < g.size) ∧ (∀ i ∈ n.children.toList, i < g.size) ∧
      (∀ i ∈ n.covers.toList, i < g.size) ∧ ∀ i ∈ n.coveredBy.toList, i < g.size := by
  refine ⟨fun i hi => ?_, fun i hi => ?_, fun i hi => ?_, fun i hi => ?_⟩
  · obtain ⟨m, hm, -⟩ := h.edge_iff.2 ⟨n, hn, hi⟩
    exact lt_size_of_node? hm
  · obtain ⟨m, hm, -⟩ := h.edge_iff.1 ⟨n, hn, hi⟩
    exact lt_size_of_node? hm
  · obtain ⟨m, hm, -⟩ := h.covers_iff.1 ⟨n, hn, hi⟩
    exact lt_size_of_node? hm
  · obtain ⟨m, hm, -⟩ := h.covers_iff.2 ⟨n, hn, Option.mem_toList.1 hi⟩
    exact lt_size_of_node? hm

end Graph

namespace Arena

structure Sane (a : Arena σ π) : Prop where
  wellFormed : a.graph.WellFormed
  numbered : a.graph.Numbered
  live_iff : ∀ i, i ∈ a.live ↔ ∃ n, a.graph.Live i n

theorem sane_empty : (∅ : Arena σ π).Sane where
  wellFormed := Graph.wellFormed_empty
  numbered := fun _ _ hn => nomatch hn
  live_iff := fun i =>
    ⟨fun hi => absurd hi (SortedSet.not_mem_empty i), fun ⟨_, hn, _⟩ => nomatch hn⟩

theorem destroy_of (id : NodeId) (live : IdSet) (h : g.WellFormed)
    (hlive : ∀ i ∈ live, ∃ n, g.Live i n) :
    destroy id (of g live) = outcome (of g live) (live.erase id) (g.destroy id) := by
  cases hn : g.node? id with
  | none =>
    have hnode : node id (of g live) = .error (.refused (.unknownNode id)) (of g live) := by
      rw [node_eq, graph_of, Graph.node, hn]
    simp only [destroy, bind_eq_of_error hnode, Graph.destroy, Graph.node, hn]
    rfl
  | some n =>
    have hnode : node id (of g live) = .ok n (of g live) := node_of_some hn
    rw [Graph.destroy_of_some hn]
    cases hd : n.destroyed with
    | true =>
      have hgone : id ∉ live := by
        intro hid
        obtain ⟨m, hm⟩ := hlive id hid
        exact hm.ne_of_dead hn hd rfl
      simp only [destroy, bind_eq_of_ok hnode, hd, if_true]
      rw [SortedSet.erase_of_not_mem hgone]
      rfl
    | false =>
      obtain ⟨h₁, h₂, h₃, h₄⟩ := h.listed_lt hn
      simp only [destroy, bind_eq_of_ok hnode, hd, Bool.false_eq_true, if_false]
      rw [← h.unlink_eq_remove hn, bind_eq_of_ok (update_of g),
        bind_eq_of_ok (forM_updateAt fun i hi => ?_), bind_eq_of_ok (forM_updateAt fun i hi => ?_),
        bind_eq_of_ok (forM_updateAt fun i hi => ?_), bind_eq_of_ok (forM_updateAt fun i hi => ?_)]
      · rfl
      all_goals simp only [Graph.size_modifyAll, Graph.size_modify]
      · exact h₄ i hi
      · exact h₃ i hi
      · exact h₂ i hi
      · exact h₁ i hi

end Arena

namespace GraphChange

def liveAfter (live : IdSet) (size : Nat) : GraphChange σ π → IdSet
  | addNode .. => live.insert size
  | destroy id => live.erase id
  | addEdge .. | setPrecision .. | cover .. => live

variable {change : GraphChange σ π}

theorem perform_eq (h : a.Sane) (change : GraphChange σ π) : change.perform a =
    a.outcome (change.liveAfter a.live a.graph.size) (change.apply a.graph) := by
  cases change with
  | addNode state precision set =>
    exact bind_eq_of_ok (Arena.addNode_of a.graph a.live state precision set)
  | addEdge parent child => exact Arena.addEdge_of a.graph a.live parent child
  | setPrecision id precision => exact Arena.setPrecision_of a.graph a.live id precision
  | cover id other => exact Arena.cover_of a.graph a.live id other
  | destroy id =>
    exact Arena.destroy_of id a.live h.wellFormed fun i hi => (h.live_iff i).1 hi

theorem mem_liveAfter (h : a.Sane) {g : Graph σ π} (hg : change.apply a.graph = .ok g) :
    i ∈ change.liveAfter a.live a.graph.size ↔ ∃ n, g.Live i n := by
  have same : g.isDestroyed i = a.graph.isDestroyed i → (i ∈ a.live ↔ ∃ n, g.Live i n) := by
    intro hsame
    rw [h.live_iff, ← Graph.isDestroyed_eq_false, ← Graph.isDestroyed_eq_false, hsame]
  cases change with
  | addNode state precision set =>
    cases hg
    rw [liveAfter, SortedSet.mem_insert, h.live_iff, Graph.live_addNode_iff]
  | addEdge parent child =>
    obtain ⟨hp, hc, hf⟩ := Graph.addEdge_spec hg
    exact same (hf.isDestroyed_eq (Graph.gentle_joined hp hc) i)
  | setPrecision id precision =>
    obtain ⟨hn, hf⟩ := Graph.setPrecision_spec hg
    exact same (hf.isDestroyed_eq (Graph.gentle_priced hn) i)
  | cover id other =>
    obtain ⟨hn, hm, hf⟩ := Graph.cover_spec h.wellFormed hg
    exact same (hf.isDestroyed_eq (Graph.gentle_coverTaken h.wellFormed hn hm) i)
  | destroy id =>
    rw [liveAfter, SortedSet.mem_erase, h.live_iff, ← Graph.isDestroyed_eq_false,
      ← Graph.isDestroyed_eq_false, Graph.isDestroyed_destroy hg i, Bool.or_eq_false_iff,
      decide_eq_false_iff_not, and_comm]

/-- A sane arena stays sane, and a refused change leaves it as it was. -/
theorem perform_spec (h : a.Sane) (change : GraphChange σ π) : Ensures change.perform a
    (fun _ a' => a'.Sane ∧ a.graph.Alters a'.graph ∧ change.apply a.graph = .ok a'.graph)
    (fun stop a' => a' = a ∧
      ∃ fault, stop = .refused fault ∧ change.apply a.graph = .error fault) := by
  cases hg : change.apply a.graph with
  | error fault =>
    have hrun : change.perform a = .error (.refused fault) a := by
      rw [perform_eq h, hg]
      rfl
    rw [ensures_of_error hrun]
    exact ⟨rfl, fault, rfl, rfl⟩
  | ok g =>
    have hrun : change.perform a = .ok () (.of g (change.liveAfter a.live a.graph.size)) := by
      rw [perform_eq h, hg]
      rfl
    have halters := alters_apply h.wellFormed hg
    rw [ensures_of_ok hrun]
    refine ⟨⟨halters.wellFormed, halters.numbered h.numbered, fun i => ?_⟩, halters, rfl⟩
    exact mem_liveAfter h hg

end GraphChange

/-! ### Any number of changes -/

namespace Arena

/-- Performs the changes in turn. A change that stops is given up, and the next one goes on from
what it left. -/
def after (changes : List (GraphChange σ π)) (a : Arena σ π) : Arena σ π :=
  changes.foldl (fun a change => finalState (change.perform a)) a

theorem Sane.after (h : a.Sane) (changes : List (GraphChange σ π)) :
    (a.after changes).Sane ∧ a.graph.Alters (a.after changes).graph := by
  induction changes generalizing a with
  | nil => exact ⟨h, .refl h.wellFormed⟩
  | cons change changes ih =>
    have step : (finalState (change.perform a)).Sane ∧
        a.graph.Alters (finalState (change.perform a)).graph := by
      refine Ensures.final (p := fun a' => a'.Sane ∧ a.graph.Alters a'.graph)
        ((GraphChange.perform_spec h change).imp (fun _ a' hstep => ?_) fun _ a' hstop => ?_)
      · exact ⟨hstep.1, hstep.2.1⟩
      · rw [hstop.1]
        exact ⟨h, .refl h.wellFormed⟩
    obtain ⟨hsane, halters⟩ := ih step.1
    exact ⟨hsane, step.2.trans halters⟩

theorem Sane.isDestroyed_eq (h : a.Sane) (i : NodeId) :
    a.isDestroyed i = a.graph.isDestroyed i := by
  rw [Bool.eq_iff_iff, ← Graph.dead_iff, ← not_exists, ← h.live_iff]
  simp [Arena.isDestroyed]

/-- After any changes, refused ones among them, edges and covers are recorded at both ends, no node
lists a destroyed one, and the next change has the effect of the operation on graphs or none. -/
theorem changes_keep_arena_sane (changes further : List (GraphChange σ π))
    (next : GraphChange σ π) :
    let a := Arena.after changes ∅
    a.Sane ∧
    (∀ i n b m, a.graph.node? i = some n → n.destroyed = true → a.graph.node? b = some m →
      i ∉ m.parents ∧ i ∉ m.children ∧ m.coveredBy ≠ some i ∧ i ∉ m.covers) ∧
    (∀ i n, a.graph.node? i = some n → n.destroyed = true →
      (a.after further).graph.node? i = some n) ∧
    Ensures next.perform a (fun _ a' => next.apply a.graph = .ok a'.graph)
      (fun stop a' => a' = a ∧ ∃ fault, stop = .refused fault ∧ next.apply a.graph = .error fault)
    := by
  intro a
  have h : a.Sane := (sane_empty.after changes).1
  refine ⟨h, fun i n b m hn hd hm => h.wellFormed.not_listed hn hd hm, fun i n hn hd => ?_, ?_⟩
  · obtain ⟨n', hn', -, hdead⟩ := (h.after further).2.keeps i n hn
    rw [hn', hdead hd]
  · exact (GraphChange.perform_spec h next).imp (fun _ _ hstep => hstep.2.2) fun _ _ hstop => hstop

end Arena

end Blockwise
