import Blockwise.Proofs.Repair.ExactHits

/-!
The calls that are open at an element of a path. All but that of the whole program are made at call
nodes that are linked to a reached set.
-/
namespace Blockwise

open Context

variable {c : Context} {path : Path}

theorem Links.closeCalls_subset {l : Links} {opened left : List PathIndex} {n : NodeId}
    (h : l.closeCalls opened n = some left) : ∀ e ∈ left, e ∈ opened := by
  induction opened generalizing n with
  | nil =>
    rw [closeCalls] at h
    split at h
    · cases h
    · cases h
      exact fun e he => he
  | cons call outer ih =>
    rw [closeCalls] at h
    split at h
    · exact fun e he => List.mem_cons_of_mem _ (ih h e he)
    · cases h
      exact fun e he => he

theorem Links.openCalls_spec {l : Links} {opened calls : List PathIndex}
    {elements : List (NodeId × PathIndex)} (h : l.openCalls opened elements = .ok calls) :
    ∀ e ∈ calls, e ∈ opened ∨ ∃ n, (n, e) ∈ elements ∧ l.isBlockEntry n = true := by
  induction elements generalizing opened with
  | nil =>
    cases h
    exact fun e he => Or.inl he
  | cons head rest ih =>
    obtain ⟨n, element⟩ := head
    rw [openCalls] at h
    split at h
    · cases h
    · rename_i left hleft
      intro e he
      rcases ih h e he with hopen | ⟨n', hn', hentry⟩
      · split at hopen
        · rename_i hentry
          rcases List.mem_cons.1 hopen with rfl | hopen
          · exact Or.inr ⟨n, List.mem_cons_self .., hentry⟩
          · exact Or.inl (closeCalls_subset hleft e hopen)
        · exact Or.inl (closeCalls_subset hleft e hopen)
      · exact Or.inr ⟨n', List.mem_cons_of_mem _ hn', hentry⟩

theorem Context.openCallNodes_call {target : PathIndex} {calls : List NodeId}
    (h : c.openCallNodes path target = .ok calls) : ∀ n ∈ calls.tail, c.Calls n := by
  unfold openCallNodes relevantCalls at h
  obtain ⟨elements, he, h⟩ := except_bind_eq_ok.1 h
  obtain ⟨root, -, he⟩ := except_bind_eq_ok.1 he
  obtain ⟨opened, hopened, he⟩ := except_bind_eq_ok.1 he
  cases he
  rw [List.mapM_cons] at h
  obtain ⟨first, -, h⟩ := except_bind_eq_ok.1 h
  obtain ⟨rest, hrest, h⟩ := except_bind_eq_ok.1 h
  cases h
  intro n hn
  obtain ⟨element, helement, hstate⟩ := mem_of_mapM_ok hrest hn
  have hcalls : c.links.openCalls [] (path.nodes.take target).zipIdx = .ok opened := by
    cases ho : c.links.openCalls [] (path.nodes.take target).zipIdx with
    | error e => simp [ho, Except.mapError] at hopened
    | ok o => simpa [ho, Except.mapError] using hopened
  rcases Links.openCalls_spec hcalls element (List.mem_reverse.1 helement) with
    hno | ⟨m, hm, hentry⟩
  · cases hno
  · have hnode : path.nodes[element]? = some m := by
      rw [List.mk_mem_zipIdx_iff_getElem?, List.getElem?_take] at hm
      split at hm
      · exact hm
      · cases hm
    rw [callState_of_node hnode, if_pos hentry] at hstate
    cases hstate
    exact Table.contains_eq_true_iff.1 hentry

theorem Context.openCallNodes_ne_nil {target : PathIndex} {calls : List NodeId}
    (h : c.openCallNodes path target = .ok calls) : calls ≠ [] := by
  unfold openCallNodes relevantCalls at h
  obtain ⟨elements, he, h⟩ := except_bind_eq_ok.1 h
  obtain ⟨root, -, he⟩ := except_bind_eq_ok.1 he
  obtain ⟨opened, -, he⟩ := except_bind_eq_ok.1 he
  cases he
  rw [List.mapM_cons] at h
  obtain ⟨first, -, h⟩ := except_bind_eq_ok.1 h
  obtain ⟨rest, -, h⟩ := except_bind_eq_ok.1 h
  cases h
  exact List.cons_ne_nil _ _

theorem Context.pairsCall_zip {calls : List NodeId} (h : ∀ n ∈ calls.tail, c.Calls n) :
    c.PairsCall ((calls.zip calls.tail).foldl schedule []) := by
  intro pair hp
  have hzip : (pair.1, pair.2) ∈ calls.zip calls.tail :=
    (mem_foldl_schedule.1 hp).resolve_left List.not_mem_nil
  exact h pair.2 (List.of_mem_zip hzip).2

end Blockwise
