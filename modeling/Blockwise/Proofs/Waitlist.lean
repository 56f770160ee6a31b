import Blockwise.Proofs.Graph.Removal

/-!
Taking nodes from a waitlist. Entries of former members and repeated entries may stand anywhere in
it. One end of the waitlist is the front of a queue; from there the entries up to the first one of a
member are dropped, and the entries behind that stay as they are. So taking nodes until there is
none comes to the entries of members, each once and in the order of the queue.
-/
namespace Blockwise.ReachedSet

variable {r r' : ReachedSet} {n : NodeId} {entries taken : List NodeId}

/-- The entries of the waitlist in the order in which they are taken. -/
def queue (r : ReachedSet) : List NodeId :=
  match r.order with
  | .fifo => r.waitlist
  | .lifo => r.waitlist.reverse

def withQueue (r : ReachedSet) (entries : List NodeId) : ReachedSet :=
  { r with waitlist := match r.order with
      | .fifo => entries
      | .lifo => entries.reverse }

theorem queue_withQueue (r : ReachedSet) (entries : List NodeId) :
    (r.withQueue entries).queue = entries := by
  unfold withQueue queue
  cases r.order with
  | fifo => rfl
  | lifo => exact List.reverse_reverse entries

theorem withQueue_queue (r : ReachedSet) : r.withQueue r.queue = r := by
  cases r with
  | mk id first last nodes waitlist order =>
    cases order with
    | fifo => rfl
    | lifo => simp [withQueue, queue]

theorem withQueue_nil (r : ReachedSet) : r.withQueue [] = { r with waitlist := [] } := by
  unfold withQueue
  cases r.order <;> rfl

theorem mem_queue : n ∈ r.queue ↔ n ∈ r.waitlist := by
  unfold queue
  cases r.order with
  | fifo => exact Iff.rfl
  | lifo => exact List.mem_reverse

theorem pop_eq (r : ReachedSet) : r.pop =
    ((r.queue.dropWhile (· ∉ r)).head?, r.withQueue (r.queue.dropWhile (· ∉ r)).tail) := by
  unfold pop queue withQueue
  cases r.order <;> rfl

theorem pop_withQueue (r : ReachedSet) (entries : List NodeId) : (r.withQueue entries).pop =
    ((entries.dropWhile (· ∉ r)).head?, r.withQueue (entries.dropWhile (· ∉ r)).tail) := by
  have h := pop_eq (r.withQueue entries)
  rw [queue_withQueue] at h
  exact h

theorem pop_nil (r : ReachedSet) : (r.withQueue []).pop = (none, r.withQueue []) :=
  pop_withQueue r []

theorem pop_cons_of_mem (hn : n ∈ r) (entries : List NodeId) :
    (r.withQueue (n :: entries)).pop = (some n, r.withQueue entries) := by
  rw [pop_withQueue, List.dropWhile_cons_of_neg (by simpa using hn)]
  rfl

theorem pop_cons_of_not_mem (hn : n ∉ r) (entries : List NodeId) :
    (r.withQueue (n :: entries)).pop = (r.withQueue entries).pop := by
  rw [pop_withQueue, pop_withQueue, List.dropWhile_cons_of_pos (by simpa using hn)]

theorem pop_cases (r : ReachedSet) (entries : List NodeId) :
    ((∀ a ∈ entries, a ∉ r) ∧ (r.withQueue entries).pop = (none, r.withQueue [])) ∨
      ∃ dropped n rest, entries = dropped ++ n :: rest ∧ (∀ a ∈ dropped, a ∉ r) ∧ n ∈ r ∧
        (r.withQueue entries).pop = (some n, r.withQueue rest) := by
  induction entries with
  | nil => exact Or.inl ⟨by simp, pop_nil r⟩
  | cons a entries ih =>
    by_cases ha : a ∈ r
    · exact Or.inr ⟨[], a, entries, rfl, by simp, ha, pop_cons_of_mem ha entries⟩
    · rw [pop_cons_of_not_mem ha]
      rcases ih with ⟨hnone, hpop⟩ | ⟨dropped, n, rest, hsplit, hdropped, hn, hpop⟩
      · exact Or.inl ⟨List.forall_mem_cons.2 ⟨ha, hnone⟩, hpop⟩
      · refine Or.inr ⟨a :: dropped, n, rest, ?_, List.forall_mem_cons.2 ⟨ha, hdropped⟩, hn, hpop⟩
        rw [hsplit, List.cons_append]

/-- Nodes are taken until there is none: `taken` in turn, and `r'` is left. -/
inductive Drains : ReachedSet → List NodeId → ReachedSet → Prop
  | done {r : ReachedSet} (h : r.pop.1 = none) : Drains r [] r.pop.2
  | take {r r' : ReachedSet} {n : NodeId} {taken : List NodeId} (h : r.pop.1 = some n)
      (rest : Drains r.pop.2 taken r') : Drains r (n :: taken) r'

theorem Drains.congr {s : ReachedSet} (h : r.pop = s.pop) (hd : r.Drains taken r') :
    s.Drains taken r' := by
  cases hd with
  | done hnone =>
    rw [h] at hnone ⊢
    exact .done hnone
  | take hsome rest =>
    rw [h] at hsome rest
    exact .take hsome rest

theorem drains_withQueue (r : ReachedSet) (entries : List NodeId) :
    (r.withQueue entries).Drains (entries.filter (· ∈ r)) (r.withQueue []) := by
  induction entries with
  | nil =>
    have h := Drains.done (r := r.withQueue []) (by rw [pop_nil])
    rwa [pop_nil] at h
  | cons a entries ih =>
    by_cases ha : a ∈ r
    · rw [List.filter_cons_of_pos (by simpa using ha)]
      apply Drains.take
      · rw [pop_cons_of_mem ha]
      · rwa [pop_cons_of_mem ha]
    · rw [List.filter_cons_of_neg (by simpa using ha)]
      exact ih.congr (pop_cons_of_not_mem ha entries).symm

theorem Drains.unique {taken' : List NodeId} {r'' : ReachedSet} (h : r.Drains taken r')
    (h' : r.Drains taken' r'') : taken' = taken ∧ r'' = r' := by
  induction h generalizing taken' r'' with
  | done hnone =>
    cases h' with
    | done => exact ⟨rfl, rfl⟩
    | take hsome =>
      rw [hnone] at hsome
      cases hsome
  | take hsome _ ih =>
    cases h' with
    | done hnone =>
      rw [hnone] at hsome
      cases hsome
    | take hsome' rest =>
      obtain ⟨htaken, hleft⟩ := ih rest
      rw [hsome] at hsome'
      cases hsome'
      exact ⟨by rw [htaken], hleft⟩

theorem drains_iff : r.Drains taken r' ↔ taken = r.queue.filter (· ∈ r) ∧ r' = r.withQueue [] := by
  have h := drains_withQueue r r.queue
  rw [withQueue_queue] at h
  constructor
  · intro hd
    exact h.unique hd
  · rintro ⟨rfl, rfl⟩
    exact h

theorem hasWaiting_iff : r.hasWaiting = true ↔ ∃ n, r.pop.1 = some n := by
  have hmember : r.hasWaiting = true ↔ ∃ a ∈ r.queue, a ∈ r := by
    simp [hasWaiting, mem_queue]
  have hpop := pop_cases r r.queue
  rw [withQueue_queue] at hpop
  rw [hmember]
  rcases hpop with ⟨hnone, hpop⟩ | ⟨dropped, n, rest, hsplit, -, hn, hpop⟩
  · rw [hpop]
    constructor
    · rintro ⟨a, ha, hmem⟩
      exact absurd hmem (hnone a ha)
    · rintro ⟨n, hn⟩
      cases hn
  · rw [hpop]
    refine ⟨fun _ => ⟨n, rfl⟩, fun _ => ⟨n, ?_, hn⟩⟩
    rw [hsplit]
    exact List.mem_append_right _ (List.mem_cons_self ..)

/-- A pop takes the first entry of a member from the queue, so pops until nothing is left take each
entry of a member in turn. -/
theorem waitlist_taken_in_turn (r : ReachedSet) :
    (r.hasWaiting = true ↔ ∃ n, r.pop.1 = some n) ∧
    ((∀ a ∈ r.queue, a ∉ r) ∧ r.pop = (none, r.withQueue []) ∨
      ∃ dropped n rest, r.queue = dropped ++ n :: rest ∧ (∀ a ∈ dropped, a ∉ r) ∧ n ∈ r ∧
        r.pop = (some n, r.withQueue rest)) ∧
    (∀ taken r', r.Drains taken r' ↔ taken = r.queue.filter (· ∈ r) ∧ r' = r.withQueue []) ∧
    ∀ again : List NodeId, ∃ waiting,
      again.foldl (fun s n => s.reAdd n) (r.withQueue []) = { r with waitlist := waiting } ∧
        ∀ n, waiting.count n = if n ∈ again ∧ n ∈ r then 1 else 0 := by
  have hpop := pop_cases r r.queue
  rw [withQueue_queue] at hpop
  refine ⟨hasWaiting_iff, hpop, fun taken r' => drains_iff, fun again => ?_⟩
  rw [withQueue_nil]
  obtain ⟨waiting, hset, hmem, -, hnodup⟩ := foldl_reAdd_spec again { r with waitlist := [] }
  refine ⟨waiting, hset, fun n => ?_⟩
  have hn : n ∈ waiting ↔ n ∈ again ∧ n ∈ r :=
    (hmem n).trans ⟨fun h => ⟨h.1, h.2.1⟩, fun h => ⟨h.1, h.2, List.not_mem_nil⟩⟩
  have hcount : waiting.Nodup := hnodup .nil
  rw [hcount.count]
  exact if_congr hn rfl rfl

namespace StaleEntries

def waiting : ReachedSet where
  id := 0
  first := 1
  last := 2
  nodes := .ofList [1, 2]
  waitlist := [7, 2, 8, 1, 2, 9]
  order := .lifo

theorem stale_entries_skipped :
    (∃ n, waiting.pop.1 = some n) ∧ 9 ∉ waiting ∧
    waiting.pop = (some 2, waiting.withQueue [1, 8, 2, 7]) ∧
    waiting.Drains [2, 1, 2] (waiting.withQueue []) ∧
    ∃ after, [2, 7, 2].foldl (fun s n => s.reAdd n) (waiting.withQueue []) =
      { waiting with waitlist := after } ∧ after.count 2 = 1 ∧ after.count 7 = 0 := by
  obtain ⟨hwaiting, -, hdrains, hagain⟩ := waitlist_taken_in_turn waiting
  refine ⟨hwaiting.1 (by decide), by decide, by decide, (hdrains _ _).2 ⟨by decide, rfl⟩, ?_⟩
  obtain ⟨after, hset, hcount⟩ := hagain [2, 7, 2]
  exact ⟨after, hset, (hcount 2).trans (by decide), (hcount 7).trans (by decide)⟩

end StaleEntries

end Blockwise.ReachedSet
