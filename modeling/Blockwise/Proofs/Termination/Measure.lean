import Blockwise.Proofs.Exploration.Agreement
import Blockwise.Proofs.Exploration.Derivation
import Blockwise.Proofs.Termination.Bounds
import Blockwise.Proofs.Termination.Weight
import Mathlib.Data.Set.Card
import Mathlib.Order.Interval.Finset.Nat

/-!
The weight of a context. What can still be found are the pairs of a reached set and a state that no
uncovered node of the set shows; there are finitely many, since each block is entered from finitely
many keys. The nodes that wait count with their ranks: the view of an exit ranks below the call
node, unless a chain of blocks, each starting where the one before returns, leads back to its start.
-/
namespace Blockwise

open Relation (ReflTransGen TransGen)
open Context

variable {program : Program} {init : State} {tracked : Tracked} {c c' : Context} {n k : NodeId}
  {s t : SetId} {p : Node State Tracked}

/-! ### Ranks -/

namespace Partitioning

variable {P : Partitioning}

def ReturnsAt (P : Partitioning) (l l' : Location) : Prop :=
  ∃ b, P.block? l = some b ∧ b.isReturnNode l' = true

/-- No chain of blocks, each of which starts where the one before returns, leads back. -/
def Unchained (P : Partitioning) : Prop := ∀ l, ¬ TransGen P.ReturnsAt l l

/-- How many locations the chains of blocks from the location of `s` come to. -/
noncomputable def rank (P : Partitioning) (s : State) : Nat :=
  if s.target then 0 else {l | TransGen P.ReturnsAt s.location l}.ncard + 1

theorem finite_returnsAt (P : Partitioning) (l : Location) :
    {l' | TransGen P.ReturnsAt l l'}.Finite := by
  refine (List.finite_toSet (P.blocks.entries.flatMap fun e => e.2.returns.toList)).subset ?_
  intro l' hl
  obtain ⟨m, -, b, hb, hreturn⟩ := TransGen.tail'_iff.1 hl
  refine List.mem_flatMap.2 ⟨(m, b), Table.mem_entries_iff.2 hb, ?_⟩
  simpa [Block.isReturnNode] using hreturn

theorem unchained_of_ascending (h : ∀ e ∈ P.blocks.entries, ∀ l ∈ e.2.returns.toList,
    P.isCallNode l = true → e.1 < l) : P.Unchained := by
  have step : ∀ {l l'}, P.ReturnsAt l l' → P.isCallNode l' = true → l < l' := by
    rintro l l' ⟨b, hb, hreturn⟩ hcall
    exact h (l, b) (Table.mem_entries_iff.2 hb) l'
      (by simpa [Block.isReturnNode] using hreturn) hcall
  have call : ∀ {l l'}, TransGen P.ReturnsAt l l' → P.isCallNode l = true := by
    intro l l' hl
    obtain ⟨-, ⟨b, hb, -⟩, -⟩ := TransGen.head'_iff.1 hl
    exact Table.contains_eq_true_iff.2 ⟨b, hb⟩
  have ascend : ∀ {l l'}, TransGen P.ReturnsAt l l' → P.isCallNode l' = true → l < l' := by
    intro l l' hl hcall
    induction hl with
    | single hl => exact step hl hcall
    | tail hl hs ih => exact (ih (call (.single hs))).trans (step hs hcall)
  exact fun l hl => Nat.lt_irrefl l (ascend hl (call hl))

theorem rank_lt (h : P.Unchained) {caller view : State} (hcaller : caller.target = false)
    (hview : view.target = true ∨ P.ReturnsAt caller.location view.location) :
    P.rank view < P.rank caller := by
  rw [rank, rank, hcaller]
  split
  · exact Nat.succ_pos _
  · rename_i htarget
    have hreturn := hview.resolve_left (by simpa using htarget)
    refine Nat.succ_lt_succ (Set.ncard_lt_ncard ⟨fun l hl => hl.head hreturn, fun hsub => ?_⟩
      (finite_returnsAt P _))
    exact h _ (hsub (TransGen.single hreturn))

end Partitioning

namespace Context

/-! ### Bounded contexts -/

/-- The states and precisions come from the start and the edges, and the reached sets of all blocks
are stored. -/
structure Contained (program : Program) (init : State) (tracked : Tracked) (c : Context) : Prop
    extends Sound c where
  allStored : c.AllStored
  state : ∀ n m, c.graph.Live n m → program.Bounds init m.state
  precision : ∀ n m, c.graph.Live n m → ∀ x ∈ m.precision, x ∈ tracked

theorem Contained.start (program : Program) (partitioning : Partitioning) (reducer : Reducer)
    (init : State) (tracked : Tracked) (options : Options) :
    (Context.start partitioning reducer init tracked options).Contained program init tracked where
  toSound := sound_start partitioning reducer init tracked options
  allStored := (Unrepaired.start partitioning reducer init tracked options).allStored
  state := by
    intro n m hm
    rcases live_addReachedSet_iff.1 hm with ⟨-, rfl⟩ | hm
    · exact .refl program init
    · exact absurd hm.lt_size (Nat.not_lt_zero _)
  precision := by
    intro n m hm
    rcases live_addReachedSet_iff.1 hm with ⟨-, rfl⟩ | hm
    · exact fun _ => id
    · exact absurd hm.lt_size (Nat.not_lt_zero _)

theorem Contained.grows (hfree : program.CallFree) (h : c.Contained program init tracked)
    (g : Grows program c c') : c'.Contained program init tracked := by
  have hnode : ∀ n m, c'.graph.Live n m →
      program.Bounds init m.state ∧ ∀ x ∈ m.precision, x ∈ tracked := by
    induction g with
    | refl => exact fun n m hm => ⟨h.state n m hm, h.precision n m hm⟩
    | quiet _ _ _ ih => exact ih
    | pop _ _ ih => exact ih
    | @resolve d d' n t g _ _ _ st ih =>
      cases st with
      | stored => exact ih
      | similar => exact ih
      | @fresh p K hp ht hK hs =>
        intro k m hm
        rcases live_addReachedSet_iff.1 hm with ⟨-, rfl⟩ | hm
        · obtain ⟨q, b, hq, -, hstate, hprecision, -⟩ := reducedFor_spec hK
          cases Option.some.inj (hq.symm.trans hp.1)
          obtain ⟨hbounds, htracked⟩ := ih n p hp
          refine ⟨hstate ▸ hbounds.reduceState _ _, fun x hx => htracked x ?_⟩
          rw [hprecision] at hx
          exact (Reducer.mem_reducePrecision.1 hx).1
        · exact ih k m hm
    | @unfold d d' n g _ _ st ih =>
      have hd := (g.sound h.toSound).toStructured
      cases st with
      | @successor p r state precision next cover hp hr ht hn hc =>
        intro k m hm
        rcases (live_sprout_iff (fertile_of_findCover hd hp hr hc)).1 hm with
          ⟨-, rfl⟩ | ⟨m₀, hm₀, rfl⟩
        · obtain ⟨hbounds, htracked⟩ := ih n p hp
          obtain ⟨rfl, rfl, -⟩ := successors_of_task hd hp ht
          exact ⟨hbounds.successor hfree hn, htracked⟩
        · exact ih k m₀ hm₀
      | @expand p m r t x b hp hr ht hs hx hb hm =>
        intro k mk hk
        rcases (live_sprout_iff ⟨hp, hr, by simp⟩).1 hk with ⟨-, rfl⟩ | ⟨m₀, hm₀, rfl⟩
        · obtain ⟨hbounds, htracked⟩ := ih n p hp
          exact ⟨hbounds.expand (ih x m hm).1 _ _, htracked⟩
        · exact ih k m₀ hm₀
      | record => exact ih
  exact {
    toSound := g.sound h.toSound
    allStored := g.allStored h.toSound h.allStored
    state := fun n m hm => (hnode n m hm).1
    precision := fun n m hm => (hnode n m hm).2 }

theorem Contained.sets_size_le (h : c.Contained program init tracked) :
    c.sets.size ≤ {K | program.BoundedKey init tracked K}.ncard + 1 := by
  have : Nonempty Key := ⟨⟨init, tracked, init.location⟩⟩
  choose! key hkey using h.allStored
  have hcard : (Finset.Ico 1 c.sets.size).card ≤
      {K | program.BoundedKey init tracked K}.ncard := by
    rw [← Set.ncard_coe_finset]
    refine Set.ncard_le_ncard_of_injOn key (fun s hs => ?_) (fun s hs t ht hst => ?_)
      (program.finite_boundedKey init tracked)
    · obtain ⟨hpos, hlt⟩ := Finset.mem_Ico.1 hs
      obtain ⟨-, ⟨r, f, hr, hf, hK⟩, -⟩ := h.stored (hkey s hpos hlt)
      rw [hK]
      exact ⟨h.state _ f hf, h.precision _ f hf, rfl⟩
    · obtain ⟨hpos, hlt⟩ := Finset.mem_Ico.1 hs
      obtain ⟨hpos', hlt'⟩ := Finset.mem_Ico.1 ht
      have hs := hkey s hpos hlt
      rw [hst, hkey t hpos' hlt'] at hs
      exact (Option.some.inj hs).symm
  rw [Nat.card_Ico] at hcard
  omega

/-! ### The weight of a context -/

/-- The pairs of a set and a state that no uncovered node of the set shows. -/
def vacant (program : Program) (init : State) (tracked : Tracked) (c : Context) :
    Set (SetId × State) :=
  {slot | slot.1 ≤ {K | program.BoundedKey init tracked K}.ncard ∧ program.Bounds init slot.2 ∧
    ¬ ∃ k, c.CoversAs k slot.1 slot.2}

open Classical in
noncomputable def waiting (c : Context) : Finset NodeId :=
  {n ∈ Finset.range c.graph.size | c.Waits n}

noncomputable def rankAt (c : Context) (n : NodeId) : Nat :=
  (c.stateOf n).elim 0 c.partitioning.rank

noncomputable def ranks (c : Context) : Multiset Nat := c.waiting.val.map c.rankAt

noncomputable def weight (program : Program) (init : State) (tracked : Tracked) (c : Context) :
    Weight :=
  ((c.vacant program init tracked).ncard, c.ranks)

theorem finite_vacant (program : Program) (init : State) (tracked : Tracked) (c : Context) :
    (c.vacant program init tracked).Finite :=
  ((Set.finite_le_nat _).prod (Program.Bounds.finite program init)).subset
    fun _ hslot => ⟨hslot.1, hslot.2.1⟩

theorem Extends.vacant_subset (e : c.Extends c') :
    c'.vacant program init tracked ⊆ c.vacant program init tracked :=
  fun _ ⟨hs, hb, hno⟩ => ⟨hs, hb, fun ⟨k, hk⟩ => hno ⟨k, e.coversAs hk⟩⟩

theorem Extends.vacant_le (e : c.Extends c') :
    (c'.vacant program init tracked).ncard ≤ (c.vacant program init tracked).ncard :=
  Set.ncard_le_ncard e.vacant_subset (finite_vacant program init tracked c)

theorem Extends.weight_lt (e : c.Extends c') (h' : c'.Contained program init tracked)
    {m : Node State Tracked} (hm : c'.graph.Live k m) (hcover : m.coveredBy = none)
    (hno : ∀ k, ¬ c.CoversAs k m.set m.state) :
    (c'.weight program init tracked).Lt (c.weight program init tracked) := by
  refine Weight.lt_of_found (Set.ncard_lt_ncard ⟨e.vacant_subset, fun hsub => ?_⟩
    (finite_vacant program init tracked c))
  have hset := Nat.le_of_lt_succ (Nat.lt_of_lt_of_le (h'.set_lt hm) h'.sets_size_le)
  have hslot : (m.set, m.state) ∈ c.vacant program init tracked :=
    ⟨hset, h'.state k m hm, fun ⟨k', hk'⟩ => hno k' hk'⟩
  exact (hsub hslot).2.2 ⟨k, m, hm, rfl, hcover, rfl⟩

theorem mem_waiting (h : c.Structured) : n ∈ c.waiting ↔ c.Waits n := by
  simp only [waiting, Finset.mem_filter, Finset.mem_range]
  exact ⟨And.right, fun hn => ⟨h.lt_of_waits hn, hn⟩⟩

theorem Evolves.rankAt (e : c.Evolves c') (hn : n < c.graph.size) : c'.rankAt n = c.rankAt n := by
  rw [Context.rankAt, Context.rankAt, e.stateOf hn, e.partitioning]

theorem rankAt_live {m : Node State Tracked} (hm : c.graph.Live n m) :
    c.rankAt n = c.partitioning.rank m.state := by
  rw [rankAt, stateOf, hm.1]
  rfl

theorem Evolves.ranks_le (e : c.Evolves c') (h : c.Structured) (h' : c'.Structured)
    (new : Finset NodeId) (hw : ∀ k, c'.Waits k → c.Waits k ∨ k ∈ new) :
    c'.ranks ≤ c.ranks + new.val.map c'.rankAt := by
  have hsub : c'.waiting ⊆ c.waiting ∪ new := by
    intro k hk
    rw [Finset.mem_union, mem_waiting h]
    exact hw k ((mem_waiting h').1 hk)
  have hold : c.ranks = c.waiting.val.map c'.rankAt :=
    Multiset.map_congr rfl fun k hk => (e.rankAt (h.lt_of_waits ((mem_waiting h).1 hk))).symm
  rw [hold, ranks, ← Multiset.map_add]
  refine Multiset.map_le_map ((Finset.val_le_iff.2 hsub).trans ?_)
  rw [Finset.union_val]
  exact Multiset.union_le_add _ _

theorem Evolves.ranks_le_of_still (e : c.Evolves c') (h : c.Structured) (h' : c'.Structured)
    (hw : ∀ k, c'.Waits k → c.Waits k) : c'.ranks ≤ c.ranks := by
  simpa using e.ranks_le h h' ∅ fun k hk => Or.inl (hw k hk)

theorem Evolves.ranks_pop (e : c.Evolves c') (h : c.Structured) (h' : c'.Structured)
    (hw : ∀ k, c'.Waits k → c.Waits k) (hn : c.Waits n) (hgone : ¬ c'.Waits n) :
    c'.ranks + {c.rankAt n} ≤ c.ranks := by
  have hle : c'.waiting.cons n (fun hmem => hgone ((mem_waiting h').1 hmem)) ≤ c.waiting := by
    intro k hk
    rw [Finset.mem_cons] at hk
    rw [mem_waiting h]
    rcases hk with rfl | hk
    · exact hn
    · exact hw k ((mem_waiting h').1 hk)
  have hold : c.ranks = c.waiting.val.map c'.rankAt :=
    Multiset.map_congr rfl fun k hk => (e.rankAt (h.lt_of_waits ((mem_waiting h).1 hk))).symm
  have hmap := Multiset.map_le_map (f := c'.rankAt) (Finset.val_le_iff.2 hle)
  rw [Finset.cons_val, Multiset.map_cons, e.rankAt (h.lt_of_waits hn), ← hold] at hmap
  rw [ranks, add_comm, Multiset.singleton_add]
  exact hmap

end Context

/-! ### Steps -/

theorem Resolves.weight_le (h : c.Sound) (h' : c'.Contained program init tracked)
    (st : Resolves n c t c') :
    (c'.weight program init tracked).Le (c.weight program init tracked) := by
  obtain ⟨-, e⟩ := st.spec h
  cases st with
  | stored => exact .refl _
  | similar => exact .refl _
  | @fresh p K =>
    have hnew : (c.addReachedSet K.state K.precision).graph.Live c.graph.size
        { id := c.graph.size, state := K.state, precision := K.precision, set := c.sets.size } :=
      live_addReachedSet_iff.2 (Or.inl ⟨rfl, rfl⟩)
    refine Or.inr (e.weight_lt h' hnew rfl ?_)
    rintro k ⟨m, hm, hset, -⟩
    exact absurd (h.set_lt hm) (hset ▸ Nat.lt_irrefl _)

namespace Unfolds

theorem weight_le (h : c.Sound) (h' : c'.Contained program init tracked)
    (hp : c.graph.Live n p) {state : State} {precision : Tracked}
    (htask : c.task p.set n = .ok (.successors state precision)) (st : Unfolds program n c c') :
    (c'.weight program init tracked).Le (c.weight program init tracked) := by
  obtain ⟨-, e⟩ := st.spec h
  cases st with
  | @successor q r _ _ next cover hq hr _ _ hc =>
    have hf := fertile_of_findCover h.toStructured hq hr hc
    cases cover with
    | none =>
      refine Or.inr (e.weight_lt h' ((live_sprout_iff hf).2 (Or.inl ⟨rfl, rfl⟩)) rfl ?_)
      rintro k ⟨m, hm, hset, hcover, hstate⟩
      exact Graph.findCover_none hc ((h.mem_iff hr).2 ⟨m, hm, hset⟩) hm hcover hstate
    | some cover =>
      refine Weight.le_of_fewer e.vacant_le (e.evolves.ranks_le_of_still h.toStructured
        h'.toStructured ?_)
      rintro k ⟨u, v, hv, hk⟩
      obtain ⟨v₀, hv₀, -, -, -, hw | ⟨-, hno, -⟩⟩ := mem_of_sets_sprout hf hv
      · exact ⟨u, v₀, hv₀, hw ▸ hk⟩
      · cases hno
  | expand hq _ ht =>
    cases hp.unique hq
    rw [htask] at ht
    cases ht
  | record => exact .refl _

theorem ranks_le (hP : c.partitioning.Unchained) (h : c.Sound) (hp : c.graph.Live n p)
    (htask : c.task p.set n = .ok .call) (st : Unfolds program n c c') :
    ∃ new : Multiset Nat, (∀ a ∈ new, a < c.partitioning.rank p.state) ∧
      c'.ranks ≤ c.ranks + new := by
  obtain ⟨h', e⟩ := st.spec h
  have hopen : ∀ k, c'.Waits k → c.Open k := fun k => st.waits h.toStructured
  cases st with
  | successor hq _ ht =>
    cases hp.unique hq
    rw [htask] at ht
    cases ht
  | @expand q m r t x b hq hr ht hs hx hb hm =>
    cases hp.unique hq
    have hf : c.Fertile n p r none := ⟨hp, hr, by simp⟩
    have hle := e.evolves.ranks_le h.toStructured h'.toStructured {c.graph.size} fun k hk =>
      (hopen k hk).imp_right fun hge => by
        have hlt : k < c.graph.size + 1 := Graph.size_sprout ▸ h'.lt_of_waits hk
        exact Finset.mem_singleton.2 (Nat.le_antisymm (Nat.le_of_lt_succ hlt) hge)
    refine ⟨_, ?_, hle⟩
    intro a ha
    rw [Finset.singleton_val, Multiset.map_singleton, Multiset.mem_singleton] at ha
    have hnew :
        (c.sprout n p r (c.reducer.expand p.state b m.state) none).graph.Live c.graph.size _ :=
      (live_sprout_iff hf).2 (Or.inl ⟨rfl, rfl⟩)
    have hrank := rankAt_live hnew
    rw [ha]
    refine hrank.trans_lt (Partitioning.rank_lt hP (call_of_task h.toStructured hp htask).1 ?_)
    obtain ⟨r', f, b', m', hr', hf', hb', -, -, hm', hexit⟩ := hx
    obtain ⟨mn, _, r'', f', hmn, -, -, hr'', hf'', -, hstate⟩ := h.call hs
    cases Option.some.inj (hr'.symm.trans hr'')
    cases hf'.unique hf''
    cases hm.unique hm'
    cases Option.some.inj (hmn.symm.trans hp.1)
    rcases Bool.or_eq_true_iff.1 hexit with hreturn | htarget
    · exact Or.inr ⟨b', by rw [hstate] at hb'; exact hb', hreturn⟩
    · exact Or.inl htarget
  | record => exact ⟨0, by simp, by simp [Context.ranks, Context.waiting, Context.rankAt]; rfl⟩

end Unfolds

theorem unfolds_ranks_le (hP : c.partitioning.Unchained) (h : c.Sound) (hp : c.graph.Live n p)
    (htask : c.task p.set n = .ok .call) (st : ReflTransGen (Unfolds program n) c c') :
    ∃ new : Multiset Nat, (∀ a ∈ new, a < c.partitioning.rank p.state) ∧
      c'.ranks ≤ c.ranks + new := by
  induction st with
  | refl => exact ⟨0, by simp, by simp⟩
  | @tail d d' st' st ih =>
    obtain ⟨new, hnew, hle⟩ := ih
    obtain ⟨hd, e, -⟩ := unfolds_spec h st'
    obtain ⟨p', hp', hps, -, hset, -⟩ := e.node hp
    obtain ⟨new', hnew', hle'⟩ := st.ranks_le (e.evolves.partitioning ▸ hP) hd hp'
      (hset ▸ e.task h.toStructured htask)
    rw [e.evolves.partitioning, hps] at hnew'
    refine ⟨new + new', fun a ha => ?_, ?_⟩
    · exact (Multiset.mem_add.1 ha).elim (hnew a) (hnew' a)
    · rw [← add_assoc]
      exact hle'.trans (add_le_add_left hle new')

end Blockwise
