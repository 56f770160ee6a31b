import Blockwise.Exploration
import Blockwise.Proofs.Context.Sound
import Blockwise.Proofs.Outcome

/-!
What the readers of a context report: the task at a node, the node that can cover a new state, the
exits of a reached set and the key of a block invocation. Nothing of it is lost while a context
grows.
-/
namespace Blockwise

theorem Graph.findCover_spec {g : Graph State Tracked} {state : State} {l : List NodeId}
    {k : NodeId} (h : g.findCover state l = .ok (some k)) :
    k ∈ l ∧ ∃ m, g.Live k m ∧ m.coveredBy = none ∧ m.state = state := by
  induction l with
  | nil => cases h
  | cons a l ih =>
    rw [Graph.findCover] at h
    cases ha : g.liveNode a with
    | error f =>
      rw [ha] at h
      cases h
    | ok m =>
      rw [ha] at h
      change (if m.coveredBy = none ∧ m.state = state then Except.ok (some a)
        else g.findCover state l) = .ok (some k) at h
      split at h
      · rename_i hm
        cases h
        exact ⟨List.mem_cons_self .., m, Graph.liveNode_eq_ok.1 ha, hm⟩
      · obtain ⟨hk, hm⟩ := ih h
        exact ⟨List.mem_cons_of_mem _ hk, hm⟩

theorem Graph.findCover_none {g : Graph State Tracked} {state : State} {l : List NodeId}
    (h : g.findCover state l = .ok none) {k : NodeId} (hk : k ∈ l) {m : Node State Tracked}
    (hm : g.Live k m) (hcover : m.coveredBy = none) : m.state ≠ state := by
  induction l with
  | nil => cases hk
  | cons a l ih =>
    obtain ⟨n, hn, h⟩ := except_bind_eq_ok.1 h
    split at h
    · cases h
    · rename_i hno
      rcases List.mem_cons.1 hk with rfl | hk
      · rw [Graph.liveNode_eq_ok.2 hm] at hn
        cases hn
        exact fun hs => hno ⟨hcover, hs⟩
      · exact ih h hk

theorem Graph.exists_findCover {g : Graph State Tracked} {l : List NodeId}
    (h : ∀ k ∈ l, ∃ m, g.Live k m) (state : State) : ∃ cover, g.findCover state l = .ok cover := by
  induction l with
  | nil => exact ⟨none, rfl⟩
  | cons a l ih =>
    obtain ⟨m, hm⟩ := h a (List.mem_cons_self ..)
    obtain ⟨cover, hc⟩ := ih fun k hk => h k (List.mem_cons_of_mem _ hk)
    simp only [Graph.findCover, Graph.liveNode_eq_ok.2 hm, bind, Except.bind]
    split
    · exact ⟨some a, rfl⟩
    · exact ⟨cover, hc⟩

namespace Context

variable {c c' : Context} {s t : SetId} {n : NodeId}

def HasBlock (c : Context) (s : SetId) : Prop :=
  ∃ r f b, c.sets[s]? = some r ∧ c.graph.Live r.first f ∧
    c.partitioning.block? f.state.location = some b

theorem CallOf.hasBlock (h : c.CallOf n t) : c.HasBlock t := by
  obtain ⟨m, b, r, f, -, -, -, hr, hf, hb, hstate⟩ := h
  refine ⟨r, f, b, hr, hf, ?_⟩
  rw [hstate]
  exact hb

theorem checkLive_nodes (h : c.Structured) {r : ReachedSet} (hr : c.sets[s]? = some r) :
    c.checkLive r.nodes.toList = .ok () := by
  refine checkLive_eq_ok.2 fun n hn => ?_
  obtain ⟨m, hm, -⟩ := h.live_of_mem hr hn
  exact ⟨m, hm⟩

def Inner (c : Context) (s : SetId) (n : NodeId) (location : Location) : Prop :=
  ∃ r f, c.sets[s]? = some r ∧ c.graph.Live r.first f ∧ n ≠ r.first ∧
    (s ≠ .topLevel → ∃ b, c.partitioning.block? f.state.location = some b ∧
      b.isReturnNode location = false)

theorem task_eq {m : Node State Tracked} {r : ReachedSet} {f : Node State Tracked}
    (hm : c.graph.Live n m) (hr : c.sets[s]? = some r) (hf : c.graph.Live r.first f) :
    c.task s n =
      if m.state.target then .ok .stop
      else if n = r.first then .ok (.successors m.state m.precision)
      else if s ≠ .topLevel then do
        let b ← c.partitioning.block f.state.location
        if b.isReturnNode m.state.location then .ok .stop
        else if c.partitioning.isCallNode m.state.location then .ok .call
        else .ok (.successors m.state m.precision)
      else if c.partitioning.isCallNode m.state.location then .ok .call
      else .ok (.successors m.state m.precision) := by
  unfold task
  simp only [bind, Except.bind, pure, Except.pure, Graph.liveNode_eq_ok.2 hm,
    reachedSet_eq_ok.2 hr, Graph.liveNode_eq_ok.2 hf]

theorem exists_task (h : c.Structured) {m : Node State Tracked} (hm : c.graph.Live n m)
    (hb : m.set ≠ .topLevel → c.HasBlock m.set) : ∃ todo, c.task m.set n = .ok todo := by
  obtain ⟨r, hr, -⟩ := h.set_of_live hm
  obtain ⟨f, hf, -⟩ := h.live_first hr
  rw [task_eq hm hr hf]
  have hinner : ∃ todo, (if c.partitioning.isCallNode m.state.location = true then Except.ok .call
      else .ok (.successors m.state m.precision)) = (.ok todo : Except Fault NodeTask) := by
    split <;> exact ⟨_, rfl⟩
  split
  · exact ⟨_, rfl⟩
  split
  · exact ⟨_, rfl⟩
  split
  · rename_i hs
    obtain ⟨r', f', b, hr', hf', hb⟩ := hb hs
    cases Option.some.inj (hr.symm.trans hr')
    cases hf.unique hf'
    simp only [Partitioning.block_eq_ok_iff.2 hb, bind, Except.bind]
    split
    · exact ⟨_, rfl⟩
    · exact hinner
  · exact hinner

theorem live_of_task {todo : NodeTask} (ht : c.task s n = .ok todo) :
    ∃ m, c.graph.Live n m ∧ (m.state.target = true ∧ todo = .stop ∨
      m.state.target = false ∧ ∃ r, c.sets[s]? = some r) := by
  unfold Context.task at ht
  simp only [bind, Except.bind, pure, Except.pure] at ht
  cases hm : c.graph.liveNode n with
  | error e => simp [hm] at ht
  | ok m =>
    refine ⟨m, Graph.liveNode_eq_ok.1 hm, ?_⟩
    cases htarget : m.state.target with
    | true =>
      simp only [hm, htarget, if_true, Except.ok.injEq] at ht
      exact Or.inl ⟨rfl, ht.symm⟩
    | false =>
      cases hr : c.reachedSet s with
      | error e => simp [hm, htarget, hr] at ht
      | ok r => exact Or.inr ⟨rfl, r, reachedSet_eq_ok.1 hr⟩

theorem task_cases (h : c.Structured) {todo : NodeTask} (ht : c.task s n = .ok todo) :
    ∃ m, c.graph.Live n m ∧
      (todo = .stop ∨ m.state.target = false ∧ ∃ r, c.sets[s]? = some r ∧
        (n = r.first ∧ todo = .successors m.state m.precision ∨
          c.Inner s n m.state.location ∧
            todo = if c.partitioning.isCallNode m.state.location then .call
              else .successors m.state m.precision)) := by
  obtain ⟨m, hm, ⟨-, hstop⟩ | ⟨htarget, r, hr⟩⟩ := live_of_task ht
  · exact ⟨m, hm, Or.inl hstop⟩
  · obtain ⟨f, hf, -⟩ := h.live_first hr
    rw [task_eq hm hr hf, if_neg (by simp [htarget])] at ht
    refine ⟨m, hm, ?_⟩
    split at ht
    · rename_i hfirst
      cases ht
      exact Or.inr ⟨htarget, r, hr, Or.inl ⟨hfirst, rfl⟩⟩
    · rename_i hfirst
      split at ht
      · rename_i hs
        cases hb : c.partitioning.block f.state.location with
        | error e => simp [hb, bind, Except.bind] at ht
        | ok b =>
          simp only [hb, bind, Except.bind] at ht
          split at ht
          · cases ht
            exact Or.inl rfl
          · rename_i hret
            refine Or.inr ⟨htarget, r, hr, Or.inr ⟨⟨r, f, hr, hf, hfirst, fun _ =>
              ⟨b, Partitioning.block_eq_ok_iff.1 hb, by simpa using hret⟩⟩, ?_⟩⟩
            split at ht <;> cases ht <;> simp_all
      · rename_i hs
        refine Or.inr ⟨htarget, r, hr, Or.inr ⟨⟨r, f, hr, hf, hfirst, fun h => absurd h hs⟩, ?_⟩⟩
        split at ht <;> cases ht <;> simp_all

theorem successors_of_task (h : c.Structured) {p : Node State Tracked} (hp : c.graph.Live n p)
    {state : State} {precision : Tracked}
    (ht : c.task p.set n = .ok (.successors state precision)) :
    state = p.state ∧ precision = p.precision ∧ p.state.target = false ∧
      (c.Heads n ∨ c.Inner p.set n p.state.location ∧
        c.partitioning.isCallNode p.state.location = false) := by
  obtain ⟨m, hm, hstop | ⟨htarget, r, hr, ⟨hfirst, htodo⟩ | ⟨hinner, htodo⟩⟩⟩ := task_cases h ht
  · cases hstop
  · cases hp.unique hm
    cases htodo
    exact ⟨rfl, rfl, htarget, Or.inl ⟨_, r, hr, hfirst.symm⟩⟩
  · cases hp.unique hm
    split at htodo
    · cases htodo
    · rename_i hcall
      cases htodo
      exact ⟨rfl, rfl, htarget, Or.inr ⟨hinner, by simpa using hcall⟩⟩

def IsExit (c : Context) (t : SetId) (x : NodeId) : Prop :=
  ∃ q f b m, c.sets[t]? = some q ∧ c.graph.Live q.first f ∧
    c.partitioning.block? f.state.location = some b ∧ x ∈ q ∧ x ≠ q.first ∧ c.graph.Live x m ∧
    (b.isReturnNode m.state.location || m.state.target) = true

theorem IsExit.set_eq (h : c.Structured) {x : NodeId} (hx : c.IsExit t x) {m : Node State Tracked}
    (hm : c.graph.Live x m) : m.set = t := by
  obtain ⟨r, -, -, -, hr, -, -, hmem, -⟩ := hx
  obtain ⟨m', hm', rfl⟩ := h.live_of_mem hr hmem
  rw [hm.unique hm']

theorem stateAt_iff {test : State → Bool} {m : Node State Tracked} (hm : c.graph.Live n m) :
    c.stateAt n test = test m.state := by
  rw [stateAt, hm.1]
  rfl

theorem blockExits_eq_ok {exits : List NodeId} : c.blockExits t = .ok exits ↔
    ∃ r f b, c.sets[t]? = some r ∧ c.graph.Live r.first f ∧
      c.partitioning.block? f.state.location = some b ∧
      (∀ x ∈ r.nodes.toList, ∃ m, c.graph.Live x m) ∧
      exits = r.nodes.toList.filter fun x =>
        x ≠ r.first && c.stateAt x fun s => b.isReturnNode s.location || s.target := by
  unfold blockExits
  constructor
  · intro he
    obtain ⟨r, hr, he⟩ := except_bind_eq_ok.1 he
    obtain ⟨f, hf, he⟩ := except_bind_eq_ok.1 he
    obtain ⟨b, hb, he⟩ := except_bind_eq_ok.1 he
    obtain ⟨_, hlive, he⟩ := except_bind_eq_ok.1 he
    cases he
    exact ⟨r, f, b, reachedSet_eq_ok.1 hr, Graph.liveNode_eq_ok.1 hf,
      Partitioning.block_eq_ok_iff.1 hb, checkLive_eq_ok.1 hlive, rfl⟩
  · rintro ⟨r, f, b, hr, hf, hb, hlive, rfl⟩
    rw [reachedSet_eq_ok.2 hr]
    simp only [Graph.liveNode_eq_ok.2 hf, Partitioning.block_eq_ok_iff.2 hb,
      checkLive_eq_ok.2 hlive, bind, Except.bind, pure, Except.pure]

theorem live_of_mem_blockExits {exits : List NodeId} (he : c.blockExits t = .ok exits) {x : NodeId}
    (hx : x ∈ exits) : ∃ m, c.graph.Live x m := by
  obtain ⟨r, f, b, -, -, -, hlive, rfl⟩ := blockExits_eq_ok.1 he
  exact hlive x (List.mem_filter.1 hx).1

theorem sorted_blockExits {exits : List NodeId} (he : c.blockExits t = .ok exits) :
    exits.Pairwise (· < ·) := by
  obtain ⟨r, f, b, -, -, -, -, rfl⟩ := blockExits_eq_ok.1 he
  exact r.nodes.sorted.filter _

theorem mem_blockExits_iff (h : c.Structured) {exits : List NodeId}
    (he : c.blockExits t = .ok exits) (x : NodeId) : x ∈ exits ↔ c.IsExit t x := by
  obtain ⟨q, f, b, hset, hf, hb, -, rfl⟩ := blockExits_eq_ok.1 he
  rw [List.mem_filter]
  constructor
  · rintro ⟨hx, htest⟩
    obtain ⟨m, hm, -⟩ := h.live_of_mem hset hx
    rw [Bool.and_eq_true, stateAt_iff hm] at htest
    exact ⟨q, f, b, m, hset, hf, hb, hx, by simpa using htest.1, hm, htest.2⟩
  · rintro ⟨q', f', b', m, hq', hf', hb', hx, hne, hm, htest⟩
    cases Option.some.inj (hset.symm.trans hq')
    cases hf.unique hf'
    cases Option.some.inj (hb.symm.trans hb')
    refine ⟨hx, ?_⟩
    rw [Bool.and_eq_true, stateAt_iff hm]
    exact ⟨by simpa using hne, htest⟩

theorem exists_blockExits (h : c.Structured) (hb : c.HasBlock t) :
    ∃ exits, c.blockExits t = .ok exits := by
  obtain ⟨r, f, b, hr, hf, hb⟩ := hb
  exact ⟨_, blockExits_eq_ok.2 ⟨r, f, b, hr, hf, hb, checkLive_eq_ok.1 (checkLive_nodes h hr), rfl⟩⟩

theorem exists_targets (h : c.Sound) : ∃ targets, c.targets = .ok targets := by
  have hr := Array.getElem?_eq_getElem h.topLevel
  have htop : c.topLevel = .ok _ := reachedSet_eq_ok.2 hr
  simp only [targets, htop, checkLive_nodes h.toStructured hr, bind, Except.bind, pure, Except.pure]
  exact ⟨_, rfl⟩

theorem mem_targets_iff (h : c.Structured) {targets : List NodeId} (ht : c.targets = .ok targets) :
    n ∈ targets ↔ ∃ m, c.graph.Live n m ∧ m.set = .topLevel ∧ m.state.target = true := by
  obtain ⟨r, hr, ht⟩ := except_bind_eq_ok.1 ht
  obtain ⟨-, -, ht⟩ := except_bind_eq_ok.1 ht
  cases ht
  have hset := reachedSet_eq_ok.1 hr
  rw [List.mem_filter]
  constructor
  · rintro ⟨hn, htarget⟩
    obtain ⟨m, hm, htop⟩ := h.live_of_mem hset hn
    exact ⟨m, hm, htop, by rwa [stateAt_iff hm] at htarget⟩
  · rintro ⟨m, hm, htop, htarget⟩
    exact ⟨(h.mem_iff hset).2 ⟨m, hm, htop⟩, by rwa [stateAt_iff hm]⟩

theorem reducedFor_eq_ok {m : Node State Tracked} {b : Block} (hm : c.graph.node? n = some m)
    (hb : c.partitioning.block? m.state.location = some b) :
    c.reducedFor n = .ok
      ⟨c.reducer.reduceState m.state b, c.reducer.reducePrecision m.precision b,
        m.state.location⟩ := by
  rw [reducedFor, Graph.node_eq_ok_iff.2 hm]
  simp only [Partitioning.block_eq_ok_iff.2 hb, bind, Except.bind]
  rfl

theorem reducedFor_spec {K : Key} (h : c.reducedFor n = .ok K) :
    ∃ m b, c.graph.node? n = some m ∧ c.partitioning.block? m.state.location = some b ∧
      K.state = c.reducer.reduceState m.state b ∧
      K.precision = c.reducer.reducePrecision m.precision b ∧ K.block = m.state.location ∧
      K.block = K.state.location := by
  unfold reducedFor at h
  simp only [bind, Except.bind, pure, Except.pure, Graph.node] at h
  cases hm : c.graph.node? n with
  | none => simp [hm] at h
  | some m =>
    cases hb : c.partitioning.block m.state.location with
    | error e => simp [hm, hb] at h
    | ok b =>
      simp only [hm, hb, Except.ok.injEq] at h
      subst h
      exact ⟨m, b, rfl, Partitioning.block_eq_ok_iff.1 hb, rfl, rfl, rfl, rfl⟩

end Context

theorem Action.poll_spec {c : Context} :
    Ensures poll c (fun _ c' => ∃ shutdown, c' = { c with shutdown })
    (fun fault c' => fault = .interrupted ∧ c' = c) := by
  simp only [poll, ensures_bind, ensures_get]
  rw [ensures_liftExcept]
  refine ⟨fun _ _ => ⟨_, rfl⟩, fun fault hf => ⟨?_, rfl⟩⟩
  unfold Shutdown.check at hf
  split at hf <;> cases hf
  rfl

theorem Action.cacheNewSet_eq_ok (c : Context) (K : Key) :
    cacheNewSet K c = .ok c.sets.size (c.cacheSet K) := by
  have hr : (c.addReachedSet K.state K.precision).reachedSet c.sets.size =
      .ok (.start c.sets.size c.graph.size c.options.order) := by
    rw [Context.reachedSet_eq_ok, Context.sets_addReachedSet, if_pos rfl]
  rw [← ensures_eq_ok_iff]
  simp only [cacheNewSet, newReachedSet, modifyCache, ensures_bind, ensures_get, ensures_modify,
    ensures_pure, ensures_lift_of_ok hr]
  exact ⟨trivial, rfl⟩

/-- The call at `n` is answered under the key `K`: by the result that is stored there, by a similar
one, or by a fresh one. -/
inductive Context.CallAnswered (c : Context) (n : NodeId) (K : Key) : CallResult → Context → Prop
  | stored {t : SetId} (hs : c.cache.lookup K = some t) :
      CallAnswered c n K (.hit t) { c with
        links := c.links.linkEntry n t
        statistics := { c.statistics with hits := c.statistics.hits + 1 } }
  | similar {t : SetId} {cache : Cache State Tracked} (hno : c.cache.lookup K = none)
      (hs : c.cache.lookupSimilar K = (some t, cache)) :
      CallAnswered c n K (.hit t) { c with
        cache
        links := c.links.linkEntry n t
        statistics := { c.statistics with similarHits := c.statistics.similarHits + 1 } }
  | fresh (hno : c.cache.lookup K = none) (hs : c.cache.lookupSimilar K = (none, c.cache)) :
      CallAnswered c n K (.miss c.sets.size) { c.cacheSet K with
        links := c.links.linkEntry n c.sets.size
        statistics := { c.statistics with misses := c.statistics.misses + 1 } }

theorem Action.resolveCall_of_stored {c : Context} {n : NodeId} {K : Key} {t : SetId}
    (hK : c.reducedFor n = .ok K) (hs : c.cache.lookup K = some t) :
    resolveCall n c = .ok (.hit t) { c with
      links := c.links.linkEntry n t
      statistics := { c.statistics with hits := c.statistics.hits + 1 } } := by
  rw [← ensures_eq_ok_iff]
  simp only [resolveCall, count, modifyLinks, ensures_bind, ensures_get, ensures_modify,
    ensures_pure, ensures_lift_of_ok hK, hs]
  exact ⟨trivial, trivial⟩

theorem Action.resolveCall_cases (c : Context) (n : NodeId) : Ensures (resolveCall n) c
    (fun res c' => ∃ K, c.reducedFor n = .ok K ∧ c.CallAnswered n K res c')
    (fun fault c' => c.reducedFor n = .error fault ∧ c' = c) := by
  cases hK : c.reducedFor n with
  | error fault =>
    simp only [resolveCall, ensures_bind, ensures_get, hK]
    exact ⟨rfl, rfl⟩
  | ok K =>
    cases hs : c.cache.lookup K with
    | some t =>
      rw [ensures_of_ok (resolveCall_of_stored hK hs)]
      exact ⟨K, rfl, .stored hs⟩
    | none =>
      cases hsim : c.cache.lookupSimilar K with
      | mk similar cache =>
      simp only [resolveCall, count, modifyCache, modifyLinks, ensures_bind, ensures_get,
        ensures_modify, ensures_lift_of_ok hK, hs, hsim]
      cases similar with
      | some t =>
        simp only [ensures_bind, ensures_modify, ensures_pure]
        exact ⟨K, rfl, .similar hs hsim⟩
      | none =>
        cases Cache.lookupSimilar_eq_none hsim
        simp only [ensures_bind, ensures_modify, ensures_pure,
          ensures_of_ok (cacheNewSet_eq_ok _ K)]
        exact ⟨K, rfl, .fresh hs hsim⟩

section ExpandBlockExits

variable {c : Context} {n : NodeId} {s : SetId} {ok : List NodeId → Context → Prop}
  {bad : Fault → Context → Prop}

theorem Action.ensures_expandBlockExits_iff {exits : List NodeId} {K : Key} {p : Node State Tracked}
    (hexits : c.blockExits s = .ok exits) (hK : c.keyOf s = .ok K) (hp : c.graph.Live n p) :
    Ensures (expandBlockExits n s) c ok bad ↔
      Ensures ((exits.filter (· ∉ p.children.toList.filterMap c.links.reducedOf)).mapM
        (expandExit n)) c
        (fun nodes d => ok nodes { d with cache := d.cache.setReturnEntry K exits }) bad := by
  simp only [expandBlockExits, modifyCache, ensures_bind, ensures_get, ensures_modify, ensures_pure,
    ensures_lift_of_ok hexits, ensures_lift_of_ok hK,
    ensures_lift_of_ok (Graph.liveNode_eq_ok.2 hp)]

theorem Action.ensures_expandBlockExits (hbad : ∀ fault, bad fault c)
    (hok : ∀ {exits K p}, c.blockExits s = .ok exits → c.keyOf s = .ok K → c.graph.Live n p →
      Ensures ((exits.filter (· ∉ p.children.toList.filterMap c.links.reducedOf)).mapM
        (expandExit n)) c
        (fun nodes d => ok nodes { d with cache := d.cache.setReturnEntry K exits }) bad) :
    Ensures (expandBlockExits n s) c ok bad := by
  simp only [expandBlockExits, modifyCache, ensures_bind, ensures_get, ensures_modify, ensures_pure]
  rw [ensures_liftExcept]
  refine ⟨fun exits hexits => ?_, fun fault _ => hbad fault⟩
  rw [ensures_liftExcept]
  refine ⟨fun K hK => ?_, fun fault _ => hbad fault⟩
  rw [ensures_liftExcept]
  exact ⟨fun p hp => hok hexits hK (Graph.liveNode_eq_ok.1 hp), fun fault _ => hbad fault⟩

end ExpandBlockExits

end Blockwise
