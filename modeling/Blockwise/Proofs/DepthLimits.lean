import Blockwise.Proofs.PathBrackets

/-!
The depth limit of a run. Only the entry of a call looks at the limit; every other action does the
same under any limit. So a run that never meets its limit goes on alike under a larger one, and one
that meets the limit has as many explorations open as the limit allows, and the whole program.
-/
namespace Blockwise

variable {ε σ α β : Type}

def mapState (f : σ → σ) : EStateM.Result ε σ α → EStateM.Result ε σ α
  | .ok a s => .ok a (f s)
  | .error e s => .error e (f s)

def Context.limited (c : Context) (limit : Nat) : Context :=
  { c with options := { c.options with maxDepth := limit } }

variable {c c' : Context} {n : NodeId} {s : SetId}

/-! ### Readers that know no limit -/

def Unlimited (x : Except Fault α) : Prop := ∀ limit, x ≠ .error (.depthLimit limit)

namespace Unlimited

theorem ok (a : α) : Unlimited (.ok a) := by
  rintro limit ⟨⟩

theorem error {fault : Fault} (h : ∀ limit, fault ≠ .depthLimit limit) :
    Unlimited (.error fault : Except Fault α) := by
  rintro limit ⟨⟩
  exact h limit rfl

theorem bind {x : Except Fault α} {f : α → Except Fault β} (hx : Unlimited x)
    (hf : ∀ a, Unlimited (f a)) : Unlimited (x >>= f) := by
  cases x with
  | ok a => exact hf a
  | error fault =>
    rintro limit ⟨⟩
    exact hx limit rfl

theorem ite {p : Prop} [Decidable p] {x y : Except Fault α} (hx : Unlimited x)
    (hy : Unlimited y) : Unlimited (if p then x else y) := by
  split
  · exact hx
  · exact hy

theorem forM {f : α → Except Fault Unit} (hf : ∀ a, Unlimited (f a)) (l : List α) :
    Unlimited (l.forM f) := by
  induction l with
  | nil => exact ok ()
  | cons a l ih => exact (hf a).bind fun _ => ih

end Unlimited

section Readers

variable (c)

theorem Partitioning.block_unlimited (p : Partitioning) (location : Location) :
    Unlimited (p.block location) := by
  unfold Partitioning.block
  split
  · exact .ok _
  · exact .error (by simp)

namespace Graph

variable (g : Graph State Tracked)

theorem node_unlimited : Unlimited (g.node n) := by
  unfold node
  split
  · exact .ok _
  · exact .error (by simp)

theorem liveNode_unlimited : Unlimited (g.liveNode n) := by
  unfold liveNode
  split
  · exact .ite (.error (by simp)) (.ok _)
  · exact .error (by simp)

theorem addEdge_unlimited (parent child : NodeId) : Unlimited (g.addEdge parent child) :=
  g.liveNode_unlimited.bind fun _ => g.liveNode_unlimited.bind fun _ => .ok _

theorem cover_unlimited (other : NodeId) : Unlimited (g.cover n other) :=
  g.liveNode_unlimited.bind fun _ => g.liveNode_unlimited.bind fun _ => .ok _

theorem findCover_unlimited (state : State) (l : List NodeId) :
    Unlimited (g.findCover state l) := by
  induction l with
  | nil => exact .ok none
  | cons a l ih => exact g.liveNode_unlimited.bind fun _ => .ite (.ok _) ih

end Graph

namespace Context

theorem reachedSet_unlimited : Unlimited (c.reachedSet s) := by
  unfold reachedSet
  split
  · exact .ok _
  · exact .error (by simp)

theorem checkLive_unlimited (l : List NodeId) : Unlimited (c.checkLive l) :=
  .forM (fun _ => c.graph.liveNode_unlimited.bind fun _ => .ok _) l

theorem reducedFor_unlimited : Unlimited (c.reducedFor n) :=
  c.graph.node_unlimited.bind fun _ => (c.partitioning.block_unlimited _).bind fun _ => .ok _

theorem keyOf_unlimited : Unlimited (c.keyOf s) :=
  c.reachedSet_unlimited.bind fun _ => c.graph.liveNode_unlimited.bind fun _ => .ok _

theorem blockExits_unlimited : Unlimited (c.blockExits s) :=
  c.reachedSet_unlimited.bind fun _ => c.graph.liveNode_unlimited.bind fun _ =>
    (c.partitioning.block_unlimited _).bind fun _ => (c.checkLive_unlimited _).bind fun _ => .ok _

theorem task_unlimited : Unlimited (c.task s n) := by
  refine c.graph.liveNode_unlimited.bind fun m => .ite (.ok _) ?_
  refine c.reachedSet_unlimited.bind fun r => .ite (.ok _) ?_
  have hinner : Unlimited (if c.partitioning.isCallNode m.state.location = true
      then .ok NodeTask.call else .ok (.successors m.state m.precision)) := .ite (.ok _) (.ok _)
  refine .ite ?_ hinner
  exact c.graph.liveNode_unlimited.bind fun f =>
    (c.partitioning.block_unlimited _).bind fun b => .ite (.ok _) hinner

theorem targets_unlimited : Unlimited c.targets :=
  c.reachedSet_unlimited.bind fun _ => (c.checkLive_unlimited _).bind fun _ => .ok _

end Context

end Readers

/-! ### Actions that do the same under any limit -/

/-- The action leaves the limit alone and does the same whatever it is; it fails at no limit. -/
structure LimitFree (x : Action α) : Prop where
  blind : ∀ c limit, x (c.limited limit) = mapState (·.limited limit) (x c)
  unlimited : ∀ c limit c', x c ≠ .error (.depthLimit limit) c'

namespace LimitFree

variable {x : Action α}

theorem pure (a : α) : LimitFree (pure a : Action α) where
  blind _ _ := rfl
  unlimited _ _ _ := by rintro ⟨⟩

theorem bind {f : α → Action β} (hx : LimitFree x) (hf : ∀ a, LimitFree (f a)) :
    LimitFree (x >>= f) where
  blind c limit := by
    have hblind := hx.blind c limit
    cases hxc : x c with
    | ok a c' =>
      rw [hxc] at hblind
      rw [bind_eq_of_ok hblind, bind_eq_of_ok hxc]
      exact (hf a).blind c' limit
    | error fault c' =>
      rw [hxc] at hblind
      rw [bind_eq_of_error hblind, bind_eq_of_error hxc]
      rfl
  unlimited c limit c' h := by
    rcases bind_eq_error.1 h with h | ⟨a, d, -, h⟩
    · exact hx.unlimited c limit c' h
    · exact (hf a).unlimited d limit c' h

theorem lift {x : Except Fault α} (h : Unlimited x) : LimitFree (liftM x : Action α) := by
  cases x with
  | ok a => exact pure a
  | error fault =>
    refine ⟨fun _ _ => rfl, fun _ limit _ hfault => h limit ?_⟩
    cases hfault
    rfl

theorem read {f : Context → Action α} (hsame : ∀ c limit, f (c.limited limit) = f c)
    (hf : ∀ c, LimitFree (f c)) : LimitFree (get >>= f) where
  blind c limit := by
    change f (c.limited limit) (c.limited limit) = mapState _ (f c c)
    rw [hsame c limit]
    exact (hf c).blind c limit
  unlimited c := (hf c).unlimited c

theorem modify {f : Context → Context}
    (h : ∀ c limit, f (c.limited limit) = (f c).limited limit) :
    LimitFree (modify f : Action PUnit) where
  blind c limit := congrArg (EStateM.Result.ok ()) (h c limit)
  unlimited _ _ _ := by rintro ⟨⟩

theorem mapM {f : α → Action β} (hf : ∀ a, LimitFree (f a)) (l : List α) :
    LimitFree (l.mapM f) := by
  induction l with
  | nil => exact pure _
  | cons a l ih =>
    rw [List.mapM_cons]
    exact (hf a).bind fun _ => ih.bind fun _ => pure _

theorem ask {f : Context → Except Fault α} (hsame : ∀ c limit, f (c.limited limit) = f c)
    (hf : ∀ c, Unlimited (f c)) : LimitFree (Action.ask f) :=
  read (fun c limit => congrArg _ (hsame c limit)) fun c => lift (hf c)

end LimitFree

namespace Action

theorem poll_eq (c : Context) : poll c = if c.shutdown.isRequested then .error .interrupted c
    else .ok () { c with shutdown := c.shutdown.next } := by
  change (liftM c.shutdown.check >>= fun _ => set _ : Action Unit) c = _
  unfold Shutdown.check
  split <;> rfl

theorem poll_limitFree : LimitFree poll where
  blind c limit := by
    rw [poll_eq, poll_eq c]
    change (if c.shutdown.isRequested then _ else _) = _
    split <;> rfl
  unlimited c limit c' h := by
    rw [poll_eq] at h
    split at h <;> cases h

theorem modifyGraph_limitFree (f : Graph State Tracked → Graph State Tracked) :
    LimitFree (modifyGraph f) := .modify fun _ _ => rfl

theorem modifyCache_limitFree (f : Cache State Tracked → Cache State Tracked) :
    LimitFree (modifyCache f) := .modify fun _ _ => rfl

theorem modifyLinks_limitFree (f : Links → Links) : LimitFree (modifyLinks f) :=
  .modify fun _ _ => rfl

theorem count_limitFree (f : Statistics → Statistics) : LimitFree (count f) :=
  .modify fun _ _ => rfl

theorem editGraph_limitFree {f : Graph State Tracked → Except Fault (Graph State Tracked)}
    (hf : ∀ g, Unlimited (f g)) : LimitFree (editGraph f) :=
  .read (fun _ _ => rfl) fun c => (LimitFree.lift (hf c.graph)).bind fun _ =>
    modifyGraph_limitFree _

theorem modifySet_limitFree (f : ReachedSet → ReachedSet) : LimitFree (modifySet s f) :=
  .read (fun _ _ => rfl) fun c => (LimitFree.lift c.reachedSet_unlimited).bind fun _ =>
    .modify fun _ _ => rfl

theorem nextWaiting_limitFree : LimitFree (nextWaiting s) :=
  poll_limitFree.bind fun _ => .read (fun _ _ => rfl) fun c =>
    (LimitFree.lift c.reachedSet_unlimited).bind fun _ =>
      (modifySet_limitFree _).bind fun _ => .pure _

theorem addChild_limitFree (parent : NodeId) (state : State) :
    LimitFree (addChild parent state) :=
  .read (fun _ _ => rfl) fun c => (LimitFree.lift c.graph.liveNode_unlimited).bind fun _ =>
    .read (fun _ _ => rfl) fun _ => (modifyGraph_limitFree _).bind fun _ =>
      (editGraph_limitFree fun g => g.addEdge_unlimited parent _).bind fun _ => .pure _

theorem addSuccessor_limitFree (parent : NodeId) (state : State) :
    LimitFree (addSuccessor parent state) :=
  (addChild_limitFree parent state).bind fun _ => .read (fun _ _ => rfl) fun c =>
    (LimitFree.lift c.graph.liveNode_unlimited).bind fun _ =>
      (modifySet_limitFree _).bind fun _ => .pure _

theorem addCoveredSuccessor_limitFree (parent : NodeId) (state : State) (cover : NodeId) :
    LimitFree (addCoveredSuccessor parent state cover) :=
  (addChild_limitFree parent state).bind fun _ =>
    (editGraph_limitFree fun g => g.cover_unlimited cover).bind fun _ =>
      .read (fun _ _ => rfl) fun c => (LimitFree.lift c.graph.liveNode_unlimited).bind fun _ =>
        (modifySet_limitFree _).bind fun _ => .pure _

theorem addOrCover_limitFree (parent : NodeId) (state : State) :
    LimitFree (addOrCover s parent state) := by
  refine .read (fun _ _ => rfl) fun c => (LimitFree.lift c.reachedSet_unlimited).bind fun r => ?_
  refine (LimitFree.lift (c.graph.findCover_unlimited state _)).bind fun cover => ?_
  cases cover with
  | some cover => exact (addCoveredSuccessor_limitFree parent state cover).bind fun _ => .pure _
  | none => exact (addSuccessor_limitFree parent state).bind fun _ => .pure _

theorem cacheNewSet_limitFree (key : Key) : LimitFree (cacheNewSet key) :=
  LimitFree.bind (.read (fun _ _ => rfl) fun _ =>
      LimitFree.bind (.modify fun _ _ => rfl) fun _ => .pure _) fun _ =>
    .read (fun _ _ => rfl) fun c => (LimitFree.lift c.reachedSet_unlimited).bind fun _ =>
      (modifyCache_limitFree _).bind fun _ => .pure _

theorem resolveCall_limitFree : LimitFree (resolveCall n) := by
  refine .read (fun _ _ => rfl) fun c => (LimitFree.lift c.reducedFor_unlimited).bind fun key => ?_
  refine .read (fun _ _ => rfl) fun d => ?_
  cases d.cache.lookup key with
  | some set =>
    exact (count_limitFree _).bind fun _ => (modifyLinks_limitFree _).bind fun _ => .pure _
  | none =>
    refine .read (fun _ _ => rfl) fun e => ?_
    cases e.cache.lookupSimilar key with
    | mk similar cache =>
      refine (modifyCache_limitFree _).bind fun _ => ?_
      cases similar with
      | some set =>
        exact (count_limitFree _).bind fun _ => (modifyLinks_limitFree _).bind fun _ => .pure _
      | none =>
        exact (count_limitFree _).bind fun _ => (cacheNewSet_limitFree key).bind fun _ =>
          (modifyLinks_limitFree _).bind fun _ => .pure _

theorem expandExit_limitFree (exit : NodeId) : LimitFree (expandExit n exit) :=
  .read (fun _ _ => rfl) fun c => (LimitFree.lift c.graph.liveNode_unlimited).bind fun _ =>
    (LimitFree.lift (c.partitioning.block_unlimited _)).bind fun _ =>
      (LimitFree.lift c.graph.liveNode_unlimited).bind fun _ =>
        (addSuccessor_limitFree n _).bind fun _ => (modifyLinks_limitFree _).bind fun _ => .pure _

theorem expandBlockExits_limitFree : LimitFree (expandBlockExits n s) :=
  .read (fun _ _ => rfl) fun c => (LimitFree.lift c.blockExits_unlimited).bind fun _ =>
    (LimitFree.lift c.keyOf_unlimited).bind fun _ =>
      (LimitFree.lift c.graph.liveNode_unlimited).bind fun _ =>
        (LimitFree.mapM (fun exit => expandExit_limitFree exit) _).bind fun _ =>
          (modifyCache_limitFree _).bind fun _ => .pure _

theorem enterCall_of_le {depth : Nat} (h : c.options.maxDepth ≤ depth) :
    enterCall depth n c = .error (.depthLimit c.options.maxDepth) c := by
  change (if c.options.maxDepth ≤ depth then _ else _ : Action SetId) c = _
  rw [if_pos h]
  rfl

theorem enterCall_of_lt {depth : Nat} (h : depth < c.options.maxDepth) :
    enterCall depth n c = (resolveCall n >>= fun answer => pure answer.set) c := by
  change (if c.options.maxDepth ≤ depth then _ else _ : Action SetId) c = _
  rw [if_neg (Nat.not_le.2 h)]

end Action

/-! ### Two limits side by side -/

namespace Exploring

/-- The action halts at the limit `d`, inside `d + 1` explorations. -/
def MeetsLimit (d : Nat) (outer : List SetId) (result : EStateM.Result Abort Context α) : Prop :=
  ∃ active c', result = .error ⟨.fault (.depthLimit d), active⟩ c' ∧
    outer <:+ active ∧ active.Nodup ∧ active.length = d + 1

theorem MeetsLimit.bind {d : Nat} {outer : List SetId} {x : Exploring α} (f : α → Exploring β)
    (h : MeetsLimit d outer (x c)) : MeetsLimit d outer ((x >>= f) c) := by
  obtain ⟨active, c', hlimit, hactive⟩ := h
  exact ⟨active, c', bind_eq_of_error hlimit, hactive⟩

theorem enterCall_meetsLimit {outer : List SetId} (hnodup : outer.Nodup)
    (houter : outer.length = c.options.maxDepth + 1) :
    MeetsLimit c.options.maxDepth outer
      (during outer (Action.enterCall c.options.maxDepth n) c) := by
  refine ⟨outer, c, ?_, List.suffix_refl _, hnodup, houter⟩
  unfold during
  rw [Action.enterCall_of_le le_rfl]

/-- From any context, the action meets the limit `d`, or it does the same under `d` and `d'` and
meets no limit. -/
def Alike (d d' : Nat) (outer : List SetId) (x : Exploring α) : Prop :=
  ∀ c : Context, MeetsLimit d outer (x (c.limited d)) ∨ ∃ result,
    (∀ limit active c', result ≠ .error ⟨.fault (.depthLimit limit), active⟩ c') ∧
      x (c.limited d) = mapState (·.limited d) result ∧
        x (c.limited d') = mapState (·.limited d') result

variable {d d' : Nat} {outer enclosing : List SetId} {x : Exploring α} {program : Program}

namespace Alike

theorem pure (a : α) : Alike d d' outer (pure a : Exploring α) :=
  fun c => Or.inr ⟨.ok a c, by simp, rfl, rfl⟩

theorem outOfFuel (active : List SetId) :
    Alike d d' outer (throw ⟨.outOfFuel, active⟩ : Exploring α) :=
  fun c => Or.inr ⟨.error ⟨.outOfFuel, active⟩ c, by simp, rfl, rfl⟩

theorem bind {f : α → Exploring β} (hx : Alike d d' outer x)
    (hf : ∀ a, Alike d d' outer (f a)) : Alike d d' outer (x >>= f) := by
  intro c
  rcases hx c with hlimit | ⟨result, hno, hd, hd'⟩
  · exact Or.inl (hlimit.bind f)
  · cases result with
    | ok a c' =>
      rw [bind_eq_of_ok hd, bind_eq_of_ok hd']
      exact hf a c'
    | error abort c' =>
      refine Or.inr ⟨.error abort c', fun limit active t h => ?_, bind_eq_of_error hd,
        bind_eq_of_error hd'⟩
      cases h
      exact hno limit active c' rfl

theorem forM {f : α → Exploring Unit} (hf : ∀ a, Alike d d' outer (f a)) (l : List α) :
    Alike d d' outer (l.forM f) := by
  induction l with
  | nil => exact pure ()
  | cons a l ih => exact (hf a).bind fun _ => ih

theorem weaken {inner : SetId} (h : Alike d d' (inner :: outer) x) : Alike d d' outer x := by
  intro c
  refine (h c).imp_left ?_
  rintro ⟨active, c', hlimit, hsuffix, hactive⟩
  exact ⟨active, c', hlimit, (List.suffix_cons inner outer).trans hsuffix, hactive⟩

theorem during {action : Action α} (h : LimitFree action) (active : List SetId) :
    Alike d d' outer (during active action) := by
  have hblind : ∀ (c : Context) limit, Exploring.during active action (c.limited limit) =
      mapState (·.limited limit) (Exploring.during active action c) := by
    intro c limit
    unfold Exploring.during
    rw [h.blind]
    cases action c <;> rfl
  refine fun c => Or.inr ⟨_, fun limit l c' hlimit => ?_, hblind c d, hblind c d'⟩
  unfold Exploring.during at hlimit
  cases hc : action c with
  | ok a t =>
    rw [hc] at hlimit
    cases hlimit
  | error fault t =>
    rw [hc] at hlimit
    cases hlimit
    exact h.unlimited c limit c' hc

theorem enterCall (hle : d ≤ d') {depth : Nat} (hlt : depth < d) (active : List SetId) :
    Alike d d' outer (Exploring.during active (Action.enterCall depth n)) := by
  intro c
  have hsame : ∀ limit, d ≤ limit →
      Exploring.during active (Action.enterCall depth n) (c.limited limit) =
        Exploring.during active (Action.resolveCall n >>= fun answer => Pure.pure answer.set)
          (c.limited limit) := by
    intro limit hlimit
    unfold Exploring.during
    rw [Action.enterCall_of_lt (c := c.limited limit) (hlt.trans_le hlimit)]
  rw [hsame d le_rfl, hsame d' hle]
  exact during (Action.resolveCall_limitFree.bind fun _ => .pure _) active c

end Alike

theorem perform_alike (hle : d ≤ d') (hnodup : (s :: enclosing).Nodup)
    (hdepth : enclosing.length ≤ d) {exploreSet : SetId → Exploring Unit}
    (hexplore : ∀ inner, inner ∉ s :: enclosing → enclosing.length < d →
      Alike d d' (inner :: s :: enclosing) (exploreSet inner))
    (todo : NodeTask) :
    Alike d d' (s :: enclosing) (perform program exploreSet enclosing s n todo) := by
  cases todo with
  | stop => exact .pure ()
  | successors state precision =>
    exact .forM (fun next => .during (Action.addOrCover_limitFree n next) _) _
  | call =>
    rcases Nat.lt_or_eq_of_le hdepth with hlt | rfl
    · have hexpand : ∀ inner, Alike d d' (s :: enclosing)
          (during (s :: enclosing) (Action.expandBlockExits n inner) >>= fun _ => pure ()) :=
        fun inner => .bind (.during Action.expandBlockExits_limitFree _) fun _ => .pure ()
      refine .bind (.enterCall hle hlt _) fun inner => ?_
      -- only a set that is not being explored yet is explored, so no set is active twice
      by_cases hinner : inner ∉ s :: enclosing
      · rw [if_pos hinner]
        refine .bind (.during (.ask (fun _ _ => rfl) fun c => c.reachedSet_unlimited) _) fun r => ?_
        split
        · exact .bind (hexplore inner hinner hlt).weaken fun _ => hexpand inner
        · exact hexpand inner
      · rw [if_neg hinner]
        exact hexpand inner
    · intro c
      exact Or.inl ((enterCall_meetsLimit (c := c.limited enclosing.length) hnodup rfl).bind _)

theorem explore_alike (program : Program) (fuel : Nat) (hle : d ≤ d')
    (hnodup : (s :: enclosing).Nodup) (hdepth : enclosing.length ≤ d) :
    Alike d d' (s :: enclosing) (explore program fuel enclosing s) := by
  induction fuel generalizing enclosing s with
  | zero => exact .outOfFuel _
  | succ fuel ih =>
    refine .bind (.during Action.nextWaiting_limitFree _) fun next => ?_
    cases next with
    | none => exact .pure ()
    | some n =>
      refine .bind (.during (.ask (fun _ _ => rfl) fun c => c.task_unlimited) _) fun todo => ?_
      refine .bind (perform_alike hle hnodup hdepth (fun inner hinner hlt => ?_) todo) fun _ => ?_
      · exact ih (List.nodup_cons.2 ⟨hinner, hnodup⟩) hlt
      · exact ih hnodup hdepth

end Exploring

/-- A larger depth limit does not change a run that stays within the smaller one. -/
theorem run_within_limit (program : Program) (fuel : Nat) (c : Context) {d d' : Nat}
    (hle : d ≤ d') :
    ((∀ c', run program fuel (c.limited d) ≠ .error (.fault (.depthLimit d)) c') →
      run program fuel (c.limited d') =
        mapState (·.limited d') (run program fuel (c.limited d))) ∧
    ∀ limit c', run program fuel (c.limited d) = .error (.fault (.depthLimit limit)) c' →
      limit = d ∧ ∃ active,
        Exploring.explore program fuel [] .topLevel (c.limited d) =
          .error ⟨.fault (.depthLimit d), active⟩ c' ∧
        [.topLevel] <:+ active ∧ active.Nodup ∧ active.length = d + 1 := by
  rcases Exploring.explore_alike program fuel hle (List.nodup_singleton SetId.topLevel)
    (Nat.zero_le d) c with ⟨active, t, hmeets, hactive⟩ | ⟨result, hno, hd, hd'⟩
  · refine ⟨fun hstays => absurd (run_of_error hmeets) (hstays t), fun limit c' h => ?_⟩
    rw [run_of_error hmeets] at h
    cases h
    exact ⟨rfl, active, hmeets, hactive⟩
  · cases result with
    | error abort t =>
      rw [run_of_error hd, run_of_error hd']
      refine ⟨fun _ => rfl, fun limit c' h => ?_⟩
      cases abort with
      | mk reason active =>
        cases h
        exact absurd rfl (hno limit active t)
    | ok _ t =>
      rw [run_of_ok hd, run_of_ok hd']
      have htargets : ∀ limit, (t.limited limit).targets = t.targets := fun _ => rfl
      rw [htargets, htargets]
      cases hfound : t.targets with
      | ok targets => exact ⟨fun _ => rfl, fun limit c' h => by cases h⟩
      | error fault =>
        refine ⟨fun _ => rfl, fun limit c' h => ?_⟩
        cases h
        exact absurd hfound (t.targets_unlimited limit)

/-! ### Two nested blocks -/

namespace NestedBlocks

def stopped : Context := finalState (run program 100 (start.limited 1))

theorem nested_blocks_within_limit :
    (∃ active, Exploring.explore program 100 [] .topLevel (start.limited 1) =
        .error ⟨.fault (.depthLimit 1), active⟩ stopped ∧
      [.topLevel] <:+ active ∧ active.Nodup ∧ active.length = 2) ∧
    run program 100 (start.limited 20) =
      mapState (·.limited 20) (run program 100 (start.limited 2)) := by
  have hstops : run program 100 (start.limited 1) = .error (.fault (.depthLimit 1)) stopped :=
    error_of_error? (by decide +kernel)
  have hstays : ∀ c', run program 100 (start.limited 2) ≠ .error (.fault (.depthLimit 2)) c' := by
    have hok : (value? (run program 100 (start.limited 2))).isSome = true := by decide +kernel
    intro c' h
    rw [h] at hok
    cases hok
  exact ⟨((run_within_limit program 100 start (by decide : 1 ≤ 20)).2 1 stopped hstops).2,
    (run_within_limit program 100 start (by decide : 2 ≤ 20)).1 hstays⟩

end NestedBlocks

end Blockwise
