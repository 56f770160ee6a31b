import Blockwise.Proofs.Repair.Parts
import Blockwise.Proofs.Repair.Regular

/-!
The trace of a repair. Whatever a repair comes to, it leaves a regular context, and what it did to
the cached results is a sequence of the steps that its report tells of.
-/
namespace Blockwise

open Context

variable {α β ε : Type} {increments : List (Increment Tracked)} {x : Report × Context}
  {report report' : Report} {c c' : Context} {s : SetId} {r : ReachedSet}

/-- From `x` a repair came to this report and context by the steps on cached results. -/
structure Traced (increments : List (Increment Tracked)) (x : Report × Context) (report : Report)
    (c : Context) : Prop where
  regular : c.Regular
  steps : ResultSteps increments x (report, c)

namespace Traced

theorem start (h : c.Regular) : Traced increments (report, c) report c := ⟨h, .refl⟩

theorem still (t : Traced increments x report c) (h : c'.Regular) (same : c.SameEntries c')
    (rekeyed : report'.rekeyed = report.rekeyed)
    (exactEntries : report'.exactEntries = report.exactEntries) :
    Traced increments x report' c' :=
  ⟨h, t.steps.tail (.still same rekeyed exactEntries)⟩

theorem quiet (t : Traced increments x report c) (statistics : Statistics) (shutdown : Shutdown) :
    Traced increments x report { c with statistics, shutdown } :=
  t.still (t.regular.quiet statistics shutdown) { SameEntries.refl c with } rfl rfl

theorem finishRepair (t : Traced increments x report c) :
    Traced increments x report c.finishRepair :=
  t.still ((t.regular.prune _).quiet _ _) { SameEntries.refl c with } rfl rfl

theorem fresh (t : Traced increments x report c) {K : Key} (hblock : K.block = K.state.location)
    (hp : c.Refines increments K.block K.precision) (hno : c.cache.containsPrecise K = false) :
    Traced increments x { report with exactEntries := report.exactEntries ++ [K] }
      (c.cacheSet K) := by
  refine ⟨t.regular.cacheSet hblock, t.steps.tail (.fresh hblock hp ?_ rfl rfl)⟩
  refine Option.eq_none_iff_forall_ne_some.2 fun s hs => ?_
  rw [(t.regular.stored hs).2.2] at hno
  cases hno

end Traced

def Traces (increments : List (Increment Tracked)) (x : Report × Context) (report : Report)
    (out : α → Report) (action : EStateM ε Context α) : Prop :=
  ∀ c, Traced increments x report c → Ensures action c
    (fun a d => Traced increments x (out a) d) fun _ d => ∃ report', Traced increments x report' d

namespace Traces

variable {out : α → Report} {out' : β → Report}

theorem bind {y : EStateM ε Context α} {f : α → EStateM ε Context β}
    (hy : Traces increments x report out y) (hf : ∀ a, Traces increments x (out a) out' (f a)) :
    Traces increments x report out' (y >>= f) := by
  intro c t
  rw [ensures_bind]
  exact (hy c t).imp (fun a d => hf a d) fun _ _ => id

theorem of_maintains {action : EStateM ε Context α}
    (h : Maintains (Traced increments x report) action) :
    Traces increments x report (fun _ => report) action :=
  fun c t => (h c t).imp (fun _ _ => id) fun _ _ t' => ⟨report, t'⟩

theorem pure {a : α} (rekeyed : (out a).rekeyed = report.rekeyed)
    (exactEntries : (out a).exactEntries = report.exactEntries) :
    Traces increments x report out (pure a : EStateM ε Context α) :=
  fun c t => t.still t.regular (.refl c) rekeyed exactEntries

theorem noted (report' : Report) {action : EStateM ε Context α}
    (h : Traces increments x report' out action)
    (rekeyed : report'.rekeyed = report.rekeyed)
    (exactEntries : report'.exactEntries = report.exactEntries) :
    Traces increments x report out action :=
  fun c t => h c (t.still t.regular (.refl c) rekeyed exactEntries)

theorem throw (e : ε) : Traces increments x report out (throw e : EStateM ε Context α) :=
  fun _ t => ⟨report, t⟩

theorem get : Traces (ε := ε) increments x report (fun _ => report) get := .of_maintains .get

theorem lift (y : Except ε α) :
    Traces increments x report (fun _ => report) (liftM y : EStateM ε Context α) :=
  .of_maintains (.lift y)

theorem liftFault (y : Except Fault α) :
    Traces increments x report (fun _ => report) (liftM y : EStateM Halt Context α) :=
  .of_maintains (.liftFault y)

theorem ite {q : Prop} [Decidable q] {y z : EStateM ε Context α}
    (hy : Traces increments x report out y) (hz : Traces increments x report out z) :
    Traces increments x report out (if q then y else z) := by
  split
  · exact hy
  · exact hz

theorem ite_bind (out : α → Report) {q : Prop} [Decidable q] {y z : EStateM ε Context α}
    {f : α → EStateM ε Context β}
    (hy : Traces increments x report out y) (hz : Traces increments x report out z)
    (hf : ∀ a, Traces increments x (out a) out' (f a)) :
    Traces increments x report out' (if q then y >>= f else z >>= f) :=
  (hy.bind hf).ite (hz.bind hf)

theorem liftAction {y : Action α} (hy : Traces increments x report out y) :
    Traces increments x report out (liftM y : Repairing α) :=
  fun c t => ensures_liftAction.2 (hy c t)

theorem foldlM {f : β → α → EStateM ε Context β} {out : β → Report}
    (hf : ∀ b a, Traces increments x (out b) out (f b a)) (l : List α) (b : β) :
    Traces increments x (out b) out (l.foldlM f b) := by
  induction l generalizing b with
  | nil => exact pure rfl rfl
  | cons a l ih =>
    rw [List.foldlM_cons]
    exact (hf b a).bind ih

end Traces

namespace Action

theorem traced_poll : Maintains (Traced increments x report) poll := by
  intro c t
  refine poll_spec.imp (fun _ d hd => ?_) (fun _ d hd => hd.2 ▸ t)
  obtain ⟨shutdown, rfl⟩ := hd
  exact t.quiet c.statistics shutdown

theorem traced_removeSubtree (s : SetId) (node : NodeId) :
    Maintains (Traced increments x report) (removeSubtree s node .keep) := by
  intro c t
  have h := t.regular
  cases hr : c.sets[s]? with
  | none =>
    have hno : c.reachedSet s = .error (.unknownReachedSet s) := by simp [reachedSet, hr]
    simp only [Ensures, removeSubtree, hno]
    exact t
  | some r =>
    refine (removeSubtree_spec h.toStructured hr).imp (fun _ d hd => ?_) (fun _ d hd => hd ▸ t)
    rcases hd with ⟨-, -, rfl⟩ | ⟨root, gone, -, hc, rfl, -⟩
    · exact t
    · have hkeys : ∀ {t K}, c.HasKey t K → (c.cut s r .keep gone).HasKey t K :=
        hc.hasKey_keep h.toStructured
      refine t.still ?_ (hc.sameEntries h.toStructured fun _ => hkeys) rfl rfl
      refine h.follow (evolves_cut hc h.toStructured) (.cut hc h.toStructured)
        (hc.lastGreatest h.toStructured h.last .keep) rfl (fun K t ht => ?_) id
      obtain ⟨hpos, hkey, hp⟩ := h.stored ht
      exact ⟨hpos, hkeys hkey, hp⟩

theorem traces_removeStale (work : StaleWork) (expanded : NodeId) :
    Traces increments x work.report StaleWork.report (removeStale work expanded) := by
  obtain ⟨pending, report⟩ := work
  have hremove : ∀ owner, Traces increments x report StaleWork.report (do
      let _ ← removeSubtree owner expanded .keep
      return ({
        pending := if owner ∈ pending then pending else owner :: pending
        report := { report with
          staleExpansions := report.staleExpansions ++ [(owner, expanded)] } } : StaleWork)) :=
    fun owner => (Traces.of_maintains (traced_removeSubtree owner expanded)).bind fun _ =>
      .pure rfl rfl
  have hforget : ∀ K,
      Maintains (Traced increments x report) (modifyCache (·.removeReturnEntry K)) :=
    fun K => Maintains.modify fun c t =>
      t.still (t.regular.removeReturnEntry K) { SameEntries.refl c with } rfl rfl
  refine Traces.get.bind fun c => .ite (.pure rfl rfl) ?_
  refine Traces.get.bind fun c => (Traces.lift _).bind fun m => .ite ?_ (hremove m.set)
  refine Traces.get.bind fun c => (Traces.lift _).bind fun K => ?_
  exact (Traces.of_maintains (hforget K)).bind fun _ => hremove m.set

theorem traces_removeStaleBelow (work : StaleWork) (entry : NodeId) :
    Traces increments x work.report StaleWork.report (removeStaleBelow work entry) :=
  Traces.get.bind fun _ => .ite (.pure rfl rfl) <| Traces.get.bind fun _ =>
    (Traces.lift _).bind fun stale => .foldlM traces_removeStale stale work

theorem traces_removeStaleFor (s : SetId) (work : StaleWork) :
    Traces increments x work.report StaleWork.report (removeStaleFor s work) :=
  Traces.get.bind fun _ => .foldlM traces_removeStaleBelow _ work

end Action

theorem traces_removeStaleExpansions (fuel : Nat) (work : StaleWork) :
    Traces increments x work.report id (removeStaleExpansions fuel work) := by
  obtain ⟨pending, report⟩ := work
  induction fuel generalizing pending report with
  | zero =>
    cases pending with
    | nil => exact .pure rfl rfl
    | cons s pending => exact .throw _
  | succ fuel ih =>
    cases pending with
    | nil => exact .pure rfl rfl
    | cons s pending =>
      exact (Traces.liftAction (Action.traces_removeStaleFor s ⟨pending, report⟩)).bind
        fun work => ih work.pending work.report

theorem adjusts_of_removalAdjustment {used : List (Increment Tracked)} {key : Option Key}
    {node : NodeId} {adjustment : Adjustment Tracked} (hused : used = increments ∨ used = [])
    (h : c.removalAdjustment key node used = .ok adjustment) :
    c.Adjusts increments key adjustment := by
  rintro K rfl old p hp
  unfold removalAdjustment at h
  split at h
  · cases h
    cases hp
  · rename_i hne
    have hne : used ≠ [] := by simpa using hne
    cases hused.resolve_right hne
    obtain ⟨n, -, h⟩ := except_bind_eq_ok.1 h
    obtain ⟨b, hb, h⟩ := except_bind_eq_ok.1 h
    cases h
    cases hp
    exact ⟨hne, b, n.precision, Partitioning.block_eq_ok_iff.1 hb, rfl⟩

theorem traces_removeCachedSubtree (fuel : Nat) (outer node : NodeId)
    {used : List (Increment Tracked)} (hused : used = increments ∨ used = []) (report : Report) :
    Traces increments x report id (removeCachedSubtree fuel outer node used report) := by
  intro c t
  have h := t.regular
  refine ensures_removeCachedSubtree (fun _ => ⟨report, t⟩)
    (fun _ _ => t.still h (.refl c) rfl rfl) fun {s r n key adjustment} hread => ?_
  have hstands : c.Stands s key := hread.stands fun hl => h.call hl
  refine (Action.removeFromSet_spec h.toStructured h.stored hread.reached hstands report).imp
    (fun report' d hd => ?_) (fun _ d hd => ⟨report, t.still (hd.1.regular h) hd.2.2 rfl rfl⟩)
  refine traces_removeStaleExpansions fuel ⟨[s], report'⟩ d ⟨hd.shrinks.regular h, ?_⟩
  exact t.steps.trans (hd.steps _ (adjusts_of_removalAdjustment hused hread.adjusted))

theorem traces_removePair (fuel : Nat) (innermost : NodeId) (targetParents : IdSet)
    (report : Report) (pair : CallPair) :
    Traces increments x report id
      (removePair fuel innermost targetParents increments report pair) :=
  (Traces.liftAction (.of_maintains Action.traced_poll)).bind fun _ => Traces.get.bind fun _ =>
    (Traces.liftFault _).bind fun refines =>
      traces_removeCachedSubtree fuel pair.1 pair.2 (by cases refines <;> simp) report

namespace Action

theorem traces_provideExactResult (path : Path) (element : PathIndex) (report : Report) :
    Traces increments x report Prod.snd (provideExactResult path increments element report) := by
  intro c t
  refine (provideExactResult_provides path increments element report).imp
    (fun res d hd => ?_) (fun _ d hd => ⟨report, hd ▸ t⟩)
  obtain ⟨n, K, -, -, hK, ⟨-, rfl, hres⟩ | ⟨hp, statistics, rfl, hres⟩⟩ := hd
  · rwa [hres]
  · rw [hres]
    exact (t.fresh hK.block_eq hK.refines hp).quiet statistics _

theorem traces_scanElement (path : Path) (scan : ExactScan) (element : PathRole × PathIndex) :
    Traces increments x scan.report ExactScan.report
      (scanElement path increments scan element) := by
  obtain ⟨role, element⟩ := element
  refine (Traces.of_maintains traced_poll).bind fun _ => .ite ?_ (.ite ?_ (.pure rfl rfl))
  · exact (traces_provideExactResult path element scan.report).bind fun _ => .pure rfl rfl
  · exact Traces.get.bind fun _ => (Traces.lift _).bind fun _ => .pure rfl rfl

theorem traces_ensureExactHits (path : Path) (target : PathIndex) (pairs : List CallPair)
    (report : Report) :
    Traces increments x report Prod.snd
      (ensureExactHits path target increments pairs report) := by
  refine Traces.get.bind fun c => (Traces.lift _).bind fun roles => ?_
  cases path.position target with
  | none => exact .throw _
  | some start =>
    exact (Traces.foldlM (traces_scanElement path) _ { pairs, report }).bind fun scan =>
      Traces.get.bind fun _ => (Traces.lift _).bind fun _ => .pure rfl rfl

theorem traces_removePathEnd (path : Path) (report : Report) :
    Traces increments x report id (removePathEnd path report) :=
  (Traces.lift _).bind fun _ => (Traces.lift _).bind fun last => Traces.get.bind fun _ =>
    .ite (.pure rfl rfl) <|
      (Traces.of_maintains (Action.traced_removeSubtree .topLevel last)).bind fun _ => .pure rfl rfl

end Action

theorem traces_removeScheduled (fuel : Nat) (path : Path) (targetNode innermost : NodeId)
    (pairs : List CallPair) (report : Report) :
    Traces increments x report id
      (removeScheduled fuel path targetNode innermost increments pairs report) := by
  refine Traces.get.bind fun _ => (Traces.liftFault _).bind fun node => ?_
  have hpairs : Traces increments x report id
      (pairs.foldlM (removePair fuel innermost node.parents increments) report) :=
    .foldlM (traces_removePair fuel innermost node.parents) pairs report
  refine hpairs.bind fun report =>
    (Traces.liftAction (.of_maintains Action.traced_poll)).bind fun _ => ?_
  exact (traces_removeCachedSubtree fuel innermost targetNode (Or.inl rfl) report).bind
    fun report => .liftAction (Action.traces_removePathEnd path report)

theorem traces_removeTarget (fuel : Nat) (path : Path) (target : PathIndex) (targetNode : NodeId) :
    Traces increments x {} id (removeTarget fuel path target targetNode increments) := by
  refine Traces.get.bind fun c => (Traces.liftFault _).bind fun calls => ?_
  refine Traces.noted { relevantCalls := calls } ?_ rfl rfl
  refine Traces.ite_bind Prod.snd (.liftAction ?_) (.pure rfl rfl) fun hits => ?_
  · exact Action.traces_ensureExactHits path target _ _
  · cases calls.getLast? with
    | none => exact .throw _
    | some innermost => exact traces_removeScheduled fuel path targetNode innermost hits.1 hits.2

theorem traces_repairPath (fuel : Nat) (path : Path) (target : PathIndex)
    (increments : List (Increment Tracked)) :
    Traces increments x {} id (repairPath fuel path target increments) := by
  have hrepair : Traces increments x {} id (repairTarget fuel path target increments) :=
    Traces.get.bind fun _ => (Traces.liftFault _).bind fun node =>
      .ite (.pure rfl rfl) (traces_removeTarget fuel path target node)
  intro c t
  rw [ensures_repairPath]
  exact (hrepair c t).imp (fun _ _ t => t.finishRepair) fun _ _ ⟨report', t⟩ =>
    ⟨report', t.finishRepair⟩

theorem regular_repairPath (fuel : Nat) (path : Path) (target : PathIndex)
    (increments : List (Increment Tracked)) :
    Maintains Regular (repairPath fuel path target increments) :=
  fun c h => (traces_repairPath fuel path target increments c (.start h)).imp
    (fun _ _ t => t.regular) fun _ _ ⟨_, t⟩ => t.regular

end Blockwise
