import Blockwise.Proofs.Context.Reading
import Blockwise.Proofs.Repair.Rekeying
import Blockwise.Proofs.Repair.Shrinks

/-!
The scan for exact hits loses no node: it only adds reached sets to the cache. The nodes that it
schedules for removal are call nodes linked to a reached set.
-/
namespace Blockwise

open Context

variable {c c' c'' d : Context} {path : Path}

theorem mem_schedule {pairs : List CallPair} {pair p : CallPair} :
    p ∈ schedule pairs pair ↔ p ∈ pairs ∨ p = pair := by
  unfold schedule
  split
  · rename_i hmem
    exact ⟨Or.inl, fun h => h.elim id fun he => he ▸ hmem⟩
  · rw [List.mem_append, List.mem_singleton]

theorem mem_foldl_schedule {l pairs : List CallPair} {p : CallPair} :
    p ∈ l.foldl schedule pairs ↔ p ∈ pairs ∨ p ∈ l := by
  induction l generalizing pairs with
  | nil => simp
  | cons pair l ih => rw [List.foldl_cons, ih, mem_schedule, List.mem_cons, or_assoc]

namespace Context

def Keeps (c c' : Context) : Prop :=
  Shrinks c [] c' ∧ ∀ n m, c.graph.Live n m → ∃ m', c'.graph.Live n m'

theorem Keeps.refl (c : Context) : c.Keeps c := ⟨.start, fun _ m hm => ⟨m, hm⟩⟩

theorem Keeps.trans (k : c.Keeps c') (k' : c'.Keeps c'') : c.Keeps c'' := by
  refine ⟨k.1.trans k'.1, fun n m hm => ?_⟩
  obtain ⟨m', hm'⟩ := k.2 n m hm
  exact k'.2 n m' hm'

theorem Keeps.quiet (k : c.Keeps c') (statistics : Statistics) (shutdown : Shutdown) :
    c.Keeps { c' with statistics, shutdown } :=
  ⟨k.1.quiet statistics shutdown, k.2⟩

theorem keeps_cacheSet {K : Key} (hK : K.block = K.state.location)
    (hp : c.cache.containsPrecise K = false) : c.Keeps (c.cacheSet K) :=
  ⟨Shrinks.start.fresh hK hp, fun _ m hm => ⟨m, live_addReachedSet_iff.2 (Or.inr hm)⟩⟩

/-- The key of the call at `n` when the increments are applied to its precision. -/
def RefinedKey (c : Context) (increments : List (Increment Tracked)) (n : NodeId) (K : Key) :
    Prop :=
  ∃ m b, c.graph.node? n = some m ∧ c.partitioning.block? m.state.location = some b ∧
    K = ⟨c.reducer.reduceState m.state b,
      c.reducer.reducePrecision (Increment.applyAll m.precision increments) b, m.state.location⟩

theorem RefinedKey.block_eq {increments : List (Increment Tracked)} {n : NodeId} {K : Key}
    (hK : c.RefinedKey increments n K) : K.block = K.state.location := by
  obtain ⟨m, b, -, -, rfl⟩ := hK
  rfl

theorem RefinedKey.refines {increments : List (Increment Tracked)} {n : NodeId} {K : Key}
    (hK : c.RefinedKey increments n K) : c.Refines increments K.block K.precision := by
  obtain ⟨m, b, -, hb, rfl⟩ := hK
  exact ⟨b, m.precision, hb, rfl⟩

def Calls (c : Context) (n : NodeId) : Prop := ∃ s, c.links.setOfEntry n = some s

/-- The call of the element has an exact result in `c'`, under its refined key: one that is there in
`c` already, or a new one, which `report'` lists. -/
def Provides (c : Context) (increments : List (Increment Tracked)) (path : Path)
    (element : PathIndex) (report : Report) (c' : Context) (report' : Report) : Prop :=
  ∃ n K, c.callState path element = .ok n ∧ c.Calls n ∧ c.RefinedKey increments n K ∧
    (c.cache.containsPrecise K ∧ c' = c ∧ report' = report ∨
      c.cache.containsPrecise K = false ∧ ∃ statistics, c' = { c.cacheSet K with statistics } ∧
        report' = { report with exactEntries := report.exactEntries ++ [K] })

theorem Provides.keeps {increments : List (Increment Tracked)} {element : PathIndex}
    {report report' : Report} (hp : c.Provides increments path element report c' report') :
    c.Keeps c' ∧ report'.removals = report.removals := by
  obtain ⟨n, K, -, -, hK, ⟨-, rfl, rfl⟩ | ⟨hno, statistics, rfl, rfl⟩⟩ := hp
  · exact ⟨.refl _, rfl⟩
  · exact ⟨(keeps_cacheSet hK.block_eq hno).quiet statistics _, rfl⟩

def PairsCall (c : Context) (pairs : List CallPair) : Prop := ∀ pair ∈ pairs, c.Calls pair.2

def FramesCall (c : Context) (path : Path) (frames : List CallFrame) : Prop :=
  ∀ frame ∈ frames, ∃ n, c.callState path frame.call = .ok n ∧ c.Calls n

theorem leaveFrames_cons {goOn : CallFrame → Bool} {inexact : Bool} {frame parent : CallFrame}
    {outer frames' : List CallFrame} {pairs pairs' : List CallPair}
    (hl : c.leaveFrames path goOn inexact (frame :: parent :: outer) pairs =
      .ok (frames', pairs')) :
    ∃ found pairs₁, (∀ p ∈ pairs₁, p ∈ pairs ∨
        c.callState path parent.call = .ok p.1 ∧ c.callState path frame.call = .ok p.2) ∧
      (goOn frame = true ∧
        c.leaveFrames path goOn found (parent :: outer) pairs₁ = .ok (frames', pairs') ∨
      goOn frame = false ∧ pairs' = pairs₁ ∧
        frames' = { parent with inexactInside := parent.inexactInside || found } :: outer) := by
  have next : ∀ {found pairs₁}, (if goOn frame = true then
        c.leaveFrames path goOn found (parent :: outer) pairs₁
      else
        return ({ parent with inexactInside := parent.inexactInside || found } :: outer, pairs₁)) =
        .ok (frames', pairs') → goOn frame = true ∧
          c.leaveFrames path goOn found (parent :: outer) pairs₁ = .ok (frames', pairs') ∨
        goOn frame = false ∧ pairs' = pairs₁ ∧
          frames' = { parent with inexactInside := parent.inexactInside || found } :: outer := by
    intro found pairs₁ hl
    split at hl
    · rename_i hgo
      exact Or.inl ⟨hgo, hl⟩
    · rename_i hgo
      cases hl
      exact Or.inr ⟨by simpa using hgo, rfl, rfl⟩
  rw [leaveFrames] at hl
  split at hl
  · obtain ⟨outerNode, houter, hl⟩ := except_bind_eq_ok.1 hl
    obtain ⟨node, hnode, hl⟩ := except_bind_eq_ok.1 hl
    refine ⟨_, _, fun p hp => ?_, next hl⟩
    rcases mem_schedule.1 hp with hp | rfl
    · exact Or.inl hp
    · exact Or.inr ⟨houter, hnode⟩
  · exact ⟨_, _, fun _ => Or.inl, next hl⟩

section

variable {goOn : CallFrame → Bool} {inexact : Bool} {frames frames' : List CallFrame}
  {pairs pairs' : List CallPair}
  (hl : c.leaveFrames path goOn inexact frames pairs = .ok (frames', pairs'))

include hl

theorem leaveFrames_calls : frames'.map (·.call) <:+ frames.map (·.call) ∧
    ∀ pair ∈ pairs', pair ∈ pairs ∨ ∃ inner outer, [inner, outer] <:+: frames.map (·.call) ∧
      c.callState path outer = .ok pair.1 ∧ c.callState path inner = .ok pair.2 := by
  induction frames generalizing inexact pairs with
  | nil =>
    cases hl
    exact ⟨List.suffix_rfl, fun _ => Or.inl⟩
  | cons frame rest ih =>
    cases rest with
    | nil =>
      cases hl
      exact ⟨List.nil_suffix, fun _ => Or.inl⟩
    | cons parent outer =>
      obtain ⟨found, pairs₁, hpairs, hl⟩ := leaveFrames_cons hl
      have hpairs : ∀ pair ∈ pairs₁, pair ∈ pairs ∨ ∃ i o,
          [i, o] <:+: (frame :: parent :: outer).map (·.call) ∧
            c.callState path o = .ok pair.1 ∧ c.callState path i = .ok pair.2 :=
        fun pair hpair => (hpairs pair hpair).imp_right fun hcalls =>
          ⟨_, _, (List.prefix_append [frame.call, parent.call] _).isInfix, hcalls⟩
      rcases hl with ⟨-, hl⟩ | ⟨-, rfl, rfl⟩
      · obtain ⟨hleft, hadded⟩ := ih hl
        refine ⟨hleft.trans (List.suffix_cons ..), fun pair hpair => ?_⟩
        rcases hadded pair hpair with hpair | ⟨i, o, hin, hcalls⟩
        · exact hpairs pair hpair
        · exact Or.inr ⟨i, o, hin.trans (List.suffix_cons ..).isInfix, hcalls⟩
      · exact ⟨List.suffix_cons .., hpairs⟩

theorem exists_frame_of_leaveFrames {frame : CallFrame} (hframe : frame ∈ frames') :
    ∃ before ∈ frames, before.call = frame.call :=
  List.mem_map.1 ((leaveFrames_calls hl).1.subset (List.mem_map_of_mem hframe))

theorem leaveFrames_spec (hf : c.FramesCall path frames) (hp : c.PairsCall pairs) :
    c.FramesCall path frames' ∧ c.PairsCall pairs' := by
  constructor
  · intro frame hframe
    obtain ⟨before, hbefore, hcall⟩ := exists_frame_of_leaveFrames hl hframe
    exact hcall ▸ hf before hbefore
  · intro pair hpair
    rcases (leaveFrames_calls hl).2 pair hpair with hpair | ⟨i, o, hin, -, hnode⟩
    · exact hp pair hpair
    · obtain ⟨frame, hframe, rfl⟩ := List.mem_map.1 (hin.subset (List.mem_cons_self ..))
      obtain ⟨n, hn, hcalls⟩ := hf frame hframe
      cases hn.symm.trans hnode
      exact hcalls

end

end Context

namespace Action

theorem provideExactResult_provides (path : Path) (increments : List (Increment Tracked))
    (element : PathIndex) (report : Report) :
    Ensures (provideExactResult path increments element report) c
      (fun res c' => c.Provides increments path element report c' res.2) (fun _ c' => c' = c) := by
  simp only [provideExactResult, ensures_bind, ensures_get]
  rw [ensures_liftExcept]
  refine ⟨fun n hn => ?_, fun _ _ => rfl⟩
  rw [ensures_liftExcept]
  refine ⟨fun K hK => ?_, fun _ _ => rfl⟩
  rw [ensures_liftExcept]
  refine ⟨fun m hm => ?_, fun _ _ => rfl⟩
  rw [ensures_liftExcept]
  refine ⟨fun b hb => ?_, fun _ _ => rfl⟩
  rw [ensures_liftExcept]
  refine ⟨fun s hs => ?_, fun _ _ => rfl⟩
  rw [ensures_liftExcept]
  refine ⟨fun used hused => ?_, fun _ _ => rfl⟩
  rw [ensures_liftExcept]
  refine ⟨fun first hfirst => ?_, fun _ _ => rfl⟩
  have hcalls : c.Calls n := ⟨s, ownerReachedSet_eq_ok.1 hs⟩
  have hkey : c.RefinedKey increments n { K with
      precision := c.reducer.reducePrecision (Increment.applyAll m.precision increments) b } := by
    obtain ⟨m', b', hm', hb', hstate, -, hblock, -⟩ := reducedFor_spec hK
    have hb := Partitioning.block_eq_ok_iff.1 hb
    rw [hblock] at hb
    cases Option.some.inj (hb'.symm.trans hb)
    have hmm := Graph.node_eq_ok_iff.1 hm
    cases Option.some.inj (hmm.symm.trans hm')
    exact ⟨m, b, hmm, hb, by rw [hstate, hblock]⟩
  rw [ensures_ite]
  refine ⟨fun hp => ⟨n, _, hn, hcalls, hkey, Or.inl ⟨hp, rfl, rfl⟩⟩, fun hp => ?_⟩
  simp only [ensures_bind, count, ensures_modify, ensures_pure,
    ensures_of_ok (cacheNewSet_eq_ok c _)]
  exact ⟨n, _, hn, hcalls, hkey, Or.inr ⟨by simpa using hp, _, rfl, rfl⟩⟩

theorem provideExactResult_spec (path : Path) (increments : List (Increment Tracked))
    (element : PathIndex) (report : Report) :
    Ensures (provideExactResult path increments element report) c
      (fun res c' => c.Keeps c' ∧ res.2.removals = report.removals ∧
        ∃ n, c.callState path element = .ok n ∧ c.Calls n)
      (fun _ c' => c' = c) := by
  refine (provideExactResult_provides path increments element report).imp
    (fun res d hd => ?_) (fun _ _ => id)
  obtain ⟨n, K, hn, hcalls, -⟩ := id hd
  exact ⟨hd.keeps.1, hd.keeps.2, n, hn, hcalls⟩

theorem scanElement_cases (path : Path) (increments : List (Increment Tracked)) (scan : ExactScan)
    (role : PathRole) (i : PathIndex) :
    Ensures (scanElement path increments scan (role, i)) c
      (fun scan' c' => ∃ shutdown,
        role.isCall = true ∧
          Provides { c with shutdown } increments path i scan.report c' scan'.report ∧
          scan'.pairs = scan.pairs ∧
          (∃ frame, frame.call = i ∧
            frame.closesParent = (!scan.frames.isEmpty && role.isReturn) ∧
            scan'.frames = frame :: scan.frames) ∨
        role.isCall = false ∧ c' = { c with shutdown } ∧ scan'.report = scan.report ∧
          (role.isReturn = false ∧ scan' = scan ∨
            role.isReturn = true ∧
              c'.leaveFrames path (·.closesParent) false scan.frames scan.pairs =
                .ok (scan'.frames, scan'.pairs)))
      (fun _ c' => ∃ shutdown, c' = { c with shutdown }) := by
  simp only [scanElement, ensures_bind]
  refine poll_spec.imp (fun _ d hd => ?_) (fun _ d hd => ⟨c.shutdown, hd.2⟩)
  obtain ⟨shutdown, rfl⟩ := hd
  rw [ensures_ite, ensures_ite]
  refine ⟨fun hcall => ?_, fun hcall => ⟨fun hreturn => ?_, fun hreturn => ?_⟩⟩
  · rw [ensures_bind]
    refine (provideExactResult_provides path increments i scan.report).imp (fun res d hd => ?_)
      (fun _ d hd => ⟨shutdown, hd⟩)
    exact ⟨shutdown, Or.inl ⟨hcall, hd, rfl, _, rfl, rfl, rfl⟩⟩
  · simp only [ensures_bind, ensures_get]
    rw [ensures_liftExcept]
    refine ⟨fun res hres => ?_, fun _ _ => ⟨shutdown, rfl⟩⟩
    exact ⟨shutdown, Or.inr ⟨by simpa using hcall, rfl, rfl, Or.inr ⟨hreturn, hres⟩⟩⟩
  · exact ⟨shutdown, Or.inr ⟨by simpa using hcall, rfl, rfl,
      Or.inl ⟨by simpa using hreturn, rfl⟩⟩⟩

structure Scanned (c : Context) (path : Path) (removals : List (SetId × NodeId))
    (scan : ExactScan) : Prop where
  frames : c.FramesCall path scan.frames
  pairs : c.PairsCall scan.pairs
  removals : scan.report.removals = removals

theorem Scanned.of_links {removals : List (SetId × NodeId)} {scan : ExactScan}
    (hs : Scanned c path removals scan) (hl : c'.links = c.links) :
    Scanned c' path removals scan where
  frames := by
    intro frame hf
    obtain ⟨n, hn, s, hns⟩ := hs.frames frame hf
    exact ⟨n, (callState_congr hl path _).trans hn, s, by rwa [hl]⟩
  pairs := by
    intro pair hp
    obtain ⟨s, hns⟩ := hs.pairs pair hp
    exact ⟨s, by rwa [hl]⟩
  removals := hs.removals

theorem scanElement_spec (h : c.Sound) (increments : List (Increment Tracked))
    {removals : List (SetId × NodeId)} {scan : ExactScan} (hs : Scanned c path removals scan)
    (element : PathRole × PathIndex) :
    Ensures (scanElement path increments scan element) c
      (fun scan' c' => c.Keeps c' ∧ Scanned c' path removals scan')
      (fun _ c' => c.Keeps c') := by
  obtain ⟨role, i⟩ := element
  have quiet : ∀ shutdown, c.Keeps { c with shutdown } := fun shutdown =>
    (Keeps.refl c).quiet c.statistics shutdown
  refine (scanElement_cases path increments scan role i).imp (fun scan' d hd => ?_)
    (fun _ d hd => ?_)
  · obtain ⟨shutdown, ⟨-, hp, hpairs, frame, rfl, -, hframes⟩ | ⟨-, rfl, hreport, hscan⟩⟩ := hd
    · have k := (quiet shutdown).trans hp.keeps.1
      have hl := k.1.links h
      have hd := hs.of_links hl
      refine ⟨k, fun f hf => ?_, hpairs ▸ hd.pairs, hp.keeps.2.trans hs.removals⟩
      rw [hframes] at hf
      rcases List.mem_cons.1 hf with rfl | hf
      · obtain ⟨n, -, hn, ⟨s, hns⟩, -⟩ := hp
        exact ⟨n, (callState_congr hl path _).trans hn, s, by rwa [hl]⟩
      · exact hd.frames f hf
    · have hd : Scanned { c with shutdown } path removals scan := hs.of_links rfl
      refine ⟨quiet shutdown, ?_⟩
      rcases hscan with ⟨-, rfl⟩ | ⟨-, hleave⟩
      · exact hd
      · obtain ⟨hf, hp⟩ := leaveFrames_spec hleave hd.frames hd.pairs
        exact ⟨hf, hp, hreport ▸ hs.removals⟩
  · obtain ⟨shutdown, rfl⟩ := hd
    exact quiet shutdown

theorem ensureExactHits_of_scan {increments : List (Increment Tracked)} {target : PathIndex}
    {pairs : List CallPair} {report : Report}
    {I : List PathRole → List (PathRole × PathIndex) → ExactScan → Context → Prop}
    {ok : List CallPair × Report → Context → Prop} {bad : Context → Prop}
    (start : ∀ roles, c.pathRoles [] path.nodes = .ok roles →
      I roles (roles.zipIdx.drop target) { pairs, report } c)
    (step : ∀ roles x rest scan d, I roles (x :: rest) scan d →
      Ensures (scanElement path increments scan x) d (I roles rest) (fun _ => bad))
    (last : ∀ roles scan d, I roles [] scan d → bad d ∧ ∀ frames pairs,
      d.leaveFrames path (fun _ => true) false scan.frames scan.pairs = .ok (frames, pairs) →
        ok (pairs, scan.report) d)
    (hbad : bad c) :
    Ensures (ensureExactHits path target increments pairs report) c ok (fun _ => bad) := by
  simp only [ensureExactHits, ensures_bind, ensures_get]
  rw [ensures_liftExcept]
  refine ⟨fun roles hroles => ?_, fun _ _ => hbad⟩
  unfold Path.position
  by_cases hlt : target < path.size
  · simp only [if_pos hlt, ensures_bind]
    have loop := Ensures.foldlM (I := I roles) (step roles) (start roles hroles)
    refine loop.imp (fun scan d hd => ?_) (fun _ _ => id)
    simp only [ensures_get]
    rw [ensures_liftExcept]
    exact ⟨fun res hres => (last roles scan d hd).2 res.1 res.2 hres,
      fun _ _ => (last roles scan d hd).1⟩
  · simp only [if_neg hlt]
    exact hbad

theorem ensureExactHits_spec (h : c.Sound) (path : Path) (target : PathIndex)
    (increments : List (Increment Tracked)) {pairs : List CallPair} (hp : c.PairsCall pairs)
    (report : Report) : Ensures (ensureExactHits path target increments pairs report) c
      (fun res c' => c.Keeps c' ∧ c'.PairsCall res.1 ∧ res.2.removals = report.removals)
      (fun _ c' => c.Keeps c') := by
  refine ensureExactHits_of_scan
    (I := fun _ _ scan d => c.Keeps d ∧ Scanned d path report.removals scan)
    (fun _ _ => ⟨.refl c, by simp [FramesCall], hp, rfl⟩) (fun _ x rest scan d hI => ?_)
    (fun _ scan d hI => ⟨hI.1, fun frames pairs hleave => ?_⟩) (.refl c)
  · exact (scanElement_spec (hI.1.1.sound h) increments hI.2 x).imp
      (fun _ _ hd => ⟨hI.1.trans hd.1, hd.2⟩) (fun _ _ k => hI.1.trans k)
  · exact ⟨hI.1, (leaveFrames_spec hleave hI.2.frames hI.2.pairs).2, hI.2.removals⟩

end Action

end Blockwise
