import Blockwise.Proofs.Repair.ExactPlacement
import Blockwise.Proofs.RepairEffect

/-!
The removals that the scan for exact hits schedules. Each is meant to take an inner call out of the
reached set of the call around it. On the path to a target of a run this is so where the scan keeps
up with the open calls. When several blocks return at one element it leaves only one frame, and
another call behind them is then scheduled below a block that was left before.
-/
namespace Blockwise

open Context

section

variable {program : Program} {c d : Context} {t : NodeId} {path : Path} {target : PathIndex}
  {increments : List (Increment Tracked)} {pairs : List CallPair} {report : Report}

namespace Action

def scanUpTo (path : Path) (target stop : PathIndex) (increments : List (Increment Tracked))
    (pairs : List CallPair) (report : Report) : Action ExactScan := do
  let roles ← (← get).pathRoles [] path.nodes
  ((roles.zipIdx.take stop).drop target).foldlM (scanElement path increments) { pairs, report }

theorem scanUpTo_places (hc : c.Sound) {roles : List PathRole}
    (hroles : c.pathRoles [] path.nodes = .ok roles) (hleg : c.Legible path roles)
    (hk : c.KeepsUp path target) (hpos : 0 < target) (stop : PathIndex) :
    Ensures (scanUpTo path target stop increments pairs report) c
      (fun scan d => ∀ pair ∈ scan.pairs, pair ∈ pairs ∨ d.WellPlaced pair) (fun _ _ => True) := by
  simp only [scanUpTo, ensures_bind, ensures_get, ensures_lift_of_ok hroles]
  have hscan := scan_inPlace hc hleg hk hpos increments stop pairs report
  refine hscan.imp (fun scan d hs => ?_) fun _ _ => id
  obtain ⟨i, hs⟩ := hs
  exact fun pair hp => (hs.pairs pair hp).imp_right (hs.keeps.wellPlaced hc)

theorem ensureExactHits_places (hc : c.Sound) {roles : List PathRole}
    (hroles : c.pathRoles [] path.nodes = .ok roles) (hleg : c.Legible path roles)
    (hk : c.KeepsUp path target) (hpos : 0 < target) :
    Ensures (ensureExactHits path target increments pairs report) c
      (fun res d => ∀ pair ∈ res.1, pair ∈ pairs ∨ d.WellPlaced pair) (fun _ _ => True) := by
  have hscan := scan_inPlace hc hleg hk hpos increments roles.zipIdx.length pairs report
  rw [List.take_length] at hscan
  simp only [ensureExactHits, ensures_bind, ensures_get, ensures_lift_of_ok hroles]
  unfold Path.position
  by_cases hlt : target < path.size
  · simp only [if_pos hlt, ensures_bind]
    refine hscan.imp (fun scan d hs => ?_) fun _ _ => id
    obtain ⟨i, hs⟩ := hs
    simp only [ensures_get]
    rw [ensures_liftExcept]
    refine ⟨fun res hres => ?_, fun _ _ => trivial⟩
    obtain ⟨-, hpairs⟩ := hs.leaveFrames hc hres
    exact fun pair hp => (hpairs pair hp).imp_right (hs.keeps.wellPlaced hc)
  · simp only [if_neg hlt]
    exact trivial

end Action

/-- Right after a run, the scan for exact hits adds well placed pairs only, if no call is made
behind an element at which the scan falls behind. -/
theorem scheduled_pairs_well_placed {partitioning : Partitioning} {reducer : Reducer}
    {state : State} {precision : Tracked} {options : Options} (shutdown : Shutdown) {fuel : Nat}
    {targets : List NodeId}
    (hrun : run program fuel
      { Context.start partitioning reducer state precision options with shutdown } =
        .ok targets c)
    (ht : t ∈ targets) :
    ∃ path, Path.toTarget c t = .ok path ∧ ∀ target, 0 < target → target < path.size →
      c.KeepsUp path target → ∀ increments pairs report shutdown,
        (∀ stop scan d, Action.scanUpTo path target stop increments pairs report
            { c with shutdown } = .ok scan d →
          ∀ pair ∈ scan.pairs, pair ∈ pairs ∨ d.WellPlaced pair) ∧
        ∀ pairs' report' d, Action.ensureExactHits path target increments pairs report
            { c with shutdown } = .ok (pairs', report') d →
          ∀ pair ∈ pairs', pair ∈ pairs ∨ d.WellPlaced pair := by
  obtain ⟨h, htargets, -⟩ := freshlyRun_of_run hrun
  obtain ⟨m, hm, htop, htarget⟩ := (mem_targets_iff h.toStructured htargets).1 ht
  obtain ⟨path, hpath, -⟩ := Path.toTarget_eq h.toSound h.tidy hm
  refine ⟨path, hpath, fun target hpos hlt hk increments pairs report shutdown' => ?_⟩
  have h' := h.withShutdown shutdown'
  have hm' : Graph.Live { c with shutdown := shutdown' }.graph t m := hm
  obtain ⟨path', hpath', hto⟩ := Path.toTarget_eq h'.toSound h'.tidy hm'
  rw [Path.toTarget_withShutdown, hpath] at hpath'
  cases hpath'
  obtain ⟨roles, hroles, hleg⟩ := h'.legible hm' htop htarget hto (Nat.lt_of_le_of_lt hpos hlt)
  have hk' : KeepsUp { c with shutdown := shutdown' } path target := hk
  exact ⟨fun stop scan d hscan =>
      (Action.scanUpTo_places h'.toSound hroles hleg hk' hpos stop).of_ok hscan,
    fun pairs' report' d hscan =>
      (Action.ensureExactHits_places h'.toSound hroles hleg hk' hpos).of_ok hscan⟩

end

namespace SharedReturn

def program : Program :=
  [⟨0, .skip, 1⟩, ⟨1, .skip, 2⟩, ⟨2, .skip, 3⟩, ⟨3, .error, 6⟩, ⟨3, .skip, 4⟩, ⟨4, .skip, 5⟩,
    ⟨5, .error, 7⟩]

def start : Context :=
  .start (.ofList [.of 1 [] [3], .of 2 [] [3], .of 4 [] [5]]) (.ofList [(2, ["y"]), (4, ["x"])])
    { location := 0 } ∅ { aggressiveCaching := true }

def explored : Context := finalState (run program 100 start)

theorem run_start : run program 100 start = .ok [8, 13] explored := by
  have hvalue : value? (run program 100 start) = some [8, 13] := by decide +kernel
  obtain ⟨targets, hrun⟩ := ok_of_value? (r := run program 100 start) (by rw [hvalue]; rfl)
  rw [hrun] at hvalue
  cases hvalue
  exact hrun

def near : Path := ⟨[0, 1, 3, 7, 8]⟩

def far : Path := ⟨[0, 1, 3, 7, 9, 12, 13]⟩

def scan (path : Path) (refined : Tracked) :
    EStateM.Result Fault Context (List CallPair × Report) :=
  Action.ensureExactHits path 1 [Tracked.increment refined] [] {} explored

theorem exists_of_scheduled {r : EStateM.Result Fault Context (List CallPair × Report)}
    {pairs : List CallPair} (h : (value? r).map Prod.fst = some pairs) :
    ∃ report d, r = .ok (pairs, report) d := by
  cases r with
  | ok res d =>
    obtain ⟨pairs', report⟩ := res
    cases h
    exact ⟨report, d, rfl⟩
  | error => cases h

end SharedReturn

open SharedReturn in
theorem inner_block_well_placed : explored.KeepsUp near 1 ∧ ∃ report d,
    scan near (.ofList ["y"]) = .ok ([(1, 3)], report) d ∧ d.WellPlaced (1, 3) := by
  have hrun := run_start
  have hnear : Path.toTarget explored 8 = .ok near := by decide +kernel
  have hk : explored.KeepsUp near 1 := by decide +kernel
  have hpairs : (value? (scan near (.ofList ["y"]))).map Prod.fst = some [(1, 3)] := by
    decide +kernel
  obtain ⟨report, d, hscan⟩ := exists_of_scheduled hpairs
  refine ⟨hk, report, d, hscan, ?_⟩
  -- nothing below needs to know what the run left
  rw [scan] at hscan
  generalize explored = c at hrun hnear hk hscan
  obtain ⟨path, hpath, hplaced⟩ := scheduled_pairs_well_placed .never hrun (List.mem_cons_self ..)
  cases hpath.symm.trans hnear
  obtain ⟨-, hended⟩ := hplaced 1 (by decide) (by decide) hk
    [Tracked.increment (.ofList ["y"])] [] {} c.shutdown
  exact (hended _ report d hscan (1, 3) (List.mem_singleton.2 rfl)).resolve_left List.not_mem_nil

open SharedReturn in
/-- Behind the common return of two blocks the frame of the outer one is still open. -/
theorem stale_frame_misplaces : ∃ c targets path pairs report d pair,
    run program 100 start = .ok targets c ∧ c.cache.aggressive = true ∧ 13 ∈ targets ∧
      Path.toTarget c 13 = .ok path ∧ 1 < path.size ∧
      Action.ensureExactHits path 1 [Tracked.increment (.ofList ["x"])] [] {} c =
        .ok (pairs, report) d ∧ pair ∈ pairs ∧ ¬ d.WellPlaced pair := by
  have hpairs : (value? (scan far (.ofList ["x"]))).map Prod.fst = some [(1, 9)] := by
    decide +kernel
  obtain ⟨report, d, hscan⟩ := exists_of_scheduled hpairs
  have hno : ¬ (finalState (scan far (.ofList ["x"]))).WellPlaced (1, 9) := by decide +kernel
  rw [hscan] at hno
  have hagg : explored.cache.aggressive = true := by decide +kernel
  have hfar : Path.toTarget explored 13 = .ok far := by decide +kernel
  exact ⟨explored, [8, 13], far, [(1, 9)], report, d, (1, 9), run_start, hagg, by decide, hfar,
    by decide, hscan, List.mem_singleton.2 rfl, hno⟩

end Blockwise
