import Blockwise.Proofs.ResultAccounts
import Blockwise.Proofs.RepairEffect

/-!
Exact results in an aggressive cache. A repair first puts a result for the refined precision into
the cache for each call on the path from the target on. The removals that follow re-key results, but
none that has a refined precision already, and so no exact result is moved or dropped again.
-/
namespace Blockwise

open Context

variable {program : Program} {c c' d : Context} {path : Path} {target i : PathIndex} {n t : NodeId}
  {K : Key} {increments : List (Increment Tracked)} {report : Report} {fuel : Nat}

/-! ### Precise keys have results -/

theorem Resolves.marked {s : SetId} (st : Resolves n c s c') (h : c.Marked) : c'.Marked := by
  intro K hK
  cases st with
  | stored => exact h hK
  | @similar _ K' _ cache _ _ _ hs =>
    obtain ⟨imprecise, hcache⟩ := c.cache.lookupSimilar_snd K'
    rw [hs] at hcache
    subst hcache
    exact h hK
  | fresh => exact h.cacheSet hK

theorem Grows.marked (g : Grows program c c') (h : c.Marked) : c'.Marked := by
  induction g with
  | refl => exact h
  | quiet _ _ _ ih => exact ih
  | pop _ _ ih => exact ih
  | resolve _ _ _ _ st ih => exact st.marked ih
  | unfold _ _ _ st ih => cases st <;> exact ih

theorem Explored.marked (e : Explored program c) : c.Marked := by
  induction e with
  | start =>
    intro K hK
    cases hK
  | @run c e shutdown fuel ih =>
    have quiet : Grows program c { c with shutdown } := Grows.refl.quiet c.statistics shutdown
    exact (run_grows fuel (quiet.sound e.unrepaired.toSound)).marked ih

theorem Maintained.marked (m : Maintained program c) : c.Marked := by
  induction m with
  | explored e => exact e.marked
  | @repair c m shutdown fuel path target increments ih =>
    have h : Regular { c with shutdown } := m.operated.regular.quiet c.statistics shutdown
    exact ((traces_repairPath fuel path target increments _ (.start h)).imp
      (fun _ _ t => t.steps.marked ih) (fun _ _ ⟨_, t⟩ => t.steps.marked ih)).final

namespace Context

/-! ### The scan for exact hits -/

structure Widens (c d : Context) : Prop where
  links : d.links = c.links
  partitioning : d.partitioning = c.partitioning
  reducer : d.reducer = c.reducer
  node : ∀ {n m}, c.graph.node? n = some m → d.graph.node? n = some m
  precise : ∀ {K}, c.cache.containsPrecise K → d.cache.containsPrecise K

namespace Widens

theorem refl (c : Context) : c.Widens c := ⟨rfl, rfl, rfl, id, id⟩

theorem quiet (w : c.Widens d) (statistics : Statistics) (shutdown : Shutdown) :
    c.Widens { d with statistics, shutdown } := { w with }

theorem cacheSet (w : c.Widens d) : c.Widens (d.cacheSet K) where
  links := w.links
  partitioning := w.partitioning
  reducer := w.reducer
  node := fun hm => Graph.node?_addNode_eq_some_iff.2 (Or.inr (w.node hm))
  precise := by
    intro K' hK'
    rw [containsPrecise_cacheSet, w.precise hK', Bool.or_true]

theorem callState (w : c.Widens d) : d.callState path i = c.callState path i := by
  exact callState_congr w.links path i

theorem refinedKey (w : c.Widens d) (h : c.Regular) (hn : d.Calls n)
    (hK : d.RefinedKey increments n K) : c.RefinedKey increments n K := by
  obtain ⟨s, hs⟩ := hn
  obtain ⟨m, -, hm, -⟩ := h.call (w.links ▸ hs)
  obtain ⟨m', b, hm', hb, hK⟩ := hK
  cases Option.some.inj ((w.node hm).symm.trans hm')
  rw [w.partitioning] at hb
  rw [w.reducer] at hK
  exact ⟨m, b, hm, hb, hK⟩

end Widens

def CallKey (c : Context) (increments : List (Increment Tracked)) (path : Path) (i : PathIndex)
    (p : Key → Prop) : Prop :=
  ∃ n K, c.callState path i = .ok n ∧ c.RefinedKey increments n K ∧ p K

def CallKeys (c : Context) (increments : List (Increment Tracked)) (path : Path)
    (target : PathIndex) (p : Key → Prop) : Prop :=
  ∃ roles, c.pathRoles [] path.nodes = .ok roles ∧ ∀ i role, target ≤ i → roles[i]? = some role →
    role.isCall = true → c.CallKey increments path i p

theorem CallKey.imp {p q : Key → Prop} (hc : c.CallKey increments path i p)
    (hpq : ∀ n K, c.RefinedKey increments n K → p K → q K) : c.CallKey increments path i q := by
  obtain ⟨n, K, hn, hK, hp⟩ := hc
  exact ⟨n, K, hn, hK, hpq n K hK hp⟩

theorem CallKeys.imp {p q : Key → Prop} (hc : c.CallKeys increments path target p)
    (hpq : ∀ n K, c.RefinedKey increments n K → p K → q K) :
    c.CallKeys increments path target q := by
  obtain ⟨roles, hroles, hcall⟩ := hc
  exact ⟨roles, hroles, fun i role hi hrole hyes => (hcall i role hi hrole hyes).imp hpq⟩

end Context

namespace Action

theorem scanElement_provides (h : c.Regular) (w : c.Widens d) (scan : ExactScan)
    (element : PathRole × PathIndex) :
    Ensures (scanElement path increments scan element) d
      (fun _ d' => c.Widens d' ∧ (∀ K, d.cache.containsPrecise K → d'.cache.containsPrecise K) ∧
        (element.1.isCall = true →
          c.CallKey increments path element.2 fun K => d'.cache.containsPrecise K))
      (fun _ _ => True) := by
  obtain ⟨role, i⟩ := element
  refine (scanElement_cases path increments scan role i).imp (fun scan' d' hd => ?_)
    (fun _ _ _ => trivial)
  obtain ⟨shutdown, ⟨-, hp, -⟩ | ⟨hno, rfl, -⟩⟩ := hd
  · have w : c.Widens { d with shutdown } := w.quiet d.statistics shutdown
    obtain ⟨n, K, hn, hcalls, hK, hp⟩ := hp
    have hkey := w.refinedKey h hcalls hK
    rw [w.callState] at hn
    rcases hp with ⟨hp, rfl, -⟩ | ⟨-, statistics, rfl, -⟩
    · exact ⟨w, fun _ => id, fun _ => ⟨n, K, hn, hkey, hp⟩⟩
    · refine ⟨w.cacheSet.quiet statistics shutdown, fun K' hK' => ?_, fun _ => ⟨n, K, hn, hkey, ?_⟩⟩
      · change (d.cacheSet K).cache.containsPrecise K' = true
        rw [containsPrecise_cacheSet, hK', Bool.or_true]
      · change (d.cacheSet K).cache.containsPrecise K = true
        rw [containsPrecise_cacheSet, decide_eq_true rfl, Bool.true_or]
  · refine ⟨w.quiet d.statistics shutdown, fun _ => id, fun hyes => ?_⟩
    change role.isCall = true at hyes
    rw [hno] at hyes
    cases hyes

theorem ensureExactHits_provides (h : c.Regular) (path : Path) (target : PathIndex)
    (increments : List (Increment Tracked)) (pairs : List CallPair) (report : Report) :
    Ensures (ensureExactHits path target increments pairs report) c
      (fun _ d => c.CallKeys increments path target fun K => d.cache.containsPrecise K)
      (fun _ _ => True) := by
  -- The elements that are left are to be scanned yet.
  refine ensureExactHits_of_scan (I := fun roles rest _ d => c.pathRoles [] path.nodes = .ok roles ∧
      c.Widens d ∧ ∀ x ∈ roles.zipIdx.drop target, x.1.isCall = true →
        x ∈ rest ∨ c.CallKey increments path x.2 fun K => d.cache.containsPrecise K)
    (fun roles hroles => ⟨hroles, .refl c, fun _ hx _ => Or.inl hx⟩)
    (fun roles x rest scan d hI => ?_) (fun roles scan d hI => ⟨trivial, fun _ _ _ => ?_⟩) trivial
  · obtain ⟨hroles, w, hscanned⟩ := hI
    refine (scanElement_provides h w scan x).imp (fun _ d' hd => ?_) (fun _ _ => id)
    obtain ⟨w, hmono, hx⟩ := hd
    refine ⟨hroles, w, fun y hy hcall => ?_⟩
    rcases hscanned y hy hcall with hrest | hexact
    · rcases List.mem_cons.1 hrest with rfl | hrest
      · exact Or.inr (hx hcall)
      · exact Or.inl hrest
    · exact Or.inr (hexact.imp fun _ K _ => hmono K)
  · obtain ⟨hroles, -, hscanned⟩ := hI
    refine ⟨roles, hroles, fun i role hi hrole hcall => ?_⟩
    have hmem : (role, i) ∈ roles.zipIdx.drop target := by
      refine List.mem_of_getElem? (i := i - target) ?_
      rw [List.getElem?_drop, Nat.add_sub_cancel' hi, List.getElem?_zipIdx, hrole]
      simp
    exact (hscanned (role, i) hmem hcall).resolve_left List.not_mem_nil

end Action

/-! ### The removals behind the scan -/

/-- The key stands for a result of its own, and no other result is ever given for it. -/
structure Cache.Exact (cache : Cache State Tracked) (K : Key) : Prop where
  stored : ∃ s, cache.lookup K = some s
  precise : cache.containsPrecise K
  unsubstituted : (cache.lookupSimilar K).1 = none

theorem Traced.exact {x : Report × Context} {report : Report} (t : Traced increments x report d)
    (h : x.2.Regular) (hm : x.2.Marked) (hK : x.2.Refines increments K.block K.precision)
    (hp : x.2.cache.containsPrecise K) : d.cache.Exact K := by
  obtain ⟨s, hs⟩ := hm hp
  obtain ⟨hpos, hkey, -⟩ := h.stored hs
  obtain ⟨-, hs⟩ := t.steps.result_of_refines hpos hkey hs hK
  have hp := (t.regular.stored hs).2.2
  refine ⟨⟨s, hs⟩, hp, ?_⟩
  rcases d.cache.lookupSimilar_cases K with hno | ⟨⟨-, hunmarked⟩, -⟩
  · rw [hno]
  · rw [hunmarked] at hp
    cases hp

theorem removeTarget_exact (h : c.Regular) (hm : c.Marked) (hagg : c.cache.aggressive = true)
    (fuel : Nat) (path : Path) (target : PathIndex) (targetNode : NodeId)
    (increments : List (Increment Tracked)) :
    Ensures (removeTarget fuel path target targetNode increments) c
      (fun _ d => c.CallKeys increments path target d.cache.Exact) (fun _ _ => True) := by
  refine ensures_removeTarget
    (I := fun calls hits d =>
      (c.CallKeys increments path target fun K => d.cache.containsPrecise K = true) ∧
      Traced increments ({ relevantCalls := calls }, c) hits.2 d)
    (fun _ _ => trivial) (fun _ hno => ?_) (fun _ _ => ?_) fun {_ innermost hits d} _ _ hI => ?_
  · rw [hagg] at hno
    cases hno
  · exact ((Action.ensureExactHits_provides h path target increments _ _).and
      (Action.traces_ensureExactHits path target _ _ c (.start h))).imp (fun _ _ => id)
        fun _ _ _ => trivial
  · obtain ⟨hkeys, t⟩ := hI
    refine (traces_removeScheduled fuel path targetNode innermost hits.1 hits.2 d
      (.start t.regular)).imp (fun report d' t' => ?_) (fun _ _ _ => trivial)
    exact hkeys.imp fun n K hK hp => t'.exact t.regular (t.steps.marked hm)
      (t.steps.refines_iff.2 hK.refines) hp

theorem repairPath_exact (h : c.Regular) (ha : c.Agreed) (hm : c.Marked)
    (hagg : c.cache.aggressive = true) (hp : Path.toTarget c t = .ok path) (hpos : 0 < target) :
    Ensures (repairPath fuel path target increments) c
      (fun _ c' => c.CallKeys increments path target c'.cache.Exact) (fun _ _ => True) := by
  rw [ensures_repairPath]
  simp only [repairTarget, ensures_bind, ensures_get]
  rw [ensures_liftFault]
  refine ⟨fun k hk => ?_, fun _ _ => trivial⟩
  -- The target is live, so the repair does not stop at once.
  have hlive : c.graph.isDestroyed k = false := by
    obtain ⟨n, hn, hk⟩ := except_bind_eq_ok.1 hk
    cases hk
    have hbehind := Path.behind_element ha hp hpos (Path.reachedNode_eq_ok.1 hn)
    exact Graph.isDestroyed_eq_false.2 hbehind.1
  rw [hlive, ensures_ite]
  exact ⟨fun hgone => absurd hgone Bool.false_ne_true,
    fun _ => removeTarget_exact h hm hagg fuel path target k increments⟩

/-- A successful repair with an aggressive cache leaves an exact result for each call on the path
from the repaired element on. -/
theorem repair_leaves_exact_results (m : Maintained program c) (shutdown : Shutdown)
    (hagg : c.cache.aggressive = true) (hp : Path.toTarget c t = .ok path) (hpos : 0 < target)
    (hr : repairPath fuel path target increments { c with shutdown } = .ok report c') :
    CallKeys { c with shutdown } increments path target c'.cache.Exact := by
  rw [← Path.toTarget_withShutdown c shutdown] at hp
  exact (repairPath_exact (m.operated.regular.quiet c.statistics shutdown)
    (m.agreed.withShutdown shutdown) m.marked hagg hp hpos).of_ok hr

theorem refining_leaves_exact_results : ∃ report c',
    repairPath 100 Refining.path 1 Refining.increments
      { Refining.explored true with shutdown := .never } = .ok report c' ∧
    report.exactEntries = [⟨{ location := 1 }, .ofList ["x"], 1⟩] ∧
    CallKeys { Refining.explored true with shutdown := .never } Refining.increments Refining.path 1
      c'.cache.Exact := by
  have m : Maintained Refining.program (Refining.explored true) :=
    .explored (.run (.start ..) Shutdown.never 100)
  have hlisted : (value? (repairPath 100 Refining.path 1 Refining.increments
      { Refining.explored true with shutdown := .never })).map (·.exactEntries) =
        some [⟨{ location := 1 }, .ofList ["x"], 1⟩] := by decide +kernel
  obtain ⟨report, hr⟩ := ok_of_value? (r := repairPath 100 Refining.path 1 Refining.increments
    { Refining.explored true with shutdown := .never }) (by decide +kernel)
  have hp : Path.toTarget (Refining.explored true) 4 = .ok Refining.path := by decide +kernel
  rw [hr] at hlisted
  exact ⟨report, _, hr, Option.some.inj hlisted,
    repair_leaves_exact_results m .never (by decide +kernel) hp (by decide) hr⟩

end Blockwise
