import Blockwise.Proofs.Repair.FramePlacement

/-!
The scan for exact hits on the path to a target that a run found. While it keeps up with the open
calls, and when no other call is made afterwards, neighbouring frames are well placed, and so is
every pair that is scheduled.
-/
namespace Blockwise

open Context

variable {program : Program} {c d : Context} {n x last : NodeId} {s t : SetId}
  {path : Path} {frame parent : CallFrame} {frames frames' outer : List CallFrame}
  {pairs pairs' scheduled : List CallPair} {opened rest : List PathIndex} {roles : List PathRole}
  {role : PathRole} {scan : ExactScan} {i j target : PathIndex} {h : ℕ}
  {increments : List (Increment Tracked)} {report : Report}

namespace Context

/-- The calls that are open at each element, in which of their sets it stands, and its role. -/
structure Legible (c : Context) (path : Path) (roles : List PathRole) : Prop where
  length : roles.length = path.size
  calls : ∀ i < path.size, ∃ opened, c.links.callsBefore path.nodes i = .ok opened
  inside : ∀ {i n j rest}, path.nodes[i]? = some n →
    c.links.callsBefore path.nodes i = .ok (j :: rest) → ∃ b s stack left,
      path.nodes[j]? = some b ∧ c.links.setOfEntry b = some s ∧ c.Closes (s :: stack) n left
  fits : ∀ {i n role}, 0 < i → i + 1 < path.size → path.nodes[i]? = some n →
    roles[i]? = some role → c.Fits n role
  uncalled : ∀ {i n}, i + 1 = path.size → path.nodes[i]? = some n →
    c.links.isBlockEntry n = false ∧ ¬ c.Calls (c.links.mostInner n)

theorem FreshlyRun.not_calls_of_target (hc : c.FreshlyRun program) {m : Node State Tracked}
    (hm : c.graph.Live n m) (htarget : m.state.target = true) : ¬ c.Calls n := by
  rintro ⟨t, ht⟩
  obtain ⟨m', hm', htask⟩ := hc.linksCalls n t ht
  obtain ⟨m'', hm'', hcases⟩ := task_cases hc.toStructured htask
  cases hm.unique hm''
  obtain ⟨hno, -⟩ := hcases.resolve_left (by simp)
  rw [htarget] at hno
  cases hno

theorem FreshlyRun.legible (hc : c.FreshlyRun program) {m : Node State Tracked}
    (hm : c.graph.Live last m) (htop : m.set = .topLevel) (htarget : m.state.target = true)
    (hpath : c.PathTo last path.nodes) (hlong : 1 < path.size) :
    ∃ roles, c.pathRoles [] path.nodes = .ok roles ∧ c.Legible path roles := by
  obtain ⟨f, nodes, out, root, roles, lastRole, hinit, hthread, hclose, -, hroles, hfits, -⟩ :=
    hc.reads_path hm htop hpath hlong
  refine ⟨_, hroles, ?_⟩
  have hlen := hfits.length_eq
  have hsize : path.size = nodes.length + 2 := by simp [Path.size, hinit]
  have hopen : ∀ i < path.size, ∃ opened mid left n, c.links.callsBefore path.nodes i = .ok opened ∧
      c.Opened path opened mid ∧ path.nodes[i]? = some n ∧ c.Closes mid n left := by
    intro i hi
    obtain ⟨n, hn⟩ : ∃ n, path.nodes[i]? = some n := ⟨_, List.getElem?_eq_getElem hi⟩
    obtain ⟨mid, left, hbefore, hat⟩ := hthread.closesAt hclose (hinit ▸ hn)
    rw [← hinit] at hbefore
    obtain ⟨opened, hcalls, ho⟩ := hbefore.openCalls_take
    exact ⟨opened, mid, left, _, hcalls, ho, hn, hat⟩
  refine ⟨by simp [hsize, hlen], fun i hi => ?_, ?_, ?_, ?_⟩
  · obtain ⟨opened, -, -, -, hcalls, -⟩ := hopen i hi
    exact ⟨opened, hcalls⟩
  · intro i n j rest hn hcalls
    obtain ⟨opened, mid, left, n', hcalls', ho, hn', hat⟩ :=
      hopen i (List.getElem?_eq_some_iff.1 hn).1
    cases Option.some.inj (hn.symm.trans hn')
    cases Except.ok.inj (hcalls.symm.trans hcalls')
    cases ho with
    | call hb _ hl _ => exact ⟨_, _, _, left, hb, hl, hat⟩
  · intro i n role hpos hi hn hrole
    obtain ⟨k, rfl⟩ := Nat.exists_eq_succ_of_ne_zero (Nat.pos_iff_ne_zero.1 hpos)
    have hk : k < nodes.length := by omega
    rw [hinit, List.cons_append, List.getElem?_cons_succ, List.getElem?_append_left hk] at hn
    rw [List.cons_append, List.getElem?_cons_succ, List.getElem?_append_left (hlen ▸ hk)] at hrole
    obtain ⟨hx, rfl⟩ := List.getElem?_eq_some_iff.1 hn
    obtain ⟨hy, rfl⟩ := List.getElem?_eq_some_iff.1 hrole
    exact hfits.get hx hy
  · intro i n hi hn
    have hi : i = (f :: nodes).length := by simp only [List.length_cons]; omega
    rw [hinit, hi, List.getElem?_concat_length] at hn
    cases hn
    obtain ⟨mi, hmi, -, hsame⟩ := hc.shown_mostInner hm
    refine ⟨Bool.eq_false_iff.2 fun hyes => ?_, hc.not_calls_of_target hmi (hsame.trans htarget)⟩
    exact hc.not_calls_of_target hm htarget (Table.contains_eq_true_iff.1 hyes)

/-! ### What an element does to the open calls -/

namespace Fits

variable (hfits : c.Fits n role) (hh : c.links.hops n = h)

include hfits hh

theorem hops_eq_zero (hreturn : role.isReturn = false) : h = 0 := by
  rw [Links.hops_of_unlinked (hfits.unlinked hreturn)] at hh
  exact_mod_cast hh.symm

theorem hops_pos (hc : c.Sound) (hreturn : role.isReturn = true) {b : NodeId}
    (hl : c.links.setOfEntry b = some s) {stack left : List SetId}
    (hn : c.Closes (s :: stack) n left) : 0 < h := by
  by_contra hzero
  have hx : c.links.reducedOf n = none := by
    cases hx : c.links.reducedOf n with
    | none => rfl
    | some x =>
      rw [Links.hops_of_linked hx, Nat.eq_zero_of_not_pos hzero] at hh
      simp at hh
  obtain ⟨m, hm, htop⟩ := hfits.leaves hreturn hx
  obtain ⟨m', rest, hm', hleft⟩ := hn.live
  obtain ⟨-, -, -, -, -, -, hpos, -⟩ := hc.call hl
  cases hm.unique hm'
  rw [hn.eq_of_unlinked hx, htop] at hleft
  rw [(List.cons.inj hleft).1] at hpos
  exact Nat.lt_irrefl _ hpos

end Fits

/-! ### The scan -/

/-- The open frames are the open calls before the element, or no call is made any more. -/
def FramesOpen (c : Context) (path : Path) (target i : PathIndex) (frames : List CallFrame) :
    Prop :=
  (∃ opened, c.links.callsBefore path.nodes i = .ok opened ∧ Mirrors target frames opened) ∨
    ∀ k, i ≤ k → (path.nodes[k]?).any c.links.isBlockEntry = false

structure InPlace (c : Context) (path : Path) (target : PathIndex) (scheduled : List CallPair)
    (i : PathIndex) (scan : ExactScan) (d : Context) : Prop where
  keeps : c.Keeps d
  chain : scan.frames.IsChain (c.PlacedIn path)
  pairs : ∀ pair ∈ scan.pairs, pair ∈ scheduled ∨ c.WellPlaced pair
  frames : c.FramesOpen path target i scan.frames

theorem lt_of_not_fallsBehind (hn : path.nodes[i]? = some n)
    (hfall : c.fallsBehind path target i = false) (hh : c.links.hops n = h) (htwo : 2 ≤ h)
    (ho : c.links.callsBefore path.nodes i = .ok (j :: rest)) (hj : target ≤ j) :
    ∀ e ∈ rest, e < target := by
  refine lt_of_callsSince_lt (List.ne_nil_of_mem (List.mem_of_getElem? hn)) ho hj fun hmany => ?_
  have hbehind : (c.links.behind 2 n).isSome = true := by
    rw [← Links.natCast_le_hops, hh]
    exact_mod_cast htwo
  rw [fallsBehind, hn, Option.any_some, hbehind] at hfall
  simp [hmany] at hfall

theorem lt_of_direct (hn : path.nodes[i]? = some n)
    (hfall : c.fallsBehind path target i = false) (hentry : c.links.isBlockEntry n = true)
    (hstart : c.standsAtStart n = true) (hi : target ≤ i)
    (ho : c.links.callsBefore path.nodes (i + 1) = .ok (i :: opened)) :
    ∀ e ∈ opened, e < target := by
  refine lt_of_callsSince_lt (List.ne_nil_of_mem (List.mem_of_getElem? hn)) ho hi fun hmany => ?_
  rw [fallsBehind, hn, Option.any_some, hentry, hstart] at hfall
  simp [hmany] at hfall

section Element

variable (hc : c.Sound) (hleg : c.Legible path roles) (hk : c.KeepsUp path target) (hi : target ≤ i)
  (hlt : i + 1 < path.size) (hn : path.nodes[i]? = some n) (hfits : c.Fits n role)

include hleg hn

theorem FramesOpen.placedIn (hc : c.Sound) (hf : c.FramesOpen path target i (parent :: outer))
    (hentry : c.links.isBlockEntry n = true) (hcall : frame.call = i) :
    c.PlacedIn path frame parent := by
  obtain ⟨t, ht⟩ := Table.contains_eq_true_iff.1 hentry
  rcases hf with ⟨opened, ho, hmirrors⟩ | hno
  · obtain ⟨-, rest, rfl⟩ := hmirrors.head
    obtain ⟨b, s, stack, left, hb, hl, hclose⟩ := hleg.inside hn ho
    intro a b' ha hb'
    rw [hcall] at ha
    cases ha.symm.trans (callState_of_entry hn ht)
    cases hb'.symm.trans (callState_of_entry hb hl)
    exact hclose.wellPlaced hc hl
  · have hno := hno i le_rfl
    rw [hn, Option.any_some, hentry] at hno
    cases hno

include hlt

theorem FramesOpen.step (hk : c.KeepsUp path target) (hi : target ≤ i)
    (hf : c.FramesOpen path target i frames)
    (hopen : ∀ {opened : List PathIndex} {h : ℕ}, c.links.callsBefore path.nodes i = .ok opened →
      Mirrors target frames opened → c.fallsBehind path target i = false → c.links.hops n = h →
      c.links.callsBefore path.nodes (i + 1) =
        .ok (if c.links.isBlockEntry n then i :: opened.drop h else opened.drop h) →
      Mirrors target frames'
        (if c.links.isBlockEntry n then i :: opened.drop h else opened.drop h)) :
    c.FramesOpen path target (i + 1) frames' := by
  rcases hf with ⟨opened, ho, hmirrors⟩ | hno
  · cases hfall : c.fallsBehind path target i with
    | true =>
      refine Or.inr fun k hik => ?_
      by_contra hcall
      rw [hk.not_fallsBehind (by simpa using hcall) hi hik] at hfall
      cases hfall
    | false =>
      obtain ⟨after, hafter⟩ := hleg.calls (i + 1) hlt
      obtain ⟨opened', ho', h, hh, -, rfl⟩ := (Links.callsBefore_succ_eq_ok hn).1 hafter
      cases Except.ok.inj (ho.symm.trans ho')
      exact Or.inl ⟨_, hafter, hopen ho hmirrors hfall hh hafter⟩
  · exact Or.inr fun k hik => hno k (Nat.le_of_succ_le hik)

include hc hk hi hfits

theorem FramesOpen.atCall (hf : c.FramesOpen path target i frames)
    (hcall : role.isCall = true) (hframe : frame.call = i)
    (hclose : frame.closesParent = (!frames.isEmpty && role.isReturn)) :
    c.FramesOpen path target (i + 1) (frame :: frames) := by
  obtain ⟨t, ht⟩ := hfits.linked hcall
  have hentry : c.links.isBlockEntry n = true := Table.contains_eq_true_iff.2 ⟨t, ht⟩
  refine FramesOpen.step hleg hlt hn hk hi hf fun {opened h} ho hmirrors hfall hh _ => ?_
  rw [if_pos hentry]
  subst hframe
  cases frames with
  | nil => exact .alone hi hclose .outside
  | cons parent outer =>
    cases hreturn : role.isReturn with
    | false =>
      rw [hreturn] at hclose
      rw [hfits.hops_eq_zero hh hreturn]
      exact .alone hi hclose hmirrors
    | true =>
      rw [hreturn] at hclose
      obtain ⟨hparent, rest, rfl⟩ := hmirrors.head
      obtain ⟨b, s, stack, left, -, hl, hin⟩ := hleg.inside hn ho
      exact hmirrors.join hi hclose (hfits.hops_pos hh hc hreturn hl hin)
        fun htwo => lt_of_not_fallsBehind hn hfall hh htwo ho hparent

theorem FramesOpen.atOther (hf : c.FramesOpen path target i frames)
    (hcall : role.isCall = false)
    (hl : role.isReturn = false ∧ frames' = frames ∨ role.isReturn = true ∧
      c.leaveFrames path (·.closesParent) false frames pairs = .ok (frames', pairs')) :
    c.FramesOpen path target (i + 1) frames' := by
  refine FramesOpen.step hleg hlt hn hk hi hf fun {opened h} ho hmirrors hfall hh hafter => ?_
  have hleft : Mirrors target frames' (opened.drop h) := by
    rcases hl with ⟨hreturn, rfl⟩ | ⟨hreturn, hl⟩
    · rw [hfits.hops_eq_zero hh hreturn]
      exact hmirrors
    · refine hmirrors.leave_drop hl (fun hne => ?_) fun htwo {j rest} hopened hj => ?_
      · obtain ⟨top, below, rfl⟩ := List.exists_cons_of_ne_nil hne
        obtain ⟨-, rest, rfl⟩ := hmirrors.head
        obtain ⟨b, s, stack, left, -, hlink, hin⟩ := hleg.inside hn ho
        exact hfits.hops_pos hh hc hreturn hlink hin
      · exact lt_of_not_fallsBehind hn hfall hh htwo (hopened ▸ ho) hj
  split
  · rename_i hentry
    rw [if_pos hentry] at hafter
    rw [hleft.eq_nil (lt_of_direct hn hfall hentry (hfits.standsAtStart hcall hentry) hi hafter)]
    exact .outside
  · exact hleft

end Element

theorem Legible.not_calls (hleg : c.Legible path roles) (hi : i + 1 = path.size)
    (hs : c.callState path i = .ok n) : ¬ c.Calls n := by
  unfold callState at hs
  obtain ⟨a, ha, hs⟩ := except_bind_eq_ok.1 hs
  obtain ⟨hentry, hno⟩ := hleg.uncalled hi (Path.reachedNode_eq_ok.1 ha)
  rw [hentry] at hs
  cases hs
  exact hno

theorem InPlace.leaveFrames (hc : c.Sound) {goOn : CallFrame → Bool} {inexact : Bool}
    (hs : c.InPlace path target scheduled i scan d)
    (hl : d.leaveFrames path goOn inexact scan.frames scan.pairs = .ok (frames', pairs')) :
    frames'.IsChain (c.PlacedIn path) ∧
      ∀ pair ∈ pairs', pair ∈ scheduled ∨ c.WellPlaced pair := by
  rw [Action.leaveFrames_congr (hs.keeps.1.links hc)] at hl
  obtain ⟨hchain, hpairs⟩ := leaveFrames_placed hs.chain hl
  exact ⟨hchain, fun pair hp => (hpairs pair hp).elim (hs.pairs pair) Or.inr⟩

namespace InPlace

variable (hc : c.Sound) (hleg : c.Legible path roles) (hk : c.KeepsUp path target)
  (hpos : 0 < target) (hi : target ≤ i) (hn : path.nodes[i]? = some n)
  (hrole : roles[i]? = some role) (hs : c.InPlace path target scheduled i scan d)

include hc hleg hk hpos hi hn hrole hs

theorem atCall {scan' : ExactScan} {d' : Context} {m : NodeId} (k : c.Keeps d')
    (hm : c.callState path i = .ok m) (hcalls : c.Calls m) (hcall : role.isCall = true)
    (hframe : frame.call = i)
    (hclose : frame.closesParent = (!scan.frames.isEmpty && role.isReturn))
    (hframes : scan'.frames = frame :: scan.frames) (hpairs : scan'.pairs = scan.pairs) :
    c.InPlace path target scheduled (i + 1) scan' d' := by
  have hinner : i + 1 < path.size := by
    have hlt : i < path.size := (List.getElem?_eq_some_iff.1 hn).1
    by_contra hend
    exact hleg.not_calls (Nat.le_antisymm hlt (Nat.le_of_not_lt hend)) hm hcalls
  have hfits := hleg.fits (hpos.trans_le hi) hinner hn hrole
  obtain ⟨t, ht⟩ := hfits.linked hcall
  have hentry : c.links.isBlockEntry n = true := Table.contains_eq_true_iff.2 ⟨t, ht⟩
  have hopen := FramesOpen.atCall hc hleg hk hi hinner hn hfits hs.frames hcall hframe hclose
  refine ⟨k, ?_, hpairs ▸ hs.pairs, hframes ▸ hopen⟩
  rw [hframes]
  cases hscan : scan.frames with
  | nil => exact .singleton _
  | cons parent outer =>
    have hf := hs.frames
    rw [hscan] at hf
    exact List.isChain_cons_cons.2 ⟨hf.placedIn hleg hn hc hentry hframe, hscan ▸ hs.chain⟩

theorem atOther {scan' : ExactScan} (hcall : role.isCall = false)
    (hleave : role.isReturn = false ∧ scan' = scan ∨ role.isReturn = true ∧
      d.leaveFrames path (·.closesParent) false scan.frames scan.pairs =
        .ok (scan'.frames, scan'.pairs)) :
    c.InPlace path target scheduled (i + 1) scan' d := by
  have hopen : c.FramesOpen path target (i + 1) scan'.frames := by
    rcases Nat.lt_or_ge (i + 1) path.size with hinner | hend
    · have hfits := hleg.fits (hpos.trans_le hi) hinner hn hrole
      rw [Action.leaveFrames_congr (hs.keeps.1.links hc)] at hleave
      have hleft : role.isReturn = false ∧ scan'.frames = scan.frames ∨ _ :=
        hleave.imp_left fun hsame => ⟨hsame.1, congrArg _ hsame.2⟩
      exact FramesOpen.atOther hc hleg hk hi hinner hn hfits hs.frames hcall hleft
    · refine Or.inr fun k hik => ?_
      rw [List.getElem?_eq_none (hend.trans hik), Option.any_none]
  rcases hleave with ⟨-, rfl⟩ | ⟨-, hleave⟩
  · exact ⟨hs.keeps, hs.chain, hs.pairs, hopen⟩
  · obtain ⟨hchain, hpairs⟩ := hs.leaveFrames hc hleave
    exact ⟨hs.keeps, hchain, hpairs, hopen⟩

end InPlace

end Context

namespace Action

theorem scanElement_inPlace (hc : c.Sound) (hleg : c.Legible path roles)
    (hk : c.KeepsUp path target) (hpos : 0 < target) (hi : target ≤ i) (hlt : i < path.size)
    (hrole : roles[i]? = some role) (hs : c.InPlace path target scheduled i scan d) :
    Ensures (scanElement path increments scan (role, i)) d
      (fun scan' d' => c.InPlace path target scheduled (i + 1) scan' d') (fun _ _ => True) := by
  obtain ⟨n, hn⟩ : ∃ n, path.nodes[i]? = some n := ⟨_, List.getElem?_eq_getElem hlt⟩
  refine (scanElement_cases path increments scan role i).imp (fun scan' d' hd => ?_)
    fun _ _ _ => trivial
  obtain ⟨shutdown, hd⟩ := hd
  have hs' : c.InPlace path target scheduled i scan { d with shutdown } :=
    ⟨hs.keeps.quiet d.statistics shutdown, hs.chain, hs.pairs, hs.frames⟩
  have hlinks : Context.links { d with shutdown } = c.links := hs'.keeps.1.links hc
  rcases hd with ⟨hcall, hprovides, hpairs, frame, hframe, hclose, hframes⟩ |
    ⟨hcall, rfl, -, hleave⟩
  · have k := hs'.keeps.trans hprovides.keeps.1
    obtain ⟨m, -, hm, ⟨s, hl⟩, -⟩ := hprovides
    have hm : c.callState path i = .ok m := by
      rwa [callState_congr hlinks] at hm
    exact hs'.atCall hc hleg hk hpos hi hn hrole k hm ⟨s, hlinks ▸ hl⟩ hcall hframe hclose hframes
      hpairs
  · exact hs'.atOther hc hleg hk hpos hi hn hrole hcall hleave

theorem scan_inPlace (hc : c.Sound) (hleg : c.Legible path roles) (hk : c.KeepsUp path target)
    (hpos : 0 < target) (increments : List (Increment Tracked)) (stop : PathIndex)
    (scheduled : List CallPair) (report : Report) :
    Ensures (((roles.zipIdx.take stop).drop target).foldlM (scanElement path increments)
      { pairs := scheduled, report }) c
      (fun scan d => ∃ i, c.InPlace path target scheduled i scan d) (fun _ _ => True) := by
  refine (Ensures.foldlM (I := fun rest scan d => ∃ i, target ≤ i ∧
    rest = (roles.zipIdx.take stop).drop i ∧ c.InPlace path target scheduled i scan d)
    (fun x rest scan d hI => ?_) ?_).imp (fun scan d hI => ?_) fun _ _ => id
  · obtain ⟨i, hi, hrest, hs⟩ := hI
    have hx : (roles.zipIdx.take stop)[i]? = some x := by
      rw [← List.head?_drop, ← hrest, List.head?_cons]
    have hx : roles.zipIdx[i]? = some x := by
      rw [List.getElem?_take] at hx
      split at hx
      · exact hx
      · cases hx
    rw [List.getElem?_zipIdx, Option.map_eq_some_iff] at hx
    obtain ⟨role, hrole, rfl⟩ := hx
    rw [Nat.zero_add]
    have hlt : i < path.size := hleg.length ▸ (List.getElem?_eq_some_iff.1 hrole).1
    refine (scanElement_inPlace hc hleg hk hpos hi hlt hrole hs).imp (fun scan' d' hs' => ?_)
      fun _ _ => id
    refine ⟨i + 1, Nat.le_succ_of_le hi, ?_, hs'⟩
    rw [← List.tail_drop, ← hrest, List.tail_cons]
  · refine ⟨target, le_rfl, rfl, .refl c, .nil, fun pair => Or.inl, ?_⟩
    rcases Nat.lt_or_ge target path.size with hlt | hend
    · obtain ⟨opened, ho⟩ := hleg.calls target hlt
      exact Or.inl ⟨opened, ho, .outside⟩
    · refine Or.inr fun k hik => ?_
      rw [List.getElem?_eq_none (hend.trans hik), Option.any_none]
  · obtain ⟨i, -, -, hs⟩ := hI
    exact ⟨i, hs⟩

end Action

end Blockwise
