import Blockwise.Proofs.Repair.Roles
import Blockwise.Proofs.Repair.Unfailing

/-!
The scan for exact hits schedules only nested pairs of calls, where its reading of the path is
right: no block calls itself directly, no element leaves several blocks at once, and the path does
not end at a call node. Each frame then belongs to an open set. Only where a call is made right at a
return, its frame stands on that of the block that was left before it.
-/
namespace Blockwise

open Context

variable {program : Program} {c d : Context} {n x : NodeId} {s t : SetId}
  {stack left out : List SetId} {nodes : List NodeId} {roles : List PathRole} {role : PathRole}
  {path : Path} {frame frame' : CallFrame} {frames frames' : List CallFrame}
  {pairs pairs' : List CallPair} {increments : List (Increment Tracked)} {scan : ExactScan}
  {i target : PathIndex}

namespace Context

def standsAtStart (c : Context) (n : NodeId) : Bool :=
  (c.graph.node? n).any fun m => (c.sets[m.set]?).any fun r =>
    c.stateAt r.first fun first => first.location = m.state.location

theorem not_home_of_standsAtStart (hn : c.standsAtStart n = false) {m : Node State Tracked}
    (hm : c.graph.Live n m) : ¬ c.Home m.set m.state.location := by
  rintro ⟨r, f, hr, hf, hlocation⟩
  rw [standsAtStart, hm.1, Option.any_some, hr, Option.any_some, stateAt_iff hf] at hn
  exact absurd hlocation (of_decide_eq_false hn)

/-- What the scan for exact hits relies on, from the target of a repair on. -/
structure Scannable (c : Context) (path : Path) (target : PathIndex) : Prop where
  /-- The path does not end at a call node. -/
  ends : ∀ n ∈ path.nodes.getLast?,
    c.stateAt n (c.partitioning.isCallNode ·.location) = false
  /-- No call is made where the calling block itself starts. -/
  calls : ∀ n ∈ path.nodes.drop target, c.links.isBlockEntry n = true → c.standsAtStart n = false
  /-- Behind the target, no element but the last leaves several blocks at once. -/
  leaves : ∀ n ∈ (path.nodes.drop (target + 1)).dropLast, ∀ x ∈ c.links.reducedOf n,
    c.links.reducedOf x = none

instance (c : Context) (path : Path) (target : PathIndex) : Decidable (c.Scannable path target) :=
  decidable_of_iff
    ((∀ n ∈ path.nodes.getLast?, c.stateAt n (c.partitioning.isCallNode ·.location) = false) ∧
      (∀ n ∈ path.nodes.drop target, c.links.isBlockEntry n = true → c.standsAtStart n = false) ∧
      ∀ n ∈ (path.nodes.drop (target + 1)).dropLast, ∀ x ∈ c.links.reducedOf n,
        c.links.reducedOf x = none)
    ⟨fun ⟨ends, calls, leaves⟩ => ⟨ends, calls, leaves⟩,
      fun ⟨ends, calls, leaves⟩ => ⟨ends, calls, leaves⟩⟩

theorem Scannable.leaves_one {target i : Nat} (h : c.Scannable path target) (hi : 0 < i)
    (hn : path.nodes[target + i]? = some n) (hlt : target + i + 1 < path.size)
    (hx : c.links.reducedOf n = some x) : c.links.reducedOf x = none := by
  refine h.leaves n (List.mem_of_getElem? (i := i - 1) ?_) x hx
  have hindex : target + 1 + (i - 1) = target + i := by omega
  have hlast : i - 1 < (path.nodes.drop (target + 1)).length - 1 := by
    rw [Path.size] at hlt
    rw [List.length_drop]
    omega
  rw [List.getElem?_dropLast, if_pos hlast, List.getElem?_drop, hindex, hn]

/-! ### Frames and open sets -/

/-- The open frames and the sets that are open. Frames around the target are not known. -/
inductive Tracks (c : Context) (path : Path) : List CallFrame → List SetId → Prop
  | outside {stack : List SetId} : Tracks c path [] stack
  | inside {frame : CallFrame} {frames : List CallFrame} {stack : List SetId} {n : NodeId}
      {m : Node State Tracked} {t : SetId} (hi : path.nodes[frame.call]? = some n)
      (hm : c.graph.Live n m) (hl : c.links.setOfEntry n = some t)
      (hclose : frame.closesParent = false) (ho : Tracks c path frames (m.set :: stack)) :
      Tracks c path (frame :: frames) (t :: m.set :: stack)
  | joined {frame parent : CallFrame} {frames : List CallFrame} {stack : List SetId} {n x : NodeId}
      {m mx : Node State Tracked} {t : SetId} (hi : path.nodes[frame.call]? = some n)
      (hm : c.graph.Live n m) (hl : c.links.setOfEntry n = some t)
      (hclose : frame.closesParent = true) (hx : c.links.reducedOf n = some x)
      (hmx : c.graph.Live x mx) (ho : Tracks c path (parent :: frames) (mx.set :: m.set :: stack)) :
      Tracks c path (frame :: parent :: frames) (t :: m.set :: stack)

def MadeIn (c : Context) (path : Path) (inner outer : CallFrame) : Prop :=
  ∃ a b, c.callState path inner.call = .ok a ∧ c.callState path outer.call = .ok b ∧ c.Nested (b, a)

theorem callState_of_entry (hi : path.nodes[i]? = some n) (hl : c.links.setOfEntry n = some t) :
    c.callState path i = .ok n := by
  have hentry : c.links.isBlockEntry n = true := Table.contains_eq_true_iff.2 ⟨t, hl⟩
  rw [callState_of_node hi, if_pos hentry]

namespace Tracks

theorem head (ht : c.Tracks path (frame :: frames) (s :: stack)) :
    ∃ n, path.nodes[frame.call]? = some n ∧ c.links.setOfEntry n = some s := by
  cases ht with
  | inside hi _ hl => exact ⟨_, hi, hl⟩
  | joined hi _ hl => exact ⟨_, hi, hl⟩

theorem mark (ht : c.Tracks path (frame :: frames) stack) (hcall : frame'.call = frame.call)
    (hclose : frame'.closesParent = frame.closesParent) :
    c.Tracks path (frame' :: frames) stack := by
  cases ht with
  | inside hi hm hl hc ho => exact .inside (hcall ▸ hi) hm hl (hclose.trans hc) ho
  | joined hi hm hl hc hx hmx ho => exact .joined (hcall ▸ hi) hm hl (hclose.trans hc) hx hmx ho

variable (h : c.Sound)

include h

theorem eq_nil_of_topLevel (ht : c.Tracks path frames (SetId.topLevel :: stack)) : frames = [] := by
  cases frames with
  | nil => rfl
  | cons frame frames =>
    obtain ⟨n, -, hl⟩ := ht.head
    obtain ⟨-, -, -, -, -, -, hpos, -⟩ := h.call hl
    exact absurd hpos (Nat.lt_irrefl 0)

theorem chain (ht : c.Tracks path frames stack) : frames.IsChain (c.MadeIn path) := by
  induction ht with
  | outside => exact .nil
  | @inside frame frames stack n m t hi hm hl _ ho ih =>
    cases frames with
    | nil => exact .singleton _
    | cons parent frames =>
      obtain ⟨b, hb, hbl⟩ := ho.head
      have hhead : ¬ c.Heads n := fun hn => by
        rw [h.entry_first hn] at hl
        cases hl
      refine List.isChain_cons_cons.2 ⟨⟨n, b, callState_of_entry hi hl, callState_of_entry hb hbl,
        m.set, n, Or.inr hbl, Or.inl rfl, ⟨m, hm.1, rfl⟩, hhead⟩, ih⟩
  | @joined frame parent frames stack n x m mx t hi hm hl _ hx hmx ho ih =>
    obtain ⟨b, hb, hbl⟩ := ho.head
    have hview := h.exit hx
    refine List.isChain_cons_cons.2 ⟨⟨n, b, callState_of_entry hi hl, callState_of_entry hb hbl,
      mx.set, ?_⟩, ih⟩
    -- a call that stands in the set that was just left needs no link to be found there
    by_cases hset : m.set = mx.set
    · exact ⟨n, Or.inr hbl, Or.inl rfl, ⟨m, hm.1, hset⟩, hview.expanded_not_head⟩
    · refine ⟨x, Or.inr hbl, Or.inr ⟨hx, fun m' hm' => ?_⟩, ⟨mx, hmx.1, rfl⟩, hview.exit_not_head⟩
      cases Option.some.inj (hm.1.symm.trans hm')
      exact hset

end Tracks

/-! ### Leaving frames -/

theorem leaveFrames_ok {goOn : CallFrame → Bool} {inexact : Bool}
    (hf : frames.IsChain (c.MadeIn path)) (hp : ∀ pair ∈ pairs, c.Nested pair) :
    ∃ frames' pairs', c.leaveFrames path goOn inexact frames pairs = .ok (frames', pairs') ∧
      ∀ pair ∈ pairs', c.Nested pair := by
  induction frames generalizing inexact pairs with
  | nil => exact ⟨[], pairs, rfl, hp⟩
  | cons frame rest ih =>
    cases rest with
    | nil => exact ⟨[], pairs, rfl, hp⟩
    | cons parent outer =>
      obtain ⟨⟨a, b, ha, hb, hnested⟩, hf⟩ := List.isChain_cons_cons.1 hf
      have hscheduled : ∀ pair ∈ schedule pairs (b, a), c.Nested pair := fun pair hmem =>
        (mem_schedule.1 hmem).elim (hp pair) fun he => he ▸ hnested
      have go : ∀ {found pairs}, (∀ pair ∈ pairs, c.Nested pair) → ∃ frames' pairs',
          (if goOn frame = true then c.leaveFrames path goOn found (parent :: outer) pairs
            else return ({ parent with
              inexactInside := parent.inexactInside || found } :: outer, pairs)) =
              .ok (frames', pairs') ∧ ∀ pair ∈ pairs', c.Nested pair := by
        intro found pairs hp
        split
        · exact ih hf hp
        · exact ⟨_, pairs, rfl, hp⟩
      rw [leaveFrames]
      split
      · simp only [ha, hb, bind, Except.bind]
        exact go hscheduled
      · exact go hp

theorem Tracks.leave {inexact : Bool} (ht : c.Tracks path frames stack)
    (hl : c.leaveFrames path (·.closesParent) inexact frames pairs = .ok (frames', pairs')) :
    c.Tracks path frames' stack.tail := by
  induction ht generalizing inexact pairs with
  | outside =>
    cases hl
    exact .outside
  | @inside frame frames stack n m t hi hm _ hclose ho _ =>
    cases frames with
    | nil =>
      cases hl
      exact .outside
    | cons parent outer =>
      obtain ⟨found, pairs₁, -, ⟨hgo, -⟩ | ⟨-, -, rfl⟩⟩ := leaveFrames_cons hl
      · rw [hclose] at hgo
        cases hgo
      · exact ho.mark rfl rfl
  | @joined frame parent frames stack n x m mx t hi hm _ hclose hx hmx _ ih =>
    obtain ⟨found, pairs₁, -, ⟨-, hl⟩ | ⟨hgo, -⟩⟩ := leaveFrames_cons hl
    · exact ih hl
    · rw [hclose] at hgo
      cases hgo

/-! ### One element of the path -/

theorem Fits.standsAtStart (hfits : c.Fits n role) (hcall : role.isCall = false)
    (hentry : c.links.isBlockEntry n = true) : c.standsAtStart n = true := by
  obtain ⟨t, ht⟩ := Table.contains_eq_true_iff.1 hentry
  obtain hyes | ⟨m, hm, hhome⟩ := hfits.call t ht
  · rw [hcall] at hyes
    cases hyes
  · by_contra hno
    exact not_home_of_standsAtStart (by simpa using hno) hm hhome

theorem Fits.enter_eq (hfits : c.Fits n role) (hcall : ¬ role.isCall = true)
    (hhome : c.links.isBlockEntry n = true → c.standsAtStart n = false) :
    c.enter left n = left := by
  cases hl : c.links.setOfEntry n with
  | none => rw [enter, hl]
  | some t =>
    have hentry : c.links.isBlockEntry n = true := Table.contains_eq_true_iff.2 ⟨t, hl⟩
    have hstart := hfits.standsAtStart (by simpa using hcall) hentry
    rw [hhome hentry] at hstart
    cases hstart

section Element

variable (h : c.Sound) (hn : c.Closes stack n left) (hfits : c.Fits n role)

include hn hfits

theorem Fits.stays (hno : role.isReturn = false) : left = stack :=
  hn.eq_of_unlinked (hfits.unlinked hno)

namespace Tracks

variable (ht : c.Tracks path frames stack)
  (hone : frames ≠ [] → ∀ x, c.links.reducedOf n = some x → c.links.reducedOf x = none)

include h ht hone

theorem closes (hreturn : role.isReturn = true) (hne : frames ≠ []) :
    ∃ x mx, c.links.reducedOf n = some x ∧ c.graph.Live x mx ∧ stack = mx.set :: left := by
  obtain ⟨m, rest, hm, rfl⟩ := hn.live
  cases hx : c.links.reducedOf n with
  | none =>
    obtain ⟨m', hm', htop⟩ := hfits.leaves hreturn hx
    cases hm.unique hm'
    rw [← hn.eq_of_unlinked hx, htop] at ht
    exact absurd (ht.eq_nil_of_topLevel h) hne
  | some x =>
    obtain ⟨t, hin⟩ := hn.behind hx
    obtain ⟨mx, _, hmx, htop⟩ := hin.live
    refine ⟨x, mx, rfl, hmx, ?_⟩
    rw [← hin.eq_of_unlinked (hone hne x hx), (List.cons.inj htop).1]

theorem atCall (hi : path.nodes[i]? = some n) (hcall : role.isCall = true) (exact : Bool) :
    c.Tracks path
      ({ call := i, exact, closesParent := !frames.isEmpty && role.isReturn } :: frames)
      (c.enter left n) := by
  obtain ⟨t, hl⟩ := hfits.linked hcall
  obtain ⟨m, rest, hm, rfl⟩ := hn.live
  have henter : c.enter (m.set :: rest) n = t :: m.set :: rest := by rw [enter, hl]
  rw [henter]
  cases frames with
  | nil => exact .inside hi hm hl rfl .outside
  | cons parent outer =>
    cases hreturn : role.isReturn with
    | false =>
      rw [← hfits.stays hn hreturn] at ht
      exact .inside hi hm hl (by simp) ht
    | true =>
      obtain ⟨x, mx, hx, hmx, rfl⟩ := ht.closes h hn hfits hone hreturn (by simp)
      exact .joined hi hm hl (by simp) hx hmx ht

theorem atReturn (hreturn : role.isReturn = true) {inexact : Bool}
    (hl : c.leaveFrames path (·.closesParent) inexact frames pairs = .ok (frames', pairs')) :
    c.Tracks path frames' left := by
  cases frames with
  | nil =>
    cases hl
    exact .outside
  | cons parent outer =>
    obtain ⟨x, mx, -, -, rfl⟩ := ht.closes h hn hfits hone hreturn (by simp)
    exact ht.leave hl

end Tracks

end Element

end Context

/-! ### The scan -/

namespace Action

theorem provideExactResult_ok (h : c.Sound) (hi : path.nodes[i]? = some n)
    (hl : c.links.setOfEntry n = some t) (report : Report) :
    Ensures (provideExactResult path increments i report) c (fun _ _ => True)
      (fun _ _ => False) := by
  obtain ⟨m, b, r, f, hm, -, -, hr, hf, hb, -⟩ := h.call hl
  have hblock := Partitioning.block_eq_ok_iff.2 hb
  simp only [provideExactResult, ensures_bind, ensures_get,
    ensures_lift_of_ok (callState_of_entry hi hl), ensures_lift_of_ok (reducedFor_eq_ok hm hb),
    ensures_lift_of_ok (Graph.node_eq_ok_iff.2 hm), ensures_lift_of_ok hblock,
    ensures_lift_of_ok (ownerReachedSet_eq_ok.2 hl),
    ensures_lift_of_ok (reachedSet_eq_ok.2 hr), ensures_lift_of_ok (Graph.liveNode_eq_ok.2 hf),
    ensures_ite, ensures_pure]
  refine ⟨fun _ => trivial, fun _ => ?_⟩
  rw [ensures_of_ok (cacheNewSet_eq_ok c _)]
  simp only [count, ensures_modify]

structure InStep (c : Context) (path : Path) (stack : List SetId) (scan : ExactScan)
    (d : Context) : Prop where
  keeps : c.Keeps d
  tracks : c.Tracks path scan.frames stack
  nested : ∀ pair ∈ scan.pairs, c.Nested pair

theorem leaveFrames_congr (hl : d.links = c.links) (goOn : CallFrame → Bool) (inexact : Bool)
    (frames : List CallFrame) (pairs : List CallPair) :
    d.leaveFrames path goOn inexact frames pairs =
      c.leaveFrames path goOn inexact frames pairs := by
  have hstate := callState_congr hl path
  induction frames generalizing inexact pairs with
  | nil => rfl
  | cons frame rest ih =>
    cases rest with
    | nil => rfl
    | cons parent outer => simp only [leaveFrames, hstate, ih]

namespace InStep

theorem quiet (hs : InStep c path stack scan d) (shutdown : Shutdown) :
    InStep c path stack scan { d with shutdown } :=
  ⟨hs.keeps.quiet d.statistics shutdown, hs.tracks, hs.nested⟩

theorem leaveFrames_ok (h : c.Sound) (hs : InStep c path stack scan d) (goOn : CallFrame → Bool) :
    ∃ frames' pairs', d.leaveFrames path goOn false scan.frames scan.pairs = .ok (frames', pairs') ∧
      ∀ pair ∈ pairs', c.Nested pair := by
  rw [leaveFrames_congr (hs.keeps.1.links h)]
  exact Context.leaveFrames_ok (hs.tracks.chain h) hs.nested

end InStep

theorem scanElement_inStep (h : c.Sound) (hs : InStep c path stack scan d)
    (hn : c.Closes stack n left) (hfits : c.Fits n role) (hi : path.nodes[i]? = some n)
    (hhome : c.links.isBlockEntry n = true → c.standsAtStart n = false)
    (hone : scan.frames ≠ [] → ∀ x, c.links.reducedOf n = some x → c.links.reducedOf x = none) :
    Ensures (scanElement path increments scan (role, i)) d
      (fun scan' d' => InStep c path (c.enter left n) scan' d')
      (fun fault _ => fault.isInconsistency = false) := by
  obtain ⟨frames, pairs, report⟩ := scan
  simp only [scanElement, ensures_bind]
  refine poll_spec.imp (fun _ d₁ hd₁ => ?_) (fun _ _ hf => hf.1 ▸ rfl)
  obtain ⟨shutdown, rfl⟩ := hd₁
  have hs' := hs.quiet shutdown
  have k := hs'.keeps
  have hlinks : Context.links { d with shutdown } = c.links := k.1.links h
  rw [ensures_ite, ensures_ite]
  refine ⟨fun hcall => ?_, fun hcall => ?_⟩
  · obtain ⟨t, ht⟩ := hfits.linked hcall
    rw [ensures_bind]
    refine ((provideExactResult_spec path increments i report).and
      (provideExactResult_ok (k.1.sound h) hi (hlinks ▸ ht) report)).imp
        (fun res d₂ hd₂ => ?_) fun _ _ hbad => hbad.2.elim
    exact ⟨k.trans hd₂.1.1, hs.tracks.atCall h hn hfits hone hi hcall res.1, hs.nested⟩
  · rw [hfits.enter_eq hcall hhome]
    refine ⟨fun hreturn => ?_, fun hreturn => ?_⟩
    · obtain ⟨frames', pairs', hleave, hnested⟩ := hs'.leaveFrames_ok h (·.closesParent)
      simp only [ensures_bind, ensures_get]
      rw [ensures_lift_of_ok hleave]
      rw [leaveFrames_congr hlinks] at hleave
      exact ⟨k, hs.tracks.atReturn h hn hfits hone hreturn hleave, hnested⟩
    · rw [hfits.stays hn (by simpa using hreturn)]
      exact hs'

theorem scan_inStep (h : c.Sound) (hs : InStep c path stack scan d)
    (ht : c.Threads stack nodes out) (hfits : List.Forall₂ c.Fits nodes roles)
    (hi : ∀ j a, nodes[j]? = some a → path.nodes[i + j]? = some a)
    (hhome : ∀ a ∈ nodes, c.links.isBlockEntry a = true → c.standsAtStart a = false)
    (hone : ∀ j a, nodes[j]? = some a → 0 < j ∨ scan.frames ≠ [] →
      ∀ x, c.links.reducedOf a = some x → c.links.reducedOf x = none) :
    Ensures ((roles.zipIdx i).foldlM (scanElement path increments) scan) d
      (fun scan' d' => InStep c path out scan' d')
      (fun fault _ => fault.isInconsistency = false) := by
  induction ht generalizing roles i scan d with
  | nil =>
    cases hfits
    exact hs
  | cons hn _ _ ih =>
    cases hfits with
    | cons hfit hfits =>
      obtain ⟨hhome, hhomes⟩ := List.forall_mem_cons.1 hhome
      rw [List.zipIdx_cons, List.foldlM_cons, ensures_bind]
      refine (scanElement_inStep h hs hn hfit (hi 0 _ rfl) hhome fun hne =>
        hone 0 _ rfl (Or.inr hne)).imp (fun scan' d' hs' => ?_) (fun _ _ => id)
      refine ih hs' hfits (fun j a ha => ?_) hhomes fun j a ha _ => hone (j + 1) a ha
        (Or.inl (Nat.succ_pos j))
      rw [Nat.add_assoc, Nat.add_comm 1 j]
      exact hi (j + 1) a ha

theorem scanElement_last (h : c.Sound) (hs : InStep c path stack scan d)
    (hcall : ¬ role.isCall = true) : Ensures (scanElement path increments scan (role, i)) d
      (fun scan' d' => ∃ stack', InStep c path stack' scan' d')
      (fun fault _ => fault.isInconsistency = false) := by
  simp only [scanElement, ensures_bind]
  refine poll_spec.imp (fun _ d₁ hd₁ => ?_) (fun _ _ hf => hf.1 ▸ rfl)
  obtain ⟨shutdown, rfl⟩ := hd₁
  have hs' := hs.quiet shutdown
  rw [ensures_ite, ensures_ite]
  refine ⟨fun hyes => absurd hyes hcall, fun _ => ⟨fun _ => ?_, fun _ => ⟨_, hs'⟩⟩⟩
  obtain ⟨frames', pairs', hleave, hnested⟩ := hs'.leaveFrames_ok h (·.closesParent)
  simp only [ensures_bind, ensures_get, ensures_lift_of_ok hleave, ensures_pure]
  rw [leaveFrames_congr (hs'.keeps.1.links h)] at hleave
  exact ⟨_, hs'.keeps, hs'.tracks.leave hleave, hnested⟩

end Action

namespace Context

theorem Threads.split {i : Nat} (ht : c.Threads stack nodes out) :
    ∃ mid, c.Threads stack (nodes.take i) mid ∧ c.Threads mid (nodes.drop i) out := by
  induction ht generalizing i with
  | nil => exact ⟨_, by simpa using .nil, by simpa using .nil⟩
  | cons hn he ht ih =>
    cases i with
    | zero => exact ⟨_, .nil, .cons hn he ht⟩
    | succ i =>
      obtain ⟨mid, hbefore, hbehind⟩ := ih (i := i)
      exact ⟨mid, .cons hn he hbefore, hbehind⟩

theorem FreshlyRun.pathRoles_eq (h : c.FreshlyRun program) {f last : NodeId}
    (hf : c.Heads f) {m : Node State Tracked} (hm : c.graph.Live last m)
    (ht : c.Threads [.topLevel] (f :: nodes) out) (hhead : ∀ a ∈ nodes, ¬ c.Heads a) :
    ∃ root roles lastRole, c.pathRoles [] (f :: nodes ++ [last]) =
      .ok (root :: roles ++ [lastRole]) ∧
      List.Forall₂ c.Fits nodes roles ∧ c.Threads [.topLevel] nodes out ∧
      (lastRole.isCall = true → c.partitioning.isCallNode m.state.location = true) := by
  obtain ⟨left, hclose, ht⟩ := ht.cons_inv
  obtain ⟨mf, rest, hmf, htop⟩ := hclose.live
  obtain rfl := hclose.eq_of_unlinked (h.reducedOf_first hf)
  obtain ⟨r, hr, hfirst⟩ := h.first_of_heads hf hmf
  rw [enter, h.entry_first hf] at ht
  have hopen : c.OpenAt (c.openedBehind [] mf.state.location) [.topLevel] := by
    rw [openedBehind]
    split
    · exact .first ⟨r, mf, (List.cons.inj htop).1 ▸ hr, hfirst ▸ hmf, rfl⟩
    · exact .whole
  obtain ⟨roles, opened', hfits, -, hroles⟩ := h.roles_fit ht hopen hhead
  refine ⟨c.roleAt [] mf.state.location, roles, c.roleAt opened' m.state.location, ?_, hfits, ht,
    fun hc => ?_⟩
  · exact h.pathRoles_cons hmf (hroles _ _ (h.pathRoles_cons hm rfl))
  · rw [roleAt, Bool.and_eq_true] at hc
    exact hc.1

theorem drop_zipIdx {α : Type} (l : List α) (k i : Nat) :
    (l.zipIdx i).drop k = (l.drop k).zipIdx (i + k) := by
  induction k generalizing l i with
  | zero => rfl
  | succ k ih =>
    cases l with
    | nil => rfl
    | cons a l => rw [List.zipIdx_cons, List.drop_succ_cons, List.drop_succ_cons, ih,
        Nat.add_right_comm, Nat.add_assoc]

theorem FreshlyRun.reads_path (h : c.FreshlyRun program) {last : NodeId} {m : Node State Tracked}
    (hm : c.graph.Live last m) (htop : m.set = .topLevel) (hpath : c.PathTo last path.nodes)
    (hlong : 1 < path.size) :
    ∃ f nodes out root roles lastRole, path.nodes = f :: nodes ++ [last] ∧
      c.Threads [.topLevel] (f :: nodes) out ∧ c.Closes out last [.topLevel] ∧
      c.Threads [.topLevel] nodes out ∧
      c.pathRoles [] path.nodes = .ok (root :: roles ++ [lastRole]) ∧
      List.Forall₂ c.Fits nodes roles ∧
      (lastRole.isCall = true → c.partitioning.isCallNode m.state.location = true) := by
  have hleads := hpath.leadsTo h.toStructured
  obtain ⟨init, hinit, hthread⟩ := hpath.threads h.toSound h.bracketed
  obtain ⟨out, hthread, hclose⟩ := hthread m hm []
  rw [htop] at hthread hclose
  obtain ⟨f, rest, hf, hhead⟩ := hpath.heads
  obtain ⟨nodes, rfl⟩ : ∃ nodes, init = f :: nodes := by
    cases init with
    | nil =>
      rw [Path.size, hinit] at hlong
      exact absurd hlong (Nat.lt_irrefl 1)
    | cons a nodes =>
      cases hinit.symm.trans hf
      exact ⟨nodes, rfl⟩
  have hheads : ∀ a ∈ nodes, ¬ c.Heads a := fun a ha => hleads.tail a (by simp [hinit, ha])
  obtain ⟨root, roles, lastRole, hroles, hfits, hbehind, hend⟩ :=
    h.pathRoles_eq hhead hm hthread hheads
  exact ⟨f, nodes, out, root, roles, lastRole, hinit, hthread, hclose, hbehind, hinit ▸ hroles,
    hfits, hend⟩

theorem FreshlyRun.scansNested (h : c.FreshlyRun program) {last : NodeId} {m : Node State Tracked}
    (hm : c.graph.Live last m) (htop : m.set = .topLevel) (hpath : c.PathTo last path.nodes)
    (hpos : 0 < target) (hlt : target < path.size) (hscan : c.Scannable path target)
    (increments : List (Increment Tracked)) : c.ScansNested path target increments := by
  intro pairs report hpairs
  obtain ⟨f, nodes, out, root, roles, lastRole, hinit, -, -, hthread, hroles, hfits, hend⟩ :=
    h.reads_path hm htop hpath (Nat.lt_of_le_of_lt hpos hlt)
  obtain ⟨k, rfl⟩ := Nat.exists_eq_succ_of_ne_zero (Nat.pos_iff_ne_zero.1 hpos)
  have hk : k ≤ nodes.length := by
    rw [Path.size, hinit] at hlt
    exact Nat.le_of_lt_succ (by simpa using hlt)
  obtain ⟨mid, -, hbehind⟩ := hthread.split (i := k)
  have hdrop : ((root :: roles ++ [lastRole]).zipIdx).drop (k + 1) =
      (roles.drop k).zipIdx (k + 1) ++ [lastRole].zipIdx (k + 1 + (roles.drop k).length) := by
    rw [drop_zipIdx, List.cons_append, List.drop_succ_cons,
      List.drop_append_of_le_length (hfits.length_eq ▸ hk), List.zipIdx_append, Nat.zero_add]
  have hnodes : path.nodes.drop (k + 1) = nodes.drop k ++ [last] := by
    rw [hinit, List.cons_append, List.drop_succ_cons, List.drop_append_of_le_length hk]
  have hget : ∀ j a, (nodes.drop k)[j]? = some a →
      path.nodes[k + 1 + j]? = some a ∧ k + 1 + j + 1 < path.size := by
    intro j a ha
    have hj := (List.getElem?_eq_some_iff.1 ha).1
    rw [← List.getElem?_drop, hnodes, List.getElem?_append_left hj, ha, Path.size, hinit]
    rw [List.length_drop] at hj
    exact ⟨rfl, by simp only [List.length_append, List.length_cons, List.length_nil]; omega⟩
  have hposition : path.position (k + 1) = some (k + 1) := if_pos hlt
  have hcalls := hscan.calls
  rw [hnodes] at hcalls
  simp only [Action.ensureExactHits, ensures_bind, ensures_get, ensures_lift_of_ok hroles,
    hposition, hdrop]
  rw [List.foldlM_append, ensures_bind]
  refine (Action.scan_inStep (i := k + 1) h.toSound ⟨.refl c, .outside, hpairs⟩ hbehind
    (List.forall₂_drop k hfits) (fun j a ha => (hget j a ha).1)
    (fun a ha => hcalls a (by simp [ha]))
    fun j a ha hj x hx => ?_).imp (fun scan d hs => ?_) (fun _ _ => id)
  · have hpositive : 0 < j := hj.resolve_right fun hne => hne rfl
    exact hscan.leaves_one hpositive (hget j a ha).1 (hget j a ha).2 hx
  · have hcall : ¬ lastRole.isCall = true := fun hcall => by
      have hno := hscan.ends last (by rw [hinit]; exact List.getLast?_concat ..)
      rw [stateAt_iff hm, hend hcall] at hno
      cases hno
    rw [List.zipIdx_singleton, List.foldlM_cons, ensures_bind]
    refine (Action.scanElement_last h.toSound hs hcall).imp (fun scan' d' hs' => ?_) (fun _ _ => id)
    obtain ⟨stack', hs'⟩ := hs'
    obtain ⟨frames', pairs', hleave, hnested⟩ := hs'.leaveFrames_ok h.toSound fun _ => true
    simp only [List.foldlM_nil, ensures_pure, ensures_lift_of_ok hleave]
    exact hnested

end Context

end Blockwise
