import Blockwise.Proofs.Brackets
import Blockwise.Proofs.Order.Selective

/-!
What an exploration comes to, told without nodes: the states that are reached from the entry of a
block or of the whole program, and the blocks that are entered on the way. A caller sees the states
at which a block is left from its own state. In a context that was only explored, every node shows
such a state, and every reached set explores such a block. The order in which nodes were taken from
the waitlists does not enter into it.
-/
namespace Blockwise

open Context

structure Invocation where
  key : Key
  nested : Bool

namespace Invocation

def call (I : Invocation) (reducer : Reducer) (b : Block) (σ : State) : Invocation :=
  ⟨⟨reducer.reduceState σ b, reducer.reducePrecision I.key.precision b, σ.location⟩, true⟩

def Stops (partitioning : Partitioning) (I : Invocation) (σ : State) : Prop :=
  σ.target = true ∨ I.nested = true ∧
    ∃ b, partitioning.block? I.key.block = some b ∧ b.isReturnNode σ.location = true

/-- Where the exploration comes back to the entry it does not go on, unless the state is the view of
an exit. -/
structure GoesOn (partitioning : Partitioning) (I : Invocation) (view : Bool) (σ : State) :
    Prop where
  stops : ¬ I.Stops partitioning σ
  fresh : view = true ∨ σ ≠ I.key.state

variable (program : Program) (partitioning : Partitioning) (reducer : Reducer)

/-- The states that are reached behind the entry, as successors or as views of exits. -/
inductive Reaches : Invocation → Bool → State → Prop
  | first {I : Invocation} {next : State} (htarget : I.key.state.target = false)
      (hs : next ∈ program.successors I.key.state I.key.precision) : Reaches I false next
  | step {I : Invocation} {view : Bool} {σ next : State} (hσ : Reaches I view σ)
      (hgo : I.GoesOn partitioning view σ) (hcall : partitioning.isCallNode σ.location = false)
      (hs : next ∈ program.successors σ I.key.precision) : Reaches I false next
  | view {I : Invocation} {view view' : Bool} {σ τ : State} {b : Block} (hσ : Reaches I view σ)
      (hgo : I.GoesOn partitioning view σ) (hb : partitioning.block? σ.location = some b)
      (hτ : Reaches (I.call reducer b σ) view' τ)
      (hexit : (I.call reducer b σ).Stops partitioning τ) :
      Reaches I true (reducer.expand σ b τ)

inductive Enters (start : Invocation) : Invocation → Prop
  | start : Enters start start
  | call {I : Invocation} {view : Bool} {σ : State} {b : Block} (hI : Enters start I)
      (hσ : Reaches program partitioning reducer I view σ) (hgo : I.GoesOn partitioning view σ)
      (hb : partitioning.block? σ.location = some b) : Enters start (I.call reducer b σ)

def Shows (I : Invocation) (σ : State) : Prop :=
  σ = I.key.state ∨ ∃ view, Reaches program partitioning reducer I view σ

end Invocation

variable {program : Program} {c : Context} {n x : NodeId} {m mx : Node State Tracked} {s t : SetId}
  {I J : Invocation} {b : Block}

namespace Context

structure Realizes (c : Context) (s : SetId) (I : Invocation) : Prop where
  key : c.HasKey s I.key
  nested : I.nested = true ↔ 0 < s

def isView (c : Context) (n : NodeId) : Bool := (c.links.reducedOf n).isSome

theorem Realizes.unique (hI : c.Realizes s I) (hJ : c.Realizes s J) : I = J := by
  cases I
  cases J
  have hkey := hJ.key.unique hI.key
  have hnested := hI.nested.trans hJ.nested.symm
  simp only at hkey hnested
  rw [hkey, Bool.eq_iff_iff.2 hnested]

theorem exists_realizes (h : c.Structured) (hm : c.graph.Live n m) : ∃ I, c.Realizes m.set I := by
  obtain ⟨r, hr, -⟩ := h.set_of_live hm
  obtain ⟨f, hf, -⟩ := h.live_first hr
  exact ⟨⟨⟨f.state, f.precision, f.state.location⟩, decide (0 < m.set)⟩, ⟨r, f, hr, hf, rfl⟩,
    decide_eq_true_iff⟩

theorem Realizes.state_eq (hI : c.Realizes m.set I) (h : c.Structured) (hm : c.graph.Live n m)
    (hn : c.Heads n) : m.state = I.key.state := by
  obtain ⟨r, f, hr, hf, hkey⟩ := hI.key
  obtain ⟨r', hr', rfl⟩ := h.first_of_heads hn hm
  cases Option.some.inj (hr.symm.trans hr')
  rw [hkey, hf.unique hm]

theorem Realizes.stops_of_isExit (hI : c.Realizes s I) (hpos : 0 < s) (hx : c.IsExit s n)
    (hm : c.graph.Live n m) : I.Stops c.partitioning m.state := by
  obtain ⟨r, f, hr, hf, hkey⟩ := hI.key
  obtain ⟨r', f', b, m', hr', hf', hb, -, -, hm', hexit⟩ := hx
  cases Option.some.inj (hr.symm.trans hr')
  cases hf.unique hf'
  cases hm.unique hm'
  rcases Bool.or_eq_true_iff.1 hexit with hreturn | htarget
  · refine Or.inr ⟨hI.nested.2 hpos, b, ?_, hreturn⟩
    rw [hkey]
    exact hb
  · exact Or.inl htarget

theorem Realizes.isExit_of_stops (hI : c.Realizes m.set I) (h : c.Structured)
    (hb : c.partitioning.block? I.key.block = some b) (hm : c.graph.Live n m) (hn : ¬ c.Heads n)
    (hstop : I.Stops c.partitioning m.state) : c.IsExit m.set n := by
  obtain ⟨r, f, hr, hf, hkey⟩ := hI.key
  have hblock : I.key.block = f.state.location := by rw [hkey]
  refine ⟨r, f, b, m, hr, hf, hblock ▸ hb, (h.mem_iff hr).2 ⟨m, hm, rfl⟩,
    fun hfirst => hn ⟨m.set, r, hr, hfirst.symm⟩, hm, ?_⟩
  rcases hstop with htarget | ⟨-, b', hb', hreturn⟩
  · rw [htarget, Bool.or_true]
  · cases Option.some.inj (hb.symm.trans hb')
    rw [hreturn, Bool.true_or]

section

variable (hc : c.FreshlyRun program)

include hc

theorem FreshlyRun.precision_eq (hm : c.graph.Live n m) (hI : c.Realizes m.set I) :
    m.precision = I.key.precision := by
  obtain ⟨r, f, hr, hf, hkey⟩ := hI.key
  rw [hkey]
  exact (hc.derived.node n m hm).precision r f hr hf

theorem FreshlyRun.realizes_call (hm : c.graph.Live n m) (hI : c.Realizes m.set I)
    (hb : c.partitioning.block? m.state.location = some b) (hkey : c.CallsKey n t) (hpos : 0 < t) :
    c.Realizes t (I.call c.reducer b m.state) := by
  obtain ⟨m', b', hm', hb', hkey⟩ := hkey
  cases hm.unique hm'
  cases Option.some.inj (hb.symm.trans hb')
  rw [hc.precision_eq hm hI] at hkey
  exact ⟨hkey, iff_of_true rfl hpos⟩

omit hc

variable (hsel : c.Selective)

include hsel

theorem Selective.goesOn (hm : c.graph.Live n m) (hn : ¬ c.Heads n) (hI : c.Realizes m.set I)
    (htouched : c.Touched n) (htarget : m.state.target = false)
    (hinner : c.Inner m.set n m.state.location) :
    I.GoesOn c.partitioning (c.isView n) m.state := by
  obtain ⟨r, f, hr, hf, hkey⟩ := hI.key
  constructor
  · rintro (hyes | ⟨hnested, b, hb, hreturn⟩)
    · rw [htarget] at hyes
      cases hyes
    · obtain ⟨r', f', hr', hf', -, hinner⟩ := hinner
      cases Option.some.inj (hr.symm.trans hr')
      cases hf.unique hf'
      obtain ⟨b', hb', hno⟩ := hinner (Nat.pos_iff_ne_zero.1 (hI.nested.1 hnested))
      rw [hkey] at hb
      cases Option.some.inj (hb.symm.trans hb')
      rw [hno] at hreturn
      cases hreturn
  · cases hx : c.links.reducedOf n with
    | some x => exact Or.inl (by simp [isView, hx])
    | none =>
      obtain ⟨m', hm', hfree⟩ := hsel.touched n htouched
      cases hm.unique hm'
      rw [hkey]
      exact Or.inr ((hsel.node n m hm).successor hn hx hfree r f hr hf)

structure Reached (c : Context) (program : Program) (start : Invocation) (n : NodeId)
    (I : Invocation) (m : Node State Tracked) : Prop where
  enters : start.Enters program c.partitioning c.reducer I
  reaches : ¬ c.Heads n → I.Reaches program c.partitioning c.reducer (c.isView n) m.state

structure CallReached (c : Context) (program : Program) (start : Invocation) (n : NodeId)
    (I : Invocation) (m : Node State Tracked) (b : Block) (t : SetId) : Prop where
  enters : start.Enters program c.partitioning c.reducer I
  reaches : I.Reaches program c.partitioning c.reducer (c.isView n) m.state
  goesOn : I.GoesOn c.partitioning (c.isView n) m.state
  block : c.partitioning.block? m.state.location = some b
  realizes : c.Realizes t (I.call c.reducer b m.state)

include hc

variable {start : Invocation}

theorem FreshlyRun.callReached (hm : c.graph.Live n m) (hI : c.Realizes m.set I)
    (hreached : c.Reached program start n I m) (hl : c.links.setOfEntry n = some s)
    (hkey : c.CallsKey n t) (hpos : 0 < t) : ∃ b, c.CallReached program start n I m b t := by
  obtain ⟨m', hm', ht⟩ := hc.linksCalls n s hl
  cases hm.unique hm'
  obtain ⟨htarget, hn, -, hinner⟩ := call_of_task hc.toStructured hm ht
  obtain ⟨m', b, hm', hb, -⟩ := id hkey
  cases hm.unique hm'
  exact ⟨b, hreached.enters, hreached.reaches hn,
    hsel.goesOn hm hn hI (Or.inr (Or.inr ⟨s, hl⟩)) htarget hinner, hb,
    hc.realizes_call hm hI hb hkey hpos⟩

theorem FreshlyRun.reached_of_heads (hstart : c.Realizes SetId.topLevel start)
    (hm : c.graph.Live n m) (hI : c.Realizes m.set I) (hn : c.Heads n)
    (older : ∀ k mk J, k < n → c.graph.Live k mk → c.Realizes mk.set J →
      c.Reached program start k J mk) : c.Reached program start n I m := by
  refine ⟨?_, fun hno => absurd hn hno⟩
  obtain ⟨r, hr, rfl⟩ := hc.first_of_heads hn hm
  rcases Nat.eq_zero_or_pos m.set with hzero | hpos
  · rw [hzero] at hI
    rw [hI.unique hstart]
    exact .start
  · obtain ⟨r', k, t, hr', hlt, hl, hkey⟩ := hsel.called m.set hpos (lt_size_of_sets hr)
    cases Option.some.inj (hr.symm.trans hr')
    obtain ⟨mk, hmk, -⟩ := hc.linksCalls k t hl
    obtain ⟨J, hJ⟩ := exists_realizes hc.toStructured hmk
    obtain ⟨b, call⟩ := hc.callReached hsel hmk hJ (older k mk J hlt hmk hJ) hl hkey hpos
    rw [hI.unique call.realizes]
    exact .call call.enters call.reaches call.goesOn call.block

theorem FreshlyRun.reached_of_successor {state : State} {precision : Tracked}
    {mx : Node State Tracked} (he : c.graph.Edge n x) (hm : c.graph.Live n m)
    (ht : c.task m.set n = .ok (.successors state precision))
    (hs : mx.state ∈ program.successors state precision) (hx : c.links.reducedOf x = none)
    (hI : c.Realizes m.set I) (hreached : c.Reached program start n I m) :
    c.Reached program start x I mx := by
  refine ⟨hreached.enters, fun _ => ?_⟩
  obtain ⟨rfl, rfl, htarget, hcases⟩ := successors_of_task hc.toStructured hm ht
  rw [hc.precision_eq hm hI] at hs
  have hview : c.isView x = false := by simp [isView, hx]
  rw [hview]
  by_cases hn : c.Heads n
  · rw [hI.state_eq hc.toStructured hm hn] at hs htarget
    exact .first htarget hs
  · obtain ⟨hinner, hcall⟩ := hcases.resolve_left hn
    exact .step (hreached.reaches hn)
      (hsel.goesOn hm hn hI (Or.inr (Or.inl ⟨x, he⟩)) htarget hinner) hcall hs

variable (hagg : c.cache.aggressive = false)

include hagg

/-- The induction is on the age of the nodes: calls and exits are older than what comes of them. -/
theorem FreshlyRun.reached (hstart : c.Realizes SetId.topLevel start) (hm : c.graph.Live n m)
    (hI : c.Realizes m.set I) : c.Reached program start n I m := by
  induction n using Nat.strong_induction_on generalizing m I with
  | _ n ih =>
    by_cases hn : c.Heads n
    · exact hc.reached_of_heads hsel hstart hm hI hn fun k mk J hlt hmk hJ => ih k hlt hmk hJ
    · cases (hc.derived.node n m hm).origin hn with
      | @successor p mp state precision he hp ht hs hx =>
        obtain ⟨mp', m', hp', hm', -, hlt, hset⟩ := hc.live_of_edge he
        cases hp.unique hp'
        cases hm.unique hm'
        rw [← hset] at hI
        exact hc.reached_of_successor hsel he hp ht hs hx hI (ih p hlt hp hI)
      | @expanded p x mp mx t b he hp ht hl hx hexit hmx hb hs =>
        obtain ⟨mp', m', hp', hm', -, hlt, hset⟩ := hc.live_of_edge he
        cases hp.unique hp'
        cases hm.unique hm'
        rw [← hset] at hI
        obtain ⟨-, -, -, -, -, -, hpos, -⟩ := hc.call hl
        obtain ⟨b', call⟩ := hc.callReached hsel hp hI (ih p hlt hp hI) hl
          (hc.derived.key hagg p t hl) hpos
        cases Option.some.inj (hb.symm.trans call.block)
        refine ⟨call.enters, fun _ => ?_⟩
        have hview := hc.exit hx
        have htx := hexit.set_eq hc.toStructured hmx
        have hinner := (ih x hview.lt hmx (htx ▸ call.realizes)).reaches hview.exit_not_head
        have hyes : c.isView n = true := by simp [isView, hx]
        rw [hyes, hs]
        exact .view call.reaches call.goesOn hb hinner
          (call.realizes.stops_of_isExit hpos hexit hmx)

end

end Context

end Blockwise
