import Blockwise.Proofs.Exploration.Agreement
import Blockwise.Proofs.Exploration.Derivation
import Blockwise.Proofs.Paths
import Blockwise.Repair.OpenCalls

/-!
Paths of an explored context are well bracketed. Behind a call node a path runs through the reached
set of the block, and it leaves this set at an exit, for which a node of the caller stands. So with
a stack of the sets that are open, every node closes one of them for each link behind it, and then
it belongs to the set on top.
-/
namespace Blockwise

open Context

variable {program : Program} {c c' : Context} {n p x : NodeId} {s t : SetId}
  {nodes : List NodeId} {stack left out : List SetId} {path : Path} {opened : List PathIndex}

namespace Context

/-- Only call nodes have views of exits below them, and these come from the set that is called. -/
def Bracketed (c : Context) : Prop :=
  ∀ p n, c.graph.Edge p n → match c.links.reducedOf n with
    | none => c.links.setOfEntry p = none
    | some x => ∃ m, c.graph.Live x m ∧ c.links.setOfEntry p = some m.set

def LinksCalls (c : Context) : Prop :=
  ∀ n t, c.links.setOfEntry n = some t → ∃ m, c.graph.Live n m ∧ c.task m.set n = .ok .call

theorem LinksCalls.grows (hc : c.LinksCalls) (h : c.Sound) (g : Grows program c c') :
    c'.LinksCalls := by
  -- a task never changes
  have keep : ∀ {d d' : Context}, d.Structured → d.Extends d' → ∀ {n m}, d.graph.Live n m →
      d.task m.set n = .ok .call → ∃ m', d'.graph.Live n m' ∧ d'.task m'.set n = .ok .call := by
    intro d d' hd e n m hm ht
    obtain ⟨m', hm', -, -, hset, -⟩ := e.node hm
    exact ⟨m', hm', hset ▸ e.task hd ht⟩
  induction g with
  | refl => exact hc
  | quiet g statistics shutdown ih =>
    intro n t hn
    obtain ⟨m, hm, ht⟩ := ih n t hn
    exact keep (g.sound h).toStructured (Grows.extends_quiet statistics shutdown) hm ht
  | pop g hr ih =>
    intro n t hn
    obtain ⟨m, hm, ht⟩ := ih n t hn
    exact keep (g.sound h).toStructured (Grows.sound_pop (g.sound h) hr).2 hm ht
  | @resolve d d' k s g _ _ _ st ih =>
    have hd := g.sound h
    intro n t hn
    rw [st.links, Links.setOfEntry_linkEntry] at hn
    split at hn
    · rename_i hkn
      obtain ⟨m, hm, ht⟩ := st.call
      exact hkn ▸ keep hd.toStructured (st.spec hd).2 hm ht
    · obtain ⟨m, hm, ht⟩ := ih n t hn
      exact keep hd.toStructured (st.spec hd).2 hm ht
  | unfold g _ _ st ih =>
    have hd := g.sound h
    intro n t hn
    rw [st.entry] at hn
    obtain ⟨m, hm, ht⟩ := ih n t hn
    exact keep hd.toStructured (st.spec hd).2 hm ht

theorem Derived.bracketed (hd : c.Derived program) (h : c.Structured) (hc : c.LinksCalls) :
    c.Bracketed := by
  intro p n he
  obtain ⟨-, m, -, hm, -⟩ := h.live_of_edge he
  cases (hd.node n m hm).origin (h.not_heads_of_edge he) with
  | successor hq hlive ht _ hx =>
    obtain rfl := h.parent_unique he hq
    rw [hx]
    cases hl : c.links.setOfEntry _ with
    | none => rfl
    | some t =>
      obtain ⟨mq, hmq, htask⟩ := hc _ t hl
      rw [hlive.unique hmq, ht] at htask
      cases htask
  | @expanded q x _ mx t _ hq _ _ hl hx hexit hmx =>
    obtain rfl := h.parent_unique he hq
    obtain rfl := hexit.set_eq h hmx
    rw [hx]
    exact ⟨mx, hmx, hl⟩

/-- The links behind `n` end in the set on top of the stack and come through the sets below it in
turn. -/
inductive Closes (c : Context) : List SetId → NodeId → List SetId → Prop
  | here {n : NodeId} {m : Node State Tracked} {stack : List SetId} (hm : c.graph.Live n m)
      (hx : c.links.reducedOf n = none) : Closes c (m.set :: stack) n (m.set :: stack)
  | link {n x : NodeId} {m : Node State Tracked} {t : SetId} {stack left : List SetId}
      (hm : c.graph.Live n m) (hx : c.links.reducedOf n = some x)
      (hin : Closes c stack x (t :: m.set :: left)) : Closes c stack n (m.set :: left)

def enter (c : Context) (left : List SetId) (n : NodeId) : List SetId :=
  match c.links.setOfEntry n with
  | some t => t :: left
  | none => left

/-- The nodes lead on and take the stack from `stack` to `out`. -/
inductive Threads (c : Context) : List SetId → List NodeId → List SetId → Prop
  | nil {stack : List SetId} : Threads c stack [] stack
  | cons {n k : NodeId} {nodes : List NodeId} {stack left out : List SetId}
      (hn : c.Closes stack n left) (he : c.graph.Edge n k)
      (ht : Threads c (c.enter left n) nodes out) : Threads c stack (n :: nodes) out

theorem Closes.live (hn : c.Closes stack n left) :
    ∃ m rest, c.graph.Live n m ∧ left = m.set :: rest := by
  cases hn with
  | here hm => exact ⟨_, _, hm, rfl⟩
  | link hm => exact ⟨_, _, hm, rfl⟩

theorem Closes.eq_of_unlinked (hn : c.Closes stack n left) (hx : c.links.reducedOf n = none) :
    left = stack := by
  cases hn with
  | here => rfl
  | link _ hlink =>
    rw [hx] at hlink
    cases hlink

theorem Closes.behind (hn : c.Closes stack n left) (hx : c.links.reducedOf n = some x) :
    ∃ t, c.Closes stack x (t :: left) := by
  cases hn with
  | here _ hno =>
    rw [hx] at hno
    cases hno
  | link _ hx' hin =>
    cases Option.some.inj (hx.symm.trans hx')
    exact ⟨_, hin⟩

theorem Threads.cons_inv (ht : c.Threads stack (n :: nodes) out) : ∃ left,
    c.Closes stack n left ∧ c.Threads (c.enter left n) nodes out := by
  cases ht with
  | cons hn _ ht => exact ⟨_, hn, ht⟩

theorem Threads.snoc {k : NodeId} (ht : c.Threads stack nodes out) (hn : c.Closes out n left)
    (he : c.graph.Edge n k) : c.Threads stack (nodes ++ [n]) (c.enter left n) := by
  induction ht with
  | nil => exact .cons hn he .nil
  | cons hn' he' _ ih => exact .cons hn' he' (ih hn)

theorem Threads.append {mid : List SetId} {nodes' : List NodeId}
    (ht : c.Threads stack nodes mid) (ht' : c.Threads mid nodes' out) :
    c.Threads stack (nodes ++ nodes') out := by
  induction ht with
  | nil => exact ht'
  | cons hn he _ ih => exact .cons hn he (ih ht')

theorem Threads.closesAt (ht : c.Threads stack nodes out) (hn : c.Closes out n left) {i : Nat}
    {a : NodeId} (ha : (nodes ++ [n])[i]? = some a) : ∃ mid left',
      c.Threads stack ((nodes ++ [n]).take i) mid ∧ c.Closes mid a left' := by
  induction ht generalizing i with
  | nil =>
    cases i with
    | zero =>
      cases ha
      exact ⟨_, _, .nil, hn⟩
    | succ i => simp at ha
  | cons hb he _ ih =>
    cases i with
    | zero =>
      cases ha
      exact ⟨_, _, .nil, hb⟩
    | succ i =>
      obtain ⟨mid, left', ht, hc⟩ := ih hn (by simpa using ha)
      exact ⟨mid, left', .cons hb he ht, hc⟩

theorem PathTo.heads (hp : c.PathTo n nodes) : ∃ f rest, nodes = f :: rest ∧ c.Heads f := by
  induction hp with
  | first hn => exact ⟨_, [], rfl, hn⟩
  | step _ _ _ ih =>
    obtain ⟨f, rest, rfl, hf⟩ := ih
    exact ⟨f, _, rfl, hf⟩
  | leave _ _ _ _ ih =>
    obtain ⟨f, rest, rfl, hf⟩ := ih
    exact ⟨f, _, rfl, hf⟩

theorem PathTo.threads (h : c.Sound) (hb : c.Bracketed) (hp : c.PathTo n nodes) :
    ∃ init, nodes = init ++ [n] ∧ ∀ m, c.graph.Live n m → ∀ around, ∃ out,
      c.Threads (m.set :: around) init out ∧ c.Closes out n (m.set :: around) := by
  induction hp with
  | @first n hn =>
    exact ⟨[], rfl, fun m hm around => ⟨_, .nil, .here hm (h.reducedOf_first hn)⟩⟩
  | @step p n nodes he hx _ ih =>
    obtain ⟨init, rfl, ih⟩ := ih
    obtain ⟨mp, mn, hmp, hmn, -, -, hset⟩ := h.live_of_edge he
    have hcall := hb p n he
    rw [hx] at hcall
    refine ⟨init ++ [p], rfl, fun m hm around => ?_⟩
    cases hm.unique hmn
    obtain ⟨out, ht, hc⟩ := ih mp hmp around
    have hsnoc := ht.snoc hc he
    rw [enter, hcall, hset] at hsnoc
    exact ⟨_, hsnoc, .here hm hx⟩
  | @leave p n x nodes inner he hx _ hi ih ihx =>
    obtain ⟨init, rfl, ih⟩ := ih
    obtain ⟨inits, rfl, ihx⟩ := ihx
    obtain ⟨mp, mn, hmp, hmn, -, -, hset⟩ := h.live_of_edge he
    have hcall := hb p n he
    rw [hx] at hcall
    obtain ⟨mx, hmx, hcall⟩ := hcall
    -- the exit heads no set, so the path to it starts with another node, the first of its set
    obtain ⟨f, rest, hf, hfirst⟩ := hi.heads
    obtain ⟨inits', rfl⟩ : ∃ inits', inits = f :: inits' := by
      cases inits with
      | nil =>
        cases hf
        exact absurd hfirst (h.exit hx).exit_not_head
      | cons a inits' =>
        cases hf
        exact ⟨inits', rfl⟩
    refine ⟨init ++ [p] ++ inits', by simp, fun m hm around => ?_⟩
    cases hm.unique hmn
    obtain ⟨out, ht, hc⟩ := ih mp hmp around
    have hsnoc := ht.snoc hc he
    rw [enter, hcall, hset] at hsnoc
    obtain ⟨outx, htx, hcx⟩ := ihx mx hmx (mn.set :: around)
    refine ⟨outx, hsnoc.append ?_, .link hm hx hcx⟩
    obtain ⟨left, hn, htx⟩ := htx.cons_inv
    rw [hn.eq_of_unlinked (h.reducedOf_first hfirst), enter, h.entry_first hfirst] at htx
    exact htx

/-! ### Open calls -/

/-- The calls that are open on a path, with the stack of their sets. Each was made in the set below
its own. -/
inductive Opened (c : Context) (path : Path) : List PathIndex → List SetId → Prop
  | none : Opened c path [] [.topLevel]
  | call {i : PathIndex} {n : NodeId} {m : Node State Tracked} {t : SetId}
      {opened : List PathIndex} {stack : List SetId} (hi : path.nodes[i]? = some n)
      (hm : c.graph.Live n m) (hl : c.links.setOfEntry n = some t)
      (ho : Opened c path opened (m.set :: stack)) :
      Opened c path (i :: opened) (t :: m.set :: stack)

end Context

theorem Links.closeCalls_tail {l : Links} {i : PathIndex} {opened left : List PathIndex}
    (hc : l.closeCalls opened n = some (i :: left)) : l.closeCalls opened.tail n = some left := by
  induction opened generalizing n with
  | nil =>
    rw [closeCalls] at hc
    split at hc <;> cases hc
  | cons call outer ih =>
    rw [closeCalls] at hc
    rw [List.tail_cons]
    cases hx : l.reducedOf n with
    | none =>
      rw [hx] at hc
      cases hc
      cases left with
      | nil => simp [closeCalls, hx]
      | cons => simp [closeCalls, hx]
    | some x =>
      rw [hx] at hc
      change l.closeCalls outer x = some (i :: left) at hc
      have hin := ih hc
      cases outer with
      | nil =>
        rw [closeCalls] at hc
        split at hc <;> cases hc
      | cons => rwa [closeCalls, hx]

namespace Context

theorem Opened.call_inv (ho : c.Opened path opened (t :: s :: stack)) :
    ∃ i opened', opened = i :: opened' ∧ c.Opened path opened' (s :: stack) := by
  cases ho with
  | call _ _ _ ho => exact ⟨_, _, rfl, ho⟩

theorem Opened.closeCalls (ho : c.Opened path opened stack) (hn : c.Closes stack n left) :
    ∃ opened', c.links.closeCalls opened n = some opened' ∧ c.Opened path opened' left := by
  induction hn with
  | here hm hx =>
    refine ⟨opened, ?_, ho⟩
    cases opened <;> simp [Links.closeCalls, hx]
  | @link n x m t stack left hm hx _ ih =>
    obtain ⟨calls, hc, hcalls⟩ := ih ho
    obtain ⟨i, outer, rfl, houter⟩ := hcalls.call_inv
    have htail := Links.closeCalls_tail hc
    refine ⟨outer, ?_, houter⟩
    cases opened with
    | nil =>
      rw [Links.closeCalls] at hc
      split at hc <;> cases hc
    | cons call outer => rwa [Links.closeCalls, hx]

theorem Threads.openCalls (ht : c.Threads stack nodes out) (ho : c.Opened path opened stack)
    {k : Nat} (hk : ∀ i n, nodes[i]? = some n → path.nodes[k + i]? = some n) :
    ∃ opened', c.links.openCalls opened (nodes.zipIdx k) = .ok opened' ∧
      c.Opened path opened' out := by
  induction ht generalizing opened k with
  | nil => exact ⟨opened, rfl, ho⟩
  | @cons n _ nodes stack left out hn _ _ ih =>
    obtain ⟨opened', hclose, ho'⟩ := ho.closeCalls hn
    have hrest : ∀ i a, nodes[i]? = some a → path.nodes[k + 1 + i]? = some a := by
      intro i a ha
      rw [Nat.add_right_comm, Nat.add_assoc]
      exact hk (i + 1) a (by rwa [List.getElem?_cons_succ])
    rw [List.zipIdx_cons, Links.openCalls, hclose]
    obtain ⟨m, rest, hm, rfl⟩ := hn.live
    have hentry : c.links.isBlockEntry n = (c.links.setOfEntry n).isSome := rfl
    cases hl : c.links.setOfEntry n with
    | none =>
      rw [enter, hl] at ih
      simp only [hentry, hl, Option.isSome_none]
      exact ih ho' hrest
    | some t =>
      rw [enter, hl] at ih
      simp only [hentry, hl, Option.isSome_some, if_true]
      exact ih (.call (hk 0 n rfl) hm hl ho') hrest

/-! ### After a run of a fresh context -/

structure FreshlyRun (program : Program) (c : Context) : Prop extends Unrepaired c where
  derived : c.Derived program
  linksCalls : c.LinksCalls

theorem FreshlyRun.bracketed (h : c.FreshlyRun program) : c.Bracketed :=
  h.derived.bracketed h.toStructured h.linksCalls

theorem FreshlyRun.view_spec (h : c.FreshlyRun program) {m : Node State Tracked}
    (hm : c.graph.Live n m) (hx : c.links.reducedOf n = some x) :
    ∃ mx, c.graph.Live x mx ∧ mx.state.location = m.state.location ∧
      mx.state.target = m.state.target ∧ 0 < mx.set ∧ c.IsExit mx.set x := by
  cases (h.derived.node n m hm).origin (h.exit hx).expanded_not_head with
  | successor _ _ _ _ hno =>
    rw [hx] at hno
    cases hno
  | @expanded p x' mp mx t b he _ _ hl hx' hexit hmx hb hs =>
    cases Option.some.inj (hx.symm.trans hx')
    obtain ⟨-, -, -, -, -, -, hpos, -⟩ := h.call hl
    have hset := hexit.set_eq h.toStructured hmx
    refine ⟨mx, hmx, ?_, ?_, hset ▸ hpos, hset ▸ hexit⟩
    · rw [hs]
      rfl
    · rw [hs]
      rfl

theorem FreshlyRun.exists_uncovered (h : c.FreshlyRun program) {m : Node State Tracked}
    (hm : c.graph.Live n m) : ∃ k mk, c.graph.Live k mk ∧ mk.set = m.set ∧ mk.coveredBy = none ∧
      mk.state = m.state ∧ (m.coveredBy = none → k = n) := by
  cases hcover : m.coveredBy with
  | none => exact ⟨n, m, hm, rfl, hcover, rfl, fun _ => rfl⟩
  | some k =>
    obtain ⟨mk, hmk, hset, hfree, hstate⟩ := (h.derived.node n m hm).cover k hcover
    exact ⟨k, mk, hmk, hset, hfree, hstate, fun hnone => nomatch hnone⟩

theorem FreshlyRun.above_spec (h : c.FreshlyRun program) {k : NodeId} {m : Node State Tracked}
    (he : c.graph.Edge n k) (hn : ¬ c.Heads n) (hm : c.graph.Live n m) :
    m.state.target = false ∧ c.Inner m.set n m.state.location ∧
      (c.partitioning.isCallNode m.state.location = true ↔ (c.links.setOfEntry n).isSome) := by
  obtain ⟨r, hr, hmem⟩ := h.set_of_live hm
  have task : ∀ {todo}, c.task m.set n = .ok todo → todo ≠ .stop →
      m.state.target = false ∧ c.Inner m.set n m.state.location ∧
        todo = if c.partitioning.isCallNode m.state.location then .call
          else .successors m.state m.precision := by
    intro todo ht hstop
    obtain ⟨m', hm', hcases⟩ := task_cases h.toStructured ht
    cases hm.unique hm'
    obtain ⟨htarget, r', hr', ⟨hfirst, -⟩ | ⟨hinner, htodo⟩⟩ := hcases.resolve_left hstop
    · exact absurd ⟨_, r', hr', hfirst.symm⟩ hn
    · exact ⟨htarget, hinner, htodo⟩
  obtain ⟨-, mk, -, hmk, -⟩ := h.live_of_edge he
  have hbracket := h.bracketed n k he
  cases (h.derived.node k mk hmk).origin (h.not_heads_of_edge he) with
  | successor hq hp ht _ hx =>
    obtain rfl := h.parent_unique he hq
    cases hm.unique hp
    rw [hx] at hbracket
    obtain ⟨htarget, hinner, htodo⟩ := task ht (by simp)
    refine ⟨htarget, hinner, ?_⟩
    rw [hbracket]
    split at htodo
    · cases htodo
    · rename_i hno
      simpa using hno
  | expanded hq hp ht hl _ _ _ _ _ =>
    obtain rfl := h.parent_unique he hq
    cases hm.unique hp
    obtain ⟨htarget, hinner, htodo⟩ := task ht (by simp)
    refine ⟨htarget, hinner, ?_⟩
    rw [hl]
    split at htodo
    · rename_i hyes
      simpa using hyes
    · cases htodo

theorem FreshlyRun.withShutdown (h : c.FreshlyRun program) (shutdown : Shutdown) :
    FreshlyRun program { c with shutdown } :=
  have g : Grows program c { c with shutdown } := Grows.refl.quiet c.statistics shutdown
  { h.toUnrepaired.grows g with
    derived := h.derived.still h.toSound (Grows.extends_quiet _ _) rfl rfl
    linksCalls := h.linksCalls.grows h.toSound g }

theorem freshlyRun_of_run {partitioning : Partitioning} {reducer : Reducer} {state : State}
    {precision : Tracked} {options : Options} {shutdown : Shutdown} {fuel : Nat}
    {targets : List NodeId}
    (hrun : run program fuel
      { Context.start partitioning reducer state precision options with shutdown } =
        .ok targets c) : c.FreshlyRun program ∧ c.targets = .ok targets ∧
      (Context.start partitioning reducer state precision options).Extends c := by
  have hu := Unrepaired.start partitioning reducer state precision options
  have hd := Derived.start program partitioning reducer state precision options
  have quiet : Grows program (Context.start partitioning reducer state precision options)
      { Context.start partitioning reducer state precision options with shutdown } :=
    Grows.refl.quiet _ shutdown
  obtain ⟨g, htargets, -⟩ := (run_spec fuel (hu.grows quiet).toSound).of_ok hrun
  have g' := quiet.trans hu.toSound g
  have hcalls : (Context.start partitioning reducer state precision options).LinksCalls := by
    intro n t hn
    cases hn
  exact ⟨{ hu.grows g' with
    derived := hd.grows hu.toSound (Nat.le_refl 1) g'
    linksCalls := hcalls.grows hu.toSound g' }, htargets, g'.toExtends hu.toSound⟩

end Context

end Blockwise
