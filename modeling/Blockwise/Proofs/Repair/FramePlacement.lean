import Blockwise.Proofs.OpenCallMatching
import Blockwise.Proofs.Repair.ExactNesting

/-!
The frames of the scan for exact hits and the calls that are open. A pair is scheduled for a frame
and its parent, and it is well placed if the parent is the call around that of the frame. This is so
as long as the open frames are open calls. The scan falls behind at two kinds of elements: where
several blocks are left at once it leaves only one frame, and for a block that calls itself directly
it opens none. The frames that are wrong then matter only when another call is made on top of them.
-/
namespace Blockwise

open Context

variable {program : Program} {c d : Context} {n x last : NodeId} {s t : SetId}
  {stack left : List SetId} {path : Path} {frame frame' parent : CallFrame}
  {frames frames' : List CallFrame} {pairs pairs' scheduled : List CallPair} {pair : CallPair}
  {opened rest : List PathIndex} {role : PathRole} {scan : ExactScan} {i j target : PathIndex}
  {increments : List (Increment Tracked)}

namespace Context

/-! ### Well placed pairs -/

/-- The second node, followed along its links to the reached set below the first, is a member of
this set. -/
def WellPlaced (c : Context) (pair : CallPair) : Prop :=
  ∃ s r y, c.ownerReachedSet pair.1 = .ok s ∧ c.reachedSet s = .ok r ∧
    c.nodeIn s pair.2 = .ok y ∧ y ∈ r

theorem toOption_eq_some {ε α : Type} {x : Except ε α} {a : α} :
    x.toOption = some a ↔ x = .ok a := by
  cases x <;> simp [Except.toOption]

instance (c : Context) (pair : CallPair) : Decidable (c.WellPlaced pair) :=
  decidable_of_iff
    ((c.ownerReachedSet pair.1).toOption.any fun s => (c.reachedSet s).toOption.any fun r =>
      (c.nodeIn s pair.2).toOption.any fun y => y ∈ r)
    (by simp [WellPlaced, Option.any_eq_true, toOption_eq_some])

theorem Closes.nodeIn (h : c.Sound) (hn : c.Closes (s :: stack) n left) :
    ∃ y r, c.nodeIn s n = .ok y ∧ c.sets[s]? = some r ∧ y ∈ r := by
  have follow : ∀ start hops, c.links.below n < hops →
      ∃ y m, c.followInto s start hops n = .ok y ∧ c.graph.Live y m ∧ m.set = s := by
    intro start
    generalize hst : s :: stack = whole at hn
    induction hn with
    | @here n m _ hm hx =>
      cases hst
      intro hops hlt
      cases hops with
      | zero => omega
      | succ hops =>
        refine ⟨n, m, ?_, hm, rfl⟩
        simp only [followInto, Graph.node, hm.1, Except.mapError, bind, Except.bind, if_true]
        rfl
    | @link n x m t _ left hm hx _ ih =>
      intro hops hlt
      cases hops with
      | zero => omega
      | succ hops =>
        have hbelow := Links.below_lt (fun hx => (h.exit hx).lt) hx
        simp only [followInto, Graph.node, hm.1, Except.mapError, bind, Except.bind, hx]
        by_cases hset : m.set = s
        · rw [if_pos hset]
          exact ⟨n, m, rfl, hm, hset⟩
        · rw [if_neg hset]
          exact ih hst hops (by omega)
  obtain ⟨y, m, hy, hm, rfl⟩ := follow n _ (Nat.lt_succ_of_le (List.length_filter_le ..))
  obtain ⟨r, hr, hmem⟩ := h.set_of_live hm
  exact ⟨y, r, hy, hr, hmem⟩

theorem Closes.wellPlaced (h : c.Sound) {k : NodeId} (hl : c.links.setOfEntry k = some s)
    (hn : c.Closes (s :: stack) n left) : c.WellPlaced (k, n) := by
  obtain ⟨y, r, hy, hr, hmem⟩ := hn.nodeIn h
  exact ⟨s, r, y, ownerReachedSet_eq_ok.2 hl, reachedSet_eq_ok.2 hr, hy, hmem⟩

end Context

theorem Shrinks.followInto {roots : List NodeId} (h : c.Sound) (g : Shrinks c roots d)
    {start y : NodeId} {hops : ℕ} (hy : c.followInto s start hops n = .ok y) :
    d.followInto s start hops n = .ok y := by
  induction hops generalizing n with
  | zero => cases hy
  | succ hops ih =>
    cases hm : c.graph.node? n with
    | none => simp [Context.followInto, Graph.node, hm, Except.mapError, bind, Except.bind] at hy
    | some m =>
      obtain ⟨m', hm', -, hset, -⟩ := (g.evolves h).node hm
      simp only [Context.followInto, Graph.node, hm, hm', hset, g.links h, Except.mapError, bind,
        Except.bind] at hy ⊢
      split
      · rename_i hin
        rwa [if_pos hin] at hy
      · rename_i hout
        rw [if_neg hout] at hy
        cases hx : c.links.reducedOf n with
        | none => rwa [hx] at hy
        | some x =>
          rw [hx] at hy
          exact ih hy

namespace Context

theorem Keeps.wellPlaced (h : c.Sound) (k : c.Keeps d) (hp : c.WellPlaced pair) :
    d.WellPlaced pair := by
  obtain ⟨s, r, y, howner, hr, hy, hmem⟩ := hp
  have hr := reachedSet_eq_ok.1 hr
  obtain ⟨r', hr', -⟩ := (k.1.evolves h).set hr
  obtain ⟨m, hm, hset⟩ := h.live_of_mem hr hmem
  obtain ⟨m', hm'⟩ := k.2 y m hm
  obtain ⟨m₁, hm₁, -, hset', -⟩ := (k.1.evolves h).node hm.1
  cases Option.some.inj (hm₁.symm.trans hm'.1)
  refine ⟨s, r', y, ?_, reachedSet_eq_ok.2 hr', ?_, ?_⟩
  · rwa [ownerReachedSet_eq_ok, k.1.links h, ← ownerReachedSet_eq_ok]
  · rw [Context.nodeIn, k.1.links h]
    exact k.1.followInto h hy
  · exact ((k.1.sound h).mem_iff hr').2 ⟨m', hm', hset'.trans hset⟩

/-! ### Leaving frames -/

def PlacedIn (c : Context) (path : Path) (inner outer : CallFrame) : Prop :=
  ∀ a b, c.callState path inner.call = .ok a → c.callState path outer.call = .ok b →
    c.WellPlaced (b, a)

theorem leaveFrames_placed {goOn : CallFrame → Bool} {inexact : Bool}
    (hf : frames.IsChain (c.PlacedIn path))
    (hl : c.leaveFrames path goOn inexact frames pairs = .ok (frames', pairs')) :
    frames'.IsChain (c.PlacedIn path) ∧ ∀ pair ∈ pairs', pair ∈ pairs ∨ c.WellPlaced pair := by
  -- whether a frame is placed in another one is told by their calls
  have hcalls : (frames.map (·.call)).IsChain fun i o => ∀ a b, c.callState path i = .ok a →
      c.callState path o = .ok b → c.WellPlaced (b, a) := (List.isChain_map CallFrame.call).2 hf
  obtain ⟨hleft, hpairs⟩ := leaveFrames_calls hl
  refine ⟨(List.isChain_map CallFrame.call).1 (hcalls.suffix hleft), fun pair hpair => ?_⟩
  refine (hpairs pair hpair).imp_right fun ⟨i, o, hin, hb, ha⟩ => ?_
  have hplaced := List.IsChain.infix hcalls hin
  exact List.isChain_pair.1 hplaced _ _ ha hb

/-! ### Frames and open calls -/

/-- The open frames are the open calls, as far as these were made since the target. -/
inductive Mirrors (target : PathIndex) : List CallFrame → List PathIndex → Prop
  | outside {opened : List PathIndex} : Mirrors target [] opened
  | alone {frame : CallFrame} {frames : List CallFrame} {opened : List PathIndex}
      (hi : target ≤ frame.call) (hclose : frame.closesParent = false)
      (ho : Mirrors target frames opened) : Mirrors target (frame :: frames) (frame.call :: opened)
  | joined {frame parent : CallFrame} {frames : List CallFrame} {opened : List PathIndex}
      (hi : target ≤ frame.call) (hclose : frame.closesParent = true)
      (ho : Mirrors target (parent :: frames) (parent.call :: opened)) :
      Mirrors target (frame :: parent :: frames) (frame.call :: opened)

namespace Mirrors

theorem head (hf : Mirrors target (frame :: frames) opened) :
    target ≤ frame.call ∧ ∃ rest, opened = frame.call :: rest := by
  cases hf with
  | alone hi => exact ⟨hi, _, rfl⟩
  | joined hi => exact ⟨hi, _, rfl⟩

theorem eq_nil (hf : Mirrors target frames opened) (hout : ∀ i ∈ opened, i < target) :
    frames = [] := by
  cases frames with
  | nil => rfl
  | cons frame frames =>
    obtain ⟨hi, rest, rfl⟩ := hf.head
    exact absurd (hout _ (List.mem_cons_self ..)) (Nat.not_lt.2 hi)

theorem mark (hf : Mirrors target (frame :: frames) opened) (hcall : frame'.call = frame.call)
    (hclose : frame'.closesParent = frame.closesParent) :
    Mirrors target (frame' :: frames) opened := by
  cases hf with
  | alone hi hc ho =>
    rw [← hcall] at hi ⊢
    exact .alone hi (hclose.trans hc) ho
  | joined hi hc ho =>
    rw [← hcall] at hi ⊢
    exact .joined hi (hclose.trans hc) ho

theorem leave {inexact : Bool} (hf : Mirrors target frames opened)
    (hl : c.leaveFrames path (·.closesParent) inexact frames pairs = .ok (frames', pairs')) :
    Mirrors target frames' opened.tail := by
  induction hf generalizing inexact pairs with
  | outside =>
    cases hl
    exact .outside
  | @alone frame frames opened hi hclose ho _ =>
    cases frames with
    | nil =>
      cases hl
      exact .outside
    | cons parent outer =>
      obtain ⟨found, pairs₁, -, ⟨hgo, -⟩ | ⟨-, -, rfl⟩⟩ := leaveFrames_cons hl
      · rw [hclose] at hgo
        cases hgo
      · exact ho.mark rfl rfl
  | @joined frame parent frames opened hi hclose _ ih =>
    obtain ⟨found, pairs₁, -, ⟨-, hl⟩ | ⟨hgo, -⟩⟩ := leaveFrames_cons hl
    · exact ih hl
    · rw [hclose] at hgo
      cases hgo

theorem rebase (hf : Mirrors target (frame :: frames) (i :: opened))
    (hout : ∀ i ∈ opened, i < target) (rest : List PathIndex) :
    Mirrors target (frame :: frames) (i :: rest) := by
  generalize hfs : frame :: frames = fs at hf
  generalize hos : i :: opened = os at hf
  induction hf generalizing frame frames i with
  | outside => cases hfs
  | alone hi hclose ho _ =>
    cases hfs
    cases hos
    rw [ho.eq_nil hout]
    exact .alone hi hclose .outside
  | joined hi hclose _ ih =>
    cases hfs
    cases hos
    exact .joined hi hclose (ih rfl rfl)

theorem leave_drop {inexact : Bool} {h : ℕ} (hf : Mirrors target frames opened)
    (hl : c.leaveFrames path (·.closesParent) inexact frames pairs = .ok (frames', pairs'))
    (hpos : frames ≠ [] → 0 < h)
    (hone : 2 ≤ h → ∀ {j rest}, opened = j :: rest → target ≤ j → ∀ e ∈ rest, e < target) :
    Mirrors target frames' (opened.drop h) := by
  have hleft := hf.leave hl
  cases frames with
  | nil =>
    cases hl
    exact .outside
  | cons frame frames =>
    obtain ⟨hi, rest, rfl⟩ := hf.head
    rcases (Nat.succ_le_of_lt (hpos (List.cons_ne_nil _ _))).eq_or_lt with rfl | htwo
    · exact hleft
    · rw [hleft.eq_nil (hone htwo rfl hi)]
      exact .outside

theorem join {h : ℕ} (hf : Mirrors target (parent :: frames) (parent.call :: rest))
    (hi : target ≤ frame.call) (hclose : frame.closesParent = true) (hpos : 0 < h)
    (hone : 2 ≤ h → ∀ e ∈ rest, e < target) :
    Mirrors target (frame :: parent :: frames) (frame.call :: (parent.call :: rest).drop h) := by
  rcases (Nat.succ_le_of_lt hpos).eq_or_lt with rfl | htwo
  · exact .joined hi hclose hf
  · exact .joined hi hclose (hf.rebase (hone htwo) _)

end Mirrors

/-! ### Where the scan falls behind -/

def callsSince (c : Context) (path : Path) (target i : PathIndex) : List PathIndex :=
  match c.relevantCalls path i with
  | .ok calls => calls.filter (target ≤ ·)
  | .error _ => []

/-- Several blocks are left at the element, two of which were entered since the target, or a block
entered since the target calls itself there. -/
def fallsBehind (c : Context) (path : Path) (target i : PathIndex) : Bool :=
  (path.nodes[i]?).any fun n =>
    (c.links.behind 2 n).isSome && 2 ≤ (c.callsSince path target i).length ||
      c.links.isBlockEntry n && c.standsAtStart n && 2 ≤ (c.callsSince path target (i + 1)).length

/-- No call is made behind an element at which the scan falls behind. -/
def KeepsUp (c : Context) (path : Path) (target : PathIndex) : Prop :=
  ∀ k < path.size, (path.nodes[k]?).any c.links.isBlockEntry = true →
    ∀ i < k, target ≤ i → c.fallsBehind path target i = false

instance (c : Context) (path : Path) (target : PathIndex) : Decidable (c.KeepsUp path target) :=
  inferInstanceAs (Decidable (∀ k < path.size, _ → ∀ i < k, target ≤ i → _))

theorem KeepsUp.not_fallsBehind (hk : c.KeepsUp path target) {k : PathIndex}
    (hcall : (path.nodes[k]?).any c.links.isBlockEntry = true) (hi : target ≤ i) (hik : i < k) :
    c.fallsBehind path target i = false := by
  refine hk k ?_ hcall i hik hi
  by_contra hlong
  rw [List.getElem?_eq_none (Nat.le_of_not_lt hlong)] at hcall
  cases hcall

theorem lt_of_callsSince_lt (hp : path.nodes ≠ [])
    (ho : c.links.callsBefore path.nodes i = .ok (j :: rest)) (hj : target ≤ j)
    (hone : ¬ 2 ≤ (c.callsSince path target i).length) : ∀ e ∈ rest, e < target := by
  have hcalls := relevantCalls_eq_ok hp ho
  intro e he
  by_contra hge
  refine hone ?_
  have hsub : List.Sublist [e, j] (0 :: (j :: rest).reverse) := by
    rw [List.reverse_cons]
    exact ((List.singleton_sublist.2 (List.mem_reverse.2 he)).append (List.Sublist.refl [j])).cons 0
  have hfilter := hsub.filter (target ≤ ·)
  rw [callsSince, hcalls]
  rw [List.filter_eq_self.2 (by simpa [hj] using hge)] at hfilter
  exact hfilter.length_le

end Context

end Blockwise
