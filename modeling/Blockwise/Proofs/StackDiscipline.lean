import Mathlib.Data.List.Induction
import Blockwise.Value.Program

/-!
Calls and returns as brackets. On top of the entries that a state has on its stack, a call opens an
entry and a return closes the latest one that is open. The rounds of successors go along exactly the
walks whose assumptions are feasible and in which every return leads to where the entry that it
closes returns to, and the stack lists where the open entries return to.
-/
namespace Blockwise

variable {tracked : Tracked} {program : Program} {edge : Edge} {s s' t u : State}
  {walk : List Edge} {stack : List Location} {l : Location} {m n : Nat}

/-! ### Edges -/

namespace Operation

def unbracketed : Operation → Operation
  | call _ | .return => skip
  | operation => operation

def restack : Operation → List Location → List Location
  | call returnTo, stack => stack ++ [returnTo]
  | .return, stack => stack.dropLast
  | _, stack => stack

end Operation

namespace Edge

def unbracketed (edge : Edge) : Edge := { edge with operation := edge.operation.unbracketed }

theorem step_eq_some : edge.step tracked s = some s' ↔
    (edge.operation = .return → s.stack.getLast? = some edge.destination) ∧
      ∃ u, edge.unbracketed.step tracked s = some u ∧
        s' = { u with stack := edge.operation.restack s.stack } := by
  cases ho : edge.operation with
  | assume x v equal =>
    simp only [step, unbracketed, Operation.unbracketed, Operation.restack, ho]
    cases s.value x with
    | none => simp [eq_comm]
    | some current =>
      by_cases hpass : current = v ↔ equal = true <;> simp [hpass, eq_comm]
  | «return» =>
    simp only [step, unbracketed, Operation.unbracketed, Operation.restack, ho]
    by_cases hlast : s.stack.getLast? = some edge.destination <;> simp [hlast, eq_comm]
  | assign | call | error | skip =>
    simp [step, unbracketed, Operation.unbracketed, Operation.restack, ho, eq_comm]

theorem step_unbracketed (edge : Edge) (s : State) (stack : List Location) :
    edge.unbracketed.step tracked { s with stack } =
      (edge.unbracketed.step tracked s).map fun u => { u with stack } := by
  cases ho : edge.operation with
  | assume x v equal =>
    simp only [step, unbracketed, Operation.unbracketed, ho, State.value]
    cases s.values.get? x with
    | none => rfl
    | some current => by_cases hpass : current = v ↔ equal = true <;> simp [hpass]
  | assign | call | «return» | error | skip =>
    simp [step, unbracketed, Operation.unbracketed, ho]

end Edge

/-! ### Brackets -/

namespace Walk

def opened (walk : List Edge) : Nat := walk.countP fun edge => edge.operation matches .call _

def closed (walk : List Edge) : Nat := walk.countP fun edge => edge.operation matches .return

/-- Behind the walk entry `m`, counted from the bottom of the stack, is open and returns to `l`. -/
inductive OpenEntry (stack : List Location) (walk : List Edge) (m : Nat) (l : Location) : Prop
  | initial (hl : stack[m]? = some l)
      (hopen : ∀ part, part <+: walk → closed part + m < stack.length + opened part)
  | call {before rest : List Edge} {edge : Edge} (hwalk : walk = before ++ edge :: rest)
      (hcall : edge.operation = .call l) (hm : stack.length + opened before = closed before + m)
      (hopen : ∀ part, part <+: rest → closed part ≤ opened part)

def TopEntry (stack : List Location) (walk : List Edge) (l : Location) : Prop :=
  ∃ m, stack.length + opened walk = closed walk + (m + 1) ∧ OpenEntry stack walk m l

structure WellBracketed (stack : List Location) (walk : List Edge) : Prop where
  /-- No return closes more than is open. -/
  closed_le : ∀ part, part <+: walk → closed part ≤ stack.length + opened part
  /-- Each return leads to where the entry that it closes returns to. -/
  returns : ∀ before edge after, walk = before ++ edge :: after → edge.operation = .return →
    TopEntry stack before edge.destination

@[simp] theorem opened_nil : opened [] = 0 := rfl

@[simp] theorem closed_nil : closed [] = 0 := rfl

@[simp] theorem opened_append (walk rest : List Edge) :
    opened (walk ++ rest) = opened walk + opened rest := List.countP_append

@[simp] theorem closed_append (walk rest : List Edge) :
    closed (walk ++ rest) = closed walk + closed rest := List.countP_append

theorem opened_cons_of_call (h : edge.operation = .call l) :
    opened (edge :: walk) = opened walk + 1 := by
  simp [opened, h]

theorem closed_cons_of_call (h : edge.operation = .call l) :
    closed (edge :: walk) = closed walk := by
  simp [closed, h]

theorem closed_of_return (h : edge.operation = .return) : closed [edge] = 1 := by
  simp [closed, h]

theorem closed_of_ne_return (h : edge.operation ≠ .return) : closed [edge] = 0 := by
  cases ho : edge.operation <;> simp_all [closed]

theorem concat_eq_append_cons {before after : List Edge} {inner : Edge}
    (h : walk ++ [edge] = before ++ inner :: after) :
    (walk = before ∧ edge = inner ∧ after = []) ∨
      ∃ rest, walk = before ++ inner :: rest ∧ after = rest ++ [edge] := by
  rcases List.eq_nil_or_concat after with rfl | ⟨rest, last, rfl⟩
  · obtain ⟨hwalk, hlast⟩ := List.append_inj' h rfl
    cases hlast
    exact Or.inl ⟨hwalk, rfl, rfl⟩
  · have hsplit : walk ++ [edge] = (before ++ inner :: rest) ++ [last] := by simpa using h
    obtain ⟨hwalk, hlast⟩ := List.append_inj' hsplit rfl
    cases hlast
    exact Or.inr ⟨rest, hwalk, List.concat_eq_append⟩

theorem openEntry_concat : OpenEntry stack (walk ++ [edge]) m l ↔
    (OpenEntry stack walk m l ∧
        closed (walk ++ [edge]) + m < stack.length + opened (walk ++ [edge])) ∨
      (edge.operation = .call l ∧ stack.length + opened walk = closed walk + m) := by
  constructor
  · rintro (⟨hl, hopen⟩ | ⟨hwalk, hcall, hm, hopen⟩)
    · left
      refine ⟨.initial hl fun part hpart => hopen part ?_, hopen _ List.prefix_rfl⟩
      exact hpart.trans (List.prefix_append walk [edge])
    · rcases concat_eq_append_cons hwalk with ⟨rfl, rfl, rfl⟩ | ⟨rest, rfl, rfl⟩
      · exact Or.inr ⟨hcall, hm⟩
      · left
        refine ⟨.call rfl hcall hm fun part hpart => hopen part ?_, ?_⟩
        · exact hpart.trans (List.prefix_append rest [edge])
        · have hrest := hopen _ List.prefix_rfl
          rw [hwalk]
          simp only [opened_append, closed_append, opened_cons_of_call hcall,
            closed_cons_of_call hcall] at hrest ⊢
          omega
  · rintro (⟨⟨hl, hopen⟩ | ⟨rfl, hcall, hm, hopen⟩, hlevel⟩ | ⟨hcall, hm⟩)
    · refine .initial hl fun part hpart => ?_
      rcases List.prefix_concat_iff.1 hpart with rfl | hpart
      · exact hlevel
      · exact hopen part hpart
    · refine .call (List.append_assoc ..) hcall hm fun part hpart => ?_
      rcases List.prefix_concat_iff.1 hpart with rfl | hpart
      · simp only [opened_append, closed_append, opened_cons_of_call hcall,
          closed_cons_of_call hcall] at hlevel ⊢
        omega
      · exact hopen part hpart
    · refine .call rfl hcall hm fun part hpart => ?_
      rw [List.prefix_nil.1 hpart]
      exact Nat.le_refl 0

theorem openEntry_nil : OpenEntry stack [] m l ↔ stack[m]? = some l := by
  constructor
  · rintro (⟨hl, -⟩ | ⟨hwalk, -, -, -⟩)
    · exact hl
    · simp at hwalk
  · intro hl
    refine .initial hl fun part hpart => ?_
    obtain ⟨hlt, -⟩ := List.getElem?_eq_some_iff.1 hl
    rw [List.prefix_nil.1 hpart]
    simpa using hlt

theorem wellBracketed_nil : WellBracketed stack [] where
  closed_le := by
    intro part hpart
    rw [List.prefix_nil.1 hpart]
    exact Nat.zero_le _
  returns := by
    intro before edge after hwalk
    simp at hwalk

theorem wellBracketed_concat : WellBracketed stack (walk ++ [edge]) ↔
    WellBracketed stack walk ∧
      (edge.operation = .return → TopEntry stack walk edge.destination) := by
  constructor
  · intro h
    refine ⟨⟨fun part hpart => ?_, fun before call after hwalk hret => ?_⟩, fun hret => ?_⟩
    · exact h.closed_le part (hpart.trans (List.prefix_append walk [edge]))
    · exact h.returns before call (after ++ [edge]) (by simp [hwalk]) hret
    · exact h.returns walk edge [] rfl hret
  · rintro ⟨h, htop⟩
    refine ⟨fun part hpart => ?_, fun before call after hwalk hret => ?_⟩
    · rcases List.prefix_concat_iff.1 hpart with rfl | hpart
      · have hle := h.closed_le walk List.prefix_rfl
        rw [opened_append, closed_append]
        by_cases hret : edge.operation = .return
        · obtain ⟨m, hm, -⟩ := htop hret
          rw [closed_of_return hret]
          omega
        · rw [closed_of_ne_return hret]
          omega
      · exact h.closed_le part hpart
    · rcases concat_eq_append_cons hwalk with ⟨rfl, rfl, -⟩ | ⟨rest, rfl, -⟩
      · exact htop hret
      · exact h.returns before call rest rfl hret

end Walk

/-! ### Walks -/

/-- The state behind the edges of a walk, if no edge is blocked. -/
def State.follow (tracked : Tracked) (s : State) : List Edge → Option State
  | [] => some s
  | edge :: rest =>
    if edge.source = s.location then (edge.step tracked s).bind fun t => t.follow tracked rest
    else none

theorem State.follow_append (s : State) (walk rest : List Edge) :
    s.follow tracked (walk ++ rest) = (s.follow tracked walk).bind (·.follow tracked rest) := by
  induction walk generalizing s with
  | nil => rfl
  | cons edge walk ih =>
    rw [List.cons_append, follow, follow]
    split
    · simp only [ih, Option.bind_assoc]
    · rfl

theorem State.follow_concat : s.follow tracked (walk ++ [edge]) = some s' ↔
    ∃ t, s.follow tracked walk = some t ∧ edge.source = t.location ∧
      edge.step tracked t = some s' := by
  simp [follow_append, follow, Option.bind_eq_some_iff]

namespace Program

theorem mem_advance_iff {states : List State} : t ∈ program.advance tracked states ↔
    ∃ s ∈ states, ∃ edge ∈ program, edge.source = s.location ∧ edge.step tracked s = some t := by
  simp [advance, successors, edgesFrom, and_assoc]

theorem mem_round_iff {states : List State} : t ∈ program.round tracked n states ↔
    ∃ s ∈ states, ∃ walk, walk.length = n ∧ (∀ edge ∈ walk, edge ∈ program) ∧
      s.follow tracked walk = some t := by
  induction n generalizing states with
  | zero => simp [round, State.follow, eq_comm]
  | succ n ih =>
    rw [round, ih]
    constructor
    · rintro ⟨s', hs', walk, hlength, hwalk, hfollow⟩
      obtain ⟨s, hs, edge, hedge, hsource, hstep⟩ := mem_advance_iff.1 hs'
      refine ⟨s, hs, edge :: walk, congrArg (· + 1) hlength, ?_, ?_⟩
      · exact List.forall_mem_cons.2 ⟨hedge, hwalk⟩
      · rw [State.follow, if_pos hsource, hstep, Option.bind_some, hfollow]
    · rintro ⟨s, hs, walk, hlength, hwalk, hfollow⟩
      cases walk with
      | nil => cases hlength
      | cons edge walk =>
        obtain ⟨hedge, hwalk⟩ := List.forall_mem_cons.1 hwalk
        rw [State.follow] at hfollow
        split at hfollow
        · rename_i hsource
          obtain ⟨s', hstep, hfollow⟩ := Option.bind_eq_some_iff.1 hfollow
          have hs' := mem_advance_iff.2 ⟨s, hs, edge, hedge, hsource, hstep⟩
          exact ⟨s', hs', walk, Nat.succ.inj hlength, hwalk, hfollow⟩
        · cases hfollow

end Program

namespace Walk

theorem length_restack (h : edge.operation = .return → stack ≠ []) :
    (edge.operation.restack stack).length + closed [edge] = stack.length + opened [edge] := by
  cases ho : edge.operation with
  | «return» =>
    have hpos := List.length_pos_iff.2 (h ho)
    simp [Operation.restack, closed, opened, ho]
    omega
  | _ => simp [Operation.restack, closed, opened, ho]

theorem getElem?_restack : (edge.operation.restack stack)[m]? = some l ↔
    (stack[m]? = some l ∧ m < (edge.operation.restack stack).length) ∨
      (edge.operation = .call l ∧ m = stack.length) := by
  have hlt : stack[m]? = some l → m < stack.length := fun h => (List.getElem?_eq_some_iff.1 h).1
  cases ho : edge.operation with
  | call returnTo =>
    simp only [Operation.restack, List.getElem?_append, List.length_append, List.length_singleton]
    grind
  | «return» => simp [Operation.restack, List.getElem?_dropLast, and_comm]
  | _ => simpa [Operation.restack] using hlt

theorem stack_of_follow (h : s.follow tracked walk = some t) :
    t.stack.length + closed walk = s.stack.length + opened walk ∧
      ∀ m l, t.stack[m]? = some l ↔ OpenEntry s.stack walk m l := by
  induction walk using List.reverseRecOn generalizing t with
  | nil =>
    cases h
    exact ⟨rfl, fun m l => openEntry_nil.symm⟩
  | append_singleton walk edge ih =>
    obtain ⟨t, ht, -, hstep⟩ := State.follow_concat.1 h
    obtain ⟨hlength, hentries⟩ := ih ht
    obtain ⟨hret, u, -, rfl⟩ := Edge.step_eq_some.1 hstep
    have hnext : (edge.operation.restack t.stack).length + closed [edge] =
        t.stack.length + opened [edge] := by
      refine length_restack fun ho hnil => ?_
      rw [hnil] at hret
      cases hret ho
    refine ⟨?_, fun m l => ?_⟩
    · rw [opened_append, closed_append]
      change (edge.operation.restack t.stack).length + _ = _
      omega
    · rw [openEntry_concat, ← hentries, opened_append, closed_append]
      refine getElem?_restack.trans (or_congr ?_ ?_) <;> refine and_congr_right fun _ => ?_
      · omega
      · omega

theorem topEntry_iff (h : s.follow tracked walk = some t) :
    TopEntry s.stack walk l ↔ t.stack.getLast? = some l := by
  obtain ⟨hlength, hentries⟩ := stack_of_follow h
  rw [TopEntry, List.getLast?_eq_getElem?]
  constructor
  · rintro ⟨m, hm, hentry⟩
    have hlast : t.stack.length - 1 = m := by omega
    rw [hlast]
    exact (hentries m l).2 hentry
  · intro hlast
    obtain ⟨hlt, -⟩ := List.getElem?_eq_some_iff.1 hlast
    exact ⟨t.stack.length - 1, by omega, (hentries _ l).1 hlast⟩

theorem follow_unbracketed (h : s.follow tracked walk = some t) :
    s.follow tracked (walk.map Edge.unbracketed) = some { t with stack := s.stack } := by
  induction walk using List.reverseRecOn generalizing t with
  | nil =>
    cases h
    rfl
  | append_singleton walk edge ih =>
    obtain ⟨t, ht, hsource, hstep⟩ := State.follow_concat.1 h
    obtain ⟨-, u, hu, rfl⟩ := Edge.step_eq_some.1 hstep
    rw [List.map_append, List.map_singleton, State.follow_concat]
    refine ⟨_, ih ht, hsource, ?_⟩
    rw [Edge.step_unbracketed, hu]
    rfl

theorem wellBracketed_of_follow (h : s.follow tracked walk = some t) :
    WellBracketed s.stack walk := by
  induction walk using List.reverseRecOn generalizing t with
  | nil => exact wellBracketed_nil
  | append_singleton walk edge ih =>
    obtain ⟨t, ht, -, hstep⟩ := State.follow_concat.1 h
    obtain ⟨hret, -⟩ := Edge.step_eq_some.1 hstep
    exact wellBracketed_concat.2 ⟨ih ht, fun ho => (topEntry_iff ht).2 (hret ho)⟩

theorem exists_follow (h : s.follow tracked (walk.map Edge.unbracketed) = some u)
    (hwalk : WellBracketed s.stack walk) : ∃ t, s.follow tracked walk = some t := by
  induction walk using List.reverseRecOn generalizing u with
  | nil => exact ⟨s, rfl⟩
  | append_singleton walk edge ih =>
    obtain ⟨hwalk, htop⟩ := wellBracketed_concat.1 hwalk
    rw [List.map_append, List.map_singleton] at h
    obtain ⟨v, hv, hsource, hstep⟩ := State.follow_concat.1 h
    obtain ⟨t, ht⟩ := ih hv hwalk
    cases Option.some.inj (hv.symm.trans (follow_unbracketed ht))
    rw [Edge.step_unbracketed] at hstep
    obtain ⟨w, hw, -⟩ := Option.map_eq_some_iff.1 hstep
    have hstep' := Edge.step_eq_some.2 ⟨fun ho => (topEntry_iff ht).1 (htop ho), w, hw, rfl⟩
    exact ⟨_, State.follow_concat.2 ⟨t, ht, hsource, hstep'⟩⟩

/-- The rounds of successors follow the feasible walks whose brackets match, and no others. -/
theorem rounds_follow_bracketed_walks (program : Program) (tracked : Tracked) (s : State) :
    (∀ n t, t ∈ program.round tracked n [s] ↔
      ∃ walk, walk.length = n ∧ (∀ edge ∈ walk, edge ∈ program) ∧
        s.follow tracked walk = some t) ∧
    (∀ walk, (∃ t, s.follow tracked walk = some t) ↔
      (∃ u, s.follow tracked (walk.map Edge.unbracketed) = some u) ∧ WellBracketed s.stack walk) ∧
    ∀ walk t, s.follow tracked walk = some t →
      t.stack.length + closed walk = s.stack.length + opened walk ∧
        ∀ m l, t.stack[m]? = some l ↔ OpenEntry s.stack walk m l := by
  refine ⟨fun n t => ?_, fun walk => ⟨?_, ?_⟩, fun walk t => stack_of_follow⟩
  · rw [Program.mem_round_iff]
    simp
  · rintro ⟨t, ht⟩
    exact ⟨⟨_, follow_unbracketed ht⟩, wellBracketed_of_follow ht⟩
  · rintro ⟨⟨u, hu⟩, hwalk⟩
    exact exists_follow hu hwalk

end Walk

namespace NestedCalls

def start : State := { location := 1, stack := [7] }

def nested : List Edge :=
  [⟨1, .call 2, 10⟩, ⟨10, .call 11, 10⟩, ⟨10, .skip, 12⟩, ⟨12, .return, 11⟩, ⟨11, .skip, 12⟩,
    ⟨12, .return, 2⟩, ⟨2, .skip, 12⟩, ⟨12, .return, 7⟩]

def crossing : List Edge :=
  [⟨1, .call 2, 10⟩, ⟨10, .call 11, 10⟩, ⟨10, .skip, 12⟩, ⟨12, .return, 2⟩]

theorem nested_calls_bracketed :
    Walk.WellBracketed start.stack nested ∧ ¬ Walk.WellBracketed start.stack crossing := by
  obtain ⟨-, hfollow, -⟩ := Walk.rounds_follow_bracketed_walks nested ∅ start
  refine ⟨((hfollow nested).1 (Option.isSome_iff_exists.1 (by decide +kernel))).2, fun h => ?_⟩
  have hfeasible : (start.follow ∅ (crossing.map Edge.unbracketed)).isSome = true := by
    decide +kernel
  obtain ⟨t, ht⟩ := (hfollow crossing).2 ⟨Option.isSome_iff_exists.1 hfeasible, h⟩
  have hblocked : start.follow ∅ crossing = none := by decide +kernel
  rw [hblocked] at ht
  cases ht

end NestedCalls

end Blockwise
