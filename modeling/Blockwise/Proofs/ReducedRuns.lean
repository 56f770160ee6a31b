import Blockwise.Proofs.Flat.Shown
import Blockwise.Proofs.Reduction
import Blockwise.Proofs.StackDiscipline

/-!
Runs inside a block. As long as no state leaves the stack of the caller and all edges use variables
of the block, the caller's run is the expansion of the run of the reduced state: the same states in
the same order, with what the block does not know taken from the caller.
-/
namespace Blockwise

def Operation.movesStack : Operation → Bool
  | .call _ | .return => true
  | .assign .. | .assume .. | .error | .skip => false

namespace Program

/-- The state takes no call and no return, and the edges from its location use only the variables in
`used`. -/
def Local (program : Program) (tracked : Tracked) (used : SortedSet Var) (s : State) : Prop :=
  ∀ edge ∈ program.edgesFrom s.location,
    (edge.operation.movesStack = true → edge.step tracked s = none) ∧
      ∀ x ∈ edge.operation.variable?, x ∈ used

instance decidableLocal (program : Program) (tracked : Tracked) (used : SortedSet Var)
    (s : State) : Decidable (program.Local tracked used s) :=
  inferInstanceAs (Decidable (∀ edge ∈ program.edgesFrom s.location, _ ∧ _))

theorem round_succ (program : Program) (tracked : Tracked) (n : Nat) (states : List State) :
    program.round tracked (n + 1) states =
      program.advance tracked (program.round tracked n states) := by
  induction n generalizing states with
  | zero => rfl
  | succ n ih => exact ih (program.advance tracked states)

end Program

variable {tracked : Tracked} {program : Program} {edge : Edge} {r : Reducer} {b : Block}
  {caller s s' : State} {x : Var} {v : Int} {n : Nat}

namespace Reducer

theorem values_expand_insert (r : Reducer) (caller : State) (b : Block) (s : State) (x : Var)
    (v : Int) : (r.expand caller b { s with values := s.values.insert x v }).values =
      (r.expand caller b s).values.insert x v := by
  ext y : 1
  by_cases hxy : x = y <;> simp [expand, hxy]

theorem values_expand_erase (hx : x ∈ r.usedIn b) :
    (r.expand caller b { s with values := s.values.erase x }).values =
      (r.expand caller b s).values.erase x := by
  ext y : 1
  by_cases hxy : y = x
  · subst hxy
    simp [expand, hx]
  · simp [expand, hxy]

end Reducer

theorem Edge.step_expand (hstack : s.stack = [])
    (hstays : edge.operation.movesStack = true → edge.step tracked (r.expand caller b s) = none)
    (huses : ∀ x ∈ edge.operation.variable?, x ∈ r.usedIn b) :
    edge.step tracked (r.expand caller b s) =
      (edge.step (r.reducePrecision tracked b) s).map (r.expand caller b) := by
  cases ho : edge.operation with
  | assign x v =>
    have hx : x ∈ r.usedIn b := huses x (by rw [ho]; rfl)
    by_cases ht : x ∈ tracked
    · have hp : x ∈ r.reducePrecision tracked b := Reducer.mem_reducePrecision.2 ⟨ht, hx⟩
      simp only [Edge.step, ho, ht, hp, if_true, Option.map_some, ← Reducer.values_expand_insert]
      rfl
    · have hp : x ∉ r.reducePrecision tracked b := fun h => ht (Reducer.mem_reducePrecision.1 h).1
      simp only [Edge.step, ho, ht, hp, if_false, Option.map_some, ← Reducer.values_expand_erase hx]
      rfl
  | assume x v equal =>
    have hx : x ∈ r.usedIn b := huses x (by rw [ho]; rfl)
    simp only [Edge.step, ho, Reducer.value_expand_of_mem hx]
    cases s.value x with
    | none => rfl
    | some current =>
      by_cases hpass : current = v ↔ equal = true
      · simp only [hpass, if_true]
        rfl
      · simp only [hpass, if_false]
        rfl
  | call returnTo =>
    have hno := hstays (by rw [ho]; rfl)
    simp [Edge.step, ho] at hno
  | «return» =>
    rw [hstays (by rw [ho]; rfl)]
    simp [Edge.step, ho, hstack]
  | error =>
    simp only [Edge.step, ho]
    rfl
  | skip =>
    simp only [Edge.step, ho]
    rfl

theorem Edge.stack_step (hs : edge.step tracked s = some s')
    (hstays : edge.operation.movesStack = false) : s'.stack = s.stack := by
  obtain ⟨-, u, -, rfl⟩ := Edge.step_eq_some.1 hs
  cases ho : edge.operation with
  | call | «return» =>
    rw [ho] at hstays
    cases hstays
  | assign | assume | error | skip => rfl

namespace Program

section

variable (hstack : s.stack = []) (hlocal : program.Local tracked (r.usedIn b) (r.expand caller b s))

include hstack hlocal

theorem successors_expand : program.successors (r.expand caller b s) tracked =
    (program.successors s (r.reducePrecision tracked b)).map (r.expand caller b) := by
  rw [successors, successors, List.map_filterMap]
  refine List.filterMap_congr fun edge he => ?_
  obtain ⟨hstays, huses⟩ := hlocal edge he
  exact Edge.step_expand hstack hstays huses

theorem stack_of_mem_successors (hs' : s' ∈ program.successors s (r.reducePrecision tracked b)) :
    s'.stack = [] := by
  obtain ⟨edge, he, hstep⟩ := List.mem_filterMap.1 hs'
  obtain ⟨hstays, huses⟩ := hlocal edge he
  have hmap := Edge.step_expand hstack hstays huses
  rw [hstep, Option.map_some] at hmap
  cases hmoves : edge.operation.movesStack with
  | true =>
    rw [hstays hmoves] at hmap
    cases hmap
  | false => rw [Edge.stack_step hstep hmoves, hstack]

end

end Program

/-- A run in which all states are local to the block is the expansion of the run of the reduced
state. -/
theorem rounds_of_reduced (program : Program) (r : Reducer) (b : Block) (caller : State)
    (tracked : Tracked) (n : Nat)
    (hlocal : ∀ i < n, ∀ s ∈ program.round tracked i [caller],
      program.Local tracked (r.usedIn b) s) :
    program.round tracked n [caller] =
      (program.round (r.reducePrecision tracked b) n [r.reduceState caller b]).map
        (r.expand caller b) := by
  -- the stacks of the reduced states stay empty, so their returns are blocked throughout
  suffices h : program.round tracked n [caller] =
        (program.round (r.reducePrecision tracked b) n [r.reduceState caller b]).map
          (r.expand caller b) ∧
      ∀ s ∈ program.round (r.reducePrecision tracked b) n [r.reduceState caller b], s.stack = []
    from h.1
  induction n with
  | zero =>
    refine ⟨?_, fun s hs => ?_⟩
    · rw [Program.round, Program.round, List.map_singleton, r.expand_reduceState]
    · rw [List.mem_singleton.1 hs]
      rfl
  | succ n ih =>
    obtain ⟨hround, hstack⟩ := ih fun i hi => hlocal i (Nat.lt_succ_of_lt hi)
    have hlast := hlocal n (Nat.lt_succ_self n)
    rw [hround] at hlast
    have hnow : ∀ s ∈ program.round (r.reducePrecision tracked b) n [r.reduceState caller b],
        program.Local tracked (r.usedIn b) (r.expand caller b s) :=
      fun s hs => hlast _ (List.mem_map_of_mem hs)
    rw [Program.round_succ, Program.round_succ, hround]
    constructor
    · rw [Program.advance, Program.advance, List.flatMap_map, List.map_flatMap]
      exact List.flatMap_congr fun s hs => Program.successors_expand (hstack s hs) (hnow s hs)
    · intro s' hs'
      obtain ⟨s, hs, hnext⟩ := List.mem_flatMap.1 hs'
      exact Program.stack_of_mem_successors (hstack s hs) (hnow s hs) hnext

namespace Branching

def edges : Program :=
  [⟨10, .assume "y" 1 true, 11⟩, ⟨10, .assign "y" 3, 11⟩, ⟨11, .assume "y" 3 false, 12⟩,
    ⟨11, .error, 12⟩, ⟨12, .return, 3⟩, ⟨12, .skip, 13⟩]

def block : Block := .of 10 [11] [12]

def reducer : Reducer := .ofList [(10, ["y"])]

def start : State := ⟨10, .ofList [("x", 0), ("y", 1)], [2], false⟩

def onlyX : Tracked := .ofList ["x"]

theorem branching_rounds_of_reduced :
    (∀ i < 3, ∀ s ∈ edges.round onlyX i [start],
      edges.Local onlyX (reducer.usedIn block) s) ∧
    (edges.round onlyX 3 [start]).map (fun s => (s.value "x", s.value "y", s.target)) =
      [(some 0, some 1, false), (some 0, some 1, true), (some 0, none, false),
        (some 0, none, true)] ∧
    edges.round onlyX 3 [start] =
      (edges.round (reducer.reducePrecision onlyX block) 3 [reducer.reduceState start block]).map
        (reducer.expand start block) :=
  have hlocal : ∀ i < 3, ∀ s ∈ edges.round onlyX i [start],
      edges.Local onlyX (reducer.usedIn block) s := by decide +kernel
  ⟨hlocal, by decide +kernel, rounds_of_reduced edges reducer block start onlyX 3 hlocal⟩

end Branching

end Blockwise
