import Blockwise.Proofs.Edges
import Mathlib.Data.List.Basic

/-!
Refining the precision only removes behaviour. Where fewer variables are tracked, a run can follow
every run of the finer precision round by round, in states that know a part of the values: it goes
along the same edges, and what it does not know blocks no assumption. So a target that is not
reached under a coarse precision is not reached under a finer one.
-/
namespace Blockwise

variable {coarse fine : Tracked} {edge : Edge} {program : Program} {s t t' u : State} {x : Var}
  {v : Int} {n : Nat}

/-- The values that `u` knows are values of `t`, and everything else is the same. -/
structure State.Abstracts (u t : State) : Prop where
  location : u.location = t.location
  stack : u.stack = t.stack
  target : u.target = t.target
  value : ∀ x v, u.value x = some v → t.value x = some v

namespace State.Abstracts

theorem refl (s : State) : s.Abstracts s := ⟨rfl, rfl, rfl, fun _ _ hx => hx⟩

theorem assign (h : u.Abstracts t) (hsub : x ∈ coarse → x ∈ fine) {y : Var} {w : Int}
    (hy : (if x ∈ coarse then u.values.insert x v else u.values.erase x).get? y = some w) :
    (if x ∈ fine then t.values.insert x v else t.values.erase x).get? y = some w := by
  rw [get?_assigned] at hy ⊢
  split at hy
  · rename_i hxy
    -- the coarse state knows the value of an assigned variable only if both track it
    split at hy
    · rename_i hc
      rw [if_pos hxy, if_pos (hsub hc), hy]
    · cases hy
  · rename_i hxy
    rw [if_neg hxy]
    exact h.value y w hy

theorem step (h : u.Abstracts t) (hsub : ∀ x ∈ coarse, x ∈ fine)
    (ht : edge.step fine t = some t') :
    ∃ u', edge.step coarse u = some u' ∧ u'.Abstracts t' := by
  cases Edge.moves_of_step ht with
  | assign ho =>
    refine ⟨_, (Edge.Moves.assign ho).step_eq, rfl, h.stack, h.target, ?_⟩
    exact fun y w hy => h.assign (hsub _) hy
  | assume ho hpass =>
    -- what the coarse state knows decides alike, and what it does not know blocks nothing
    refine ⟨_, (Edge.Moves.assume ho ?_).step_eq, rfl, h.stack, h.target, h.value⟩
    exact fun w hw => hpass w (h.value _ w hw)
  | @call returnTo ho =>
    have hstack : u.stack ++ [returnTo] = t.stack ++ [returnTo] := by rw [h.stack]
    exact ⟨_, (Edge.Moves.call ho).step_eq, rfl, hstack, h.target, h.value⟩
  | «return» ho hlast =>
    have hstack : u.stack.dropLast = t.stack.dropLast := by rw [h.stack]
    rw [← h.stack] at hlast
    exact ⟨_, (Edge.Moves.return ho hlast).step_eq, rfl, hstack, h.target, h.value⟩
  | error ho => exact ⟨_, (Edge.Moves.error ho).step_eq, rfl, h.stack, rfl, h.value⟩
  | skip ho => exact ⟨_, (Edge.Moves.skip ho).step_eq, rfl, h.stack, h.target, h.value⟩

theorem successor (h : u.Abstracts t) (hsub : ∀ x ∈ coarse, x ∈ fine)
    (ht : t' ∈ program.successors t fine) :
    ∃ u' ∈ program.successors u coarse, u'.Abstracts t' := by
  obtain ⟨edge, hedge, hstep⟩ := List.mem_filterMap.1 ht
  obtain ⟨u', hstep', hu'⟩ := h.step hsub hstep
  refine ⟨u', List.mem_filterMap.2 ⟨edge, ?_, hstep'⟩, hu'⟩
  rw [h.location]
  exact hedge

end State.Abstracts

def Abstracted (coarse fine : List State) : Prop := ∀ t ∈ fine, ∃ u ∈ coarse, u.Abstracts t

theorem Abstracted.advance {us ts : List State} (h : Abstracted us ts)
    (hsub : ∀ x ∈ coarse, x ∈ fine) :
    Abstracted (program.advance coarse us) (program.advance fine ts) := by
  intro t' ht'
  obtain ⟨t, ht, hnext⟩ := List.mem_flatMap.1 ht'
  obtain ⟨u, hu, hut⟩ := h t ht
  obtain ⟨u', hu', hut'⟩ := hut.successor hsub hnext
  exact ⟨u', List.mem_flatMap.2 ⟨u, hu, hu'⟩, hut'⟩

theorem Abstracted.round {us ts : List State} (h : Abstracted us ts)
    (hsub : ∀ x ∈ coarse, x ∈ fine) (n : Nat) :
    Abstracted (program.round coarse n us) (program.round fine n ts) := by
  induction n generalizing us ts with
  | zero => exact h
  | succ n ih => exact ih (h.advance hsub)

def Program.Reaches (program : Program) (tracked : Tracked) (s : State) (location : Location) :
    Prop :=
  ∃ n, ∃ t ∈ program.round tracked n [s], t.target = true ∧ t.location = location

theorem refinement_removes_behaviour (program : Program) (s : State)
    (hsub : ∀ x ∈ coarse, x ∈ fine) :
    (∀ n, ∀ t ∈ program.round fine n [s], ∃ u ∈ program.round coarse n [s],
      u.location = t.location ∧ u.stack = t.stack ∧ u.target = t.target ∧
        ∀ x v, u.value x = some v → t.value x = some v) ∧
    ∀ location, ¬ program.Reaches coarse s location → ¬ program.Reaches fine s location := by
  have hstart : Abstracted [s] [s] := fun t ht => ⟨t, ht, .refl t⟩
  have hround : ∀ n, Abstracted (program.round coarse n [s]) (program.round fine n [s]) :=
    fun n => hstart.round hsub n
  constructor
  · intro n t ht
    obtain ⟨u, hu, hut⟩ := hround n t ht
    exact ⟨u, hu, hut.location, hut.stack, hut.target, hut.value⟩
  · intro location hno hreach
    obtain ⟨n, t, ht, htarget, hlocation⟩ := hreach
    obtain ⟨u, hu, hut⟩ := hround n t ht
    apply hno
    exact ⟨n, u, hu, hut.target.trans htarget, hut.location.trans hlocation⟩

namespace ForgottenValue

def edges : Program :=
  [⟨0, .assign "x" 1, 1⟩, ⟨1, .assign "y" 2, 2⟩, ⟨2, .assume "y" 3 true, 3⟩,
    ⟨2, .assume "x" 1 true, 4⟩, ⟨3, .error, 5⟩]

def onlyX : Tracked := .ofList ["x"]

def both : Tracked := .ofList ["x", "y"]

theorem forgotten_value_refined :
    (∀ x ∈ onlyX, x ∈ both) ∧
    (edges.round onlyX 3 [⟨0, ∅, [], false⟩]).map (·.location) = [3, 4] ∧
    (edges.round both 3 [⟨0, ∅, [], false⟩]).map (·.location) = [4] ∧
    (∀ n, ∀ t ∈ edges.round both n [⟨0, ∅, [], false⟩],
      ∃ u ∈ edges.round onlyX n [⟨0, ∅, [], false⟩],
        u.location = t.location ∧ u.stack = t.stack ∧ u.target = t.target ∧
          ∀ x v, u.value x = some v → t.value x = some v) ∧
    ∀ location, ¬ edges.Reaches onlyX ⟨0, ∅, [], false⟩ location →
      ¬ edges.Reaches both ⟨0, ∅, [], false⟩ location :=
  have hsub : ∀ x ∈ onlyX, x ∈ both := by decide +kernel
  ⟨hsub, by decide +kernel, by decide +kernel, refinement_removes_behaviour edges _ hsub⟩

end ForgottenValue

end Blockwise
