import Blockwise.Context.Basic
import Blockwise.Proofs.Edges
import Mathlib.Data.List.Infix
import Mathlib.Data.Set.Finite.Lattice
import Mathlib.Data.Set.Finite.List

/-!
The states that a program without calls can come to, in whatever blocks it is analysed: locations,
values and return locations are taken from the start or from the edges, so there are only finitely
many of them.
-/
namespace Blockwise

variable {program : Program} {start s : State} {tracked p : Tracked} {r : Reducer} {b : Block}

def Program.CallFree (program : Program) : Prop :=
  ∀ edge ∈ program, ∀ returnTo, edge.operation ≠ .call returnTo

structure Program.Bounds (program : Program) (start s : State) : Prop where
  location : s.location ∈ start.location :: program.map (·.destination)
  value : ∀ x v, s.value x = some v →
    start.value x = some v ∨ ∃ edge ∈ program, edge.operation = .assign x v
  stack : s.stack <+: start.stack

theorem finite_valuations {pairs : Set (Var × Int)} (h : pairs.Finite) :
    {m : Valuation | ∀ e ∈ m.entries, e ∈ pairs}.Finite := by
  refine Set.Finite.of_finite_image (f := fun m : Valuation => {e | e ∈ m.entries})
    (h.finite_subsets.subset ?_) fun m _ n _ hmn => SortedMap.ext fun x => Option.ext fun v => ?_
  · rintro _ ⟨m, hm, rfl⟩
    exact hm
  · rw [← SortedMap.mem_entries_iff, ← SortedMap.mem_entries_iff]
    exact Set.ext_iff.1 hmn (x, v)

namespace Program.Bounds

theorem refl (program : Program) (start : State) : program.Bounds start start where
  location := List.mem_cons_self ..
  value := fun _ _ h => Or.inl h
  stack := List.prefix_rfl

theorem step (hfree : program.CallFree) (h : program.Bounds start s) {edge : Edge}
    (he : edge ∈ program) {next : State} (hs : edge.step p s = some next) :
    program.Bounds start next := by
  have hlocation : edge.destination ∈ start.location :: program.map (·.destination) :=
    List.mem_cons_of_mem _ (List.mem_map_of_mem he)
  cases Edge.moves_of_step hs with
  | @assign x v ho =>
    refine ⟨hlocation, fun y w hw => ?_, h.stack⟩
    rw [State.value, get?_assigned] at hw
    split at hw
    · rename_i hxy
      split at hw
      · cases hw
        exact Or.inr ⟨edge, he, hxy ▸ ho⟩
      · cases hw
    · exact h.value y w hw
  | @call returnTo ho => exact absurd ho (hfree edge he returnTo)
  | «return» => exact ⟨hlocation, h.value, (List.dropLast_prefix _).trans h.stack⟩
  | assume | error | skip => exact ⟨hlocation, h.value, h.stack⟩

theorem successor (hfree : program.CallFree) (h : program.Bounds start s) {next : State}
    (hs : next ∈ program.successors s p) : program.Bounds start next := by
  obtain ⟨edge, he, hstep⟩ := List.mem_filterMap.1 hs
  exact h.step hfree (List.mem_filter.1 he).1 hstep

theorem reduceState (h : program.Bounds start s) (r : Reducer) (b : Block) :
    program.Bounds start (r.reduceState s b) where
  location := h.location
  value := by
    intro x v hx
    rw [Reducer.value_reduceState] at hx
    split at hx
    · exact h.value x v hx
    · cases hx
  stack := List.nil_prefix

theorem expand {caller exit : State} (h : program.Bounds start caller)
    (h' : program.Bounds start exit) (r : Reducer) (b : Block) :
    program.Bounds start (r.expand caller b exit) where
  location := h'.location
  value := by
    intro x v hx
    rw [Reducer.value_expand] at hx
    cases he : exit.value x with
    | some w => exact h'.value x v (by rw [he]; rwa [he] at hx)
    | none =>
      rw [he, Option.none_or] at hx
      split at hx
      · cases hx
      · exact h.value x v hx
  stack := h.stack

theorem finite (program : Program) (start : State) : {s | program.Bounds start s}.Finite := by
  have hpairs : {e : Var × Int | start.value e.1 = some e.2 ∨
      ∃ edge ∈ program, edge.operation = .assign e.1 e.2}.Finite := by
    refine ((List.finite_toSet start.values.entries).union
      (List.finite_toSet (program.filterMap fun edge => match edge.operation with
        | .assign x v => some (x, v)
        | _ => none))).subset ?_
    rintro ⟨x, v⟩ (hx | ⟨edge, he, hop⟩)
    · exact Or.inl (SortedMap.mem_entries_iff.2 hx)
    · exact Or.inr (List.mem_filterMap.2 ⟨edge, he, by rw [hop]⟩)
  have hproduct := ((List.finite_toSet (start.location :: program.map (·.destination))).prod
    ((finite_valuations hpairs).prod
      ((List.finite_toSet start.stack.inits).prod
        (Set.finite_univ : (Set.univ : Set Bool).Finite))))
  refine (hproduct.image fun q => (⟨q.1, q.2.1, q.2.2.1, q.2.2.2⟩ : State)).subset ?_
  intro s hs
  refine ⟨(s.location, s.values, s.stack, s.target),
    ⟨hs.location, fun e he => ?_, ?_, trivial⟩, rfl⟩
  · exact hs.value e.1 e.2 (SortedMap.mem_entries_iff.1 he)
  · exact (List.mem_inits _ _).2 hs.stack

end Program.Bounds

theorem Tracked.finite (tracked : Tracked) : {p : Tracked | ∀ x ∈ p, x ∈ tracked}.Finite := by
  refine Set.Finite.of_finite_image (f := fun p : Tracked => {x | x ∈ p})
    ((List.finite_toSet tracked.toList).finite_subsets.subset ?_)
    fun p _ q _ hpq => SortedSet.ext fun x => Set.ext_iff.1 hpq x
  rintro _ ⟨p, hp, rfl⟩
  exact hp

def Program.BoundedKey (program : Program) (start : State) (tracked : Tracked) (K : Key) : Prop :=
  program.Bounds start K.state ∧ (∀ x ∈ K.precision, x ∈ tracked) ∧ K.block = K.state.location

theorem Program.finite_boundedKey (program : Program) (start : State) (tracked : Tracked) :
    {K | program.BoundedKey start tracked K}.Finite := by
  refine (((Bounds.finite program start).prod tracked.finite).image
    fun q => (⟨q.1, q.2, q.1.location⟩ : Key)).subset ?_
  rintro ⟨state, precision, block⟩ ⟨hs, hp, hb⟩
  obtain rfl : block = state.location := hb
  exact ⟨(state, precision), ⟨hs, hp⟩, rfl⟩

end Blockwise
