import Blockwise.Proofs.Edges
import Blockwise.Value.Reducer
import Mathlib.Data.List.Basic
import Mathlib.Data.Set.Basic

/-!
How the state of a node in a block shows a state of the whole program. Of the values it has those of
the variables in scope, and of the stack the part above the call of the block. Steps along edges
that use only variables in scope correspond to each other, and so do reduction at a call node and
expansion at an exit.
-/
namespace Blockwise

variable {scope : Set Var} {base : List Location} {tracked p : Tracked} {edge : Edge}
  {program : Program} {f g g' m m' mx : State} {b : Block} {r : Reducer} {x : Var}

/-- The state `m` shows `g`. The stack of a target does not matter. -/
structure State.Shows (scope : Set Var) (base : List Location) (g m : State) : Prop where
  location : m.location = g.location
  target : m.target = g.target
  value : ∀ x ∈ scope, m.value x = g.value x
  hidden : ∀ x, x ∉ scope → m.value x = none
  stack : g.target = false → g.stack = base ++ m.stack

open State (Shows)

/-! ### Steps -/

namespace State.Shows

section

variable (h : Shows scope base g m)

include h

theorem moved {l : Location} {stack stack' : List Location} (hs : stack = base ++ stack') :
    Shows scope base { g with location := l, stack } { m with location := l, stack := stack' } :=
  ⟨rfl, h.target, h.value, h.hidden, fun _ => hs⟩

end

variable (h : Shows scope base g m) (hg : g.target = false)

include h hg

theorem getLast?_stack (hne : m.stack ≠ []) : g.stack.getLast? = m.stack.getLast? := by
  rw [h.stack hg, List.getLast?_append_of_ne_nil base hne]

theorem length_dropLast_stack_lt {l : Location} (hnil : m.stack = [])
    (hlast : g.stack.getLast? = some l) : g.stack.dropLast.length < base.length := by
  have hbase : g.stack = base := by rw [h.stack hg, hnil, List.append_nil]
  have hne : g.stack ≠ [] := by
    intro hno
    rw [hno] at hlast
    cases hlast
  rw [List.length_dropLast, ← hbase]
  exact Nat.sub_one_lt (mt List.length_eq_zero_iff.1 hne)

variable (htracked : ∀ x ∈ scope, x ∈ p ↔ x ∈ tracked)

include htracked

theorem step (hvar : ∀ x, edge.operation.variable? = some x → x ∈ scope)
    (hbase : ∀ g', edge.step tracked g = some g' → base.length ≤ g'.stack.length) :
    Option.Rel (Shows scope base) (edge.step tracked g) (edge.step p m) := by
  have hstack := h.stack hg
  unfold Edge.step at hbase ⊢
  cases ho : edge.operation with
  | assign y v =>
    have hy : y ∈ scope := hvar y (by rw [ho]; rfl)
    refine .some ⟨rfl, h.target, fun x hx => ?_, fun x hx => ?_, fun _ => hstack⟩
    · have hvx : m.values.get? x = g.values.get? x := h.value x hx
      simp only [State.value, get?_assigned, htracked y hy, hvx]
    · have hyx : y ≠ x := by
        rintro rfl
        exact hx hy
      rw [State.value, get?_assigned, if_neg hyx]
      exact h.hidden x hx
  | assume y v equal =>
    have hvy := h.value y (hvar y (by rw [ho]; rfl))
    simp only [hvy]
    cases g.value y with
    | none => exact .some (h.moved hstack)
    | some current =>
      by_cases hpass : current = v ↔ equal = true
      · simp only [hpass, if_true]
        exact .some (h.moved hstack)
      · simp only [hpass, if_false]
        exact .none
  | call returnTo => exact .some (h.moved (by rw [hstack, List.append_assoc]))
  | «return» =>
    by_cases hne : m.stack = []
    · have hno : g.stack.getLast? ≠ some edge.destination := by
        intro hlast
        have hle := hbase { g with location := edge.destination, stack := g.stack.dropLast }
          (by simp [ho, hlast])
        exact Nat.not_le.2 (h.length_dropLast_stack_lt hg hne hlast) hle
      simp only [hne, hno, List.getLast?_nil, if_false]
      exact .none
    · simp only [h.getLast?_stack hg hne]
      split
      · refine .some (h.moved ?_)
        rw [hstack, List.dropLast_append_of_ne_nil hne]
      · exact .none
  | error => exact .some ⟨rfl, rfl, h.value, h.hidden, fun _ => hstack⟩
  | skip => exact .some (h.moved hstack)

variable
  (hvar : ∀ edge ∈ program.edgesFrom g.location, ∀ x, edge.operation.variable? = some x → x ∈ scope)
  (hbase : ∀ g' ∈ program.successors g tracked, base.length ≤ g'.stack.length)

include hvar hbase

theorem edge_step (he : edge ∈ program.edgesFrom g.location) :
    Option.Rel (Shows scope base) (edge.step tracked g) (edge.step p m) :=
  h.step hg htracked (hvar edge he) fun g' hs =>
    hbase g' (List.mem_filterMap.2 ⟨edge, he, hs⟩)

theorem successor_of_shown (hm' : m' ∈ program.successors m p) :
    ∃ g' ∈ program.successors g tracked, Shows scope base g' m' := by
  obtain ⟨edge, he, hs⟩ := List.mem_filterMap.1 hm'
  rw [h.location] at he
  have hrel := h.edge_step hg htracked hvar hbase he
  rw [hs] at hrel
  cases hg' : edge.step tracked g with
  | none =>
    rw [hg'] at hrel
    cases hrel
  | some g' =>
    rw [hg'] at hrel
    cases hrel with
    | some hshow => exact ⟨g', List.mem_filterMap.2 ⟨edge, he, hg'⟩, hshow⟩

theorem shown_of_successor (hg' : g' ∈ program.successors g tracked) :
    ∃ m' ∈ program.successors m p, Shows scope base g' m' := by
  obtain ⟨edge, he, hs⟩ := List.mem_filterMap.1 hg'
  have hrel := h.edge_step hg htracked hvar hbase he
  rw [hs] at hrel
  cases hm' : edge.step p m with
  | none =>
    rw [hm'] at hrel
    cases hrel
  | some m' =>
    rw [hm'] at hrel
    cases hrel with
    | some hshow =>
      refine ⟨m', List.mem_filterMap.2 ⟨edge, ?_, hm'⟩, hshow⟩
      rwa [h.location]

end State.Shows

/-! ### Calls and exits -/

namespace State.Shows

theorem reduce (h : Shows scope base g m) :
    Shows (scope ∩ {x | x ∈ r.usedIn b}) g.stack g (r.reduceState m b) where
  location := h.location
  target := h.target
  value := by
    rintro x ⟨hx, hxb⟩
    have hxb : x ∈ r.usedIn b := hxb
    rw [Reducer.value_reduceState, if_pos hxb, h.value x hx]
  hidden := by
    intro x hx
    rw [Reducer.value_reduceState]
    split
    · rename_i hxb
      exact h.hidden x fun hxs => hx ⟨hxs, hxb⟩
    · rfl
  stack := fun _ => (List.append_nil _).symm

theorem expand (h : Shows scope base f m) (hf : f.target = false)
    (hx : Shows (scope ∩ {x | x ∈ r.usedIn b}) f.stack g mx)
    (hkeep : ∀ x, x ∉ r.usedIn b → g.value x = f.value x)
    (hstack : g.target = false → g.stack = f.stack) :
    Shows scope base g (r.expand m b mx) where
  location := hx.location
  target := hx.target
  value := by
    intro x hxs
    rw [Reducer.value_expand]
    by_cases hxb : x ∈ r.usedIn b
    · rw [if_pos hxb, hx.value x ⟨hxs, hxb⟩, Option.or_none]
    · rw [if_neg hxb, hx.hidden x fun h => hxb h.2, Option.none_or, h.value x hxs, hkeep x hxb]
  hidden := by
    intro x hxs
    rw [Reducer.value_expand, hx.hidden x fun h => hxs h.1, h.hidden x hxs, ite_self,
      Option.none_or]
  stack := by
    intro hg
    rw [hstack hg, h.stack hf]
    rfl

end State.Shows

end Blockwise
