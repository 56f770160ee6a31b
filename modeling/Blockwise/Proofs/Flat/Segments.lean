import Blockwise.Proofs.Flat.Shown
import Mathlib.Logic.Relation

/-!
Plain exploration, and the parts of it that belong to one call of a block. A segment starts at the
call node and ends at the next visit of a return node. What is shown of it in the block depends on
the blocks around, so the variables in scope are those that all open blocks use.
-/
namespace Blockwise

open Relation (ReflTransGen TransGen)
open State (Shows)

namespace Program

/-- One step of plain exploration. Targets are explored no further. -/
def Step (program : Program) (tracked : Tracked) (g h : State) : Prop :=
  g.target = false ∧ h ∈ program.successors g tracked

def Flat (program : Program) (tracked : Tracked) (start : State) : State → Prop :=
  ReflTransGen (program.Step tracked) start

end Program

/-- A part of plain exploration: it starts at `entry` and ends at the next location that is marked
by `stop`. -/
structure Frame where
  entry : State
  stop : Location → Bool
  /-- The stack below the part. -/
  base : List Location
  /-- The variables whose values are shown. -/
  scope : Set Var

namespace Frame

def whole (start : State) : Frame := ⟨start, fun _ => false, [], Set.univ⟩

def call (r : Reducer) (b : Block) (f : State) : Frame :=
  ⟨f, b.isReturnNode, f.stack, {x | x ∈ r.usedIn b}⟩

def enter (fr : Frame) (r : Reducer) (b : Block) (f : State) : Frame :=
  { call r b f with scope := fr.scope ∩ {x | x ∈ r.usedIn b} }

variable (program : Program) (tracked : Tracked) (fr : Frame)

def Stays (g h : State) : Prop := program.Step tracked g h ∧ fr.stop h.location = false

/-- The states of the segments before their ends. -/
def Within : State → Prop := ReflTransGen (fr.Stays program tracked) fr.entry

def Inside : State → Prop := TransGen (fr.Stays program tracked) fr.entry

def Closes (g : State) : Prop :=
  ∃ m, fr.Within program tracked m ∧ program.Step tracked m g ∧ fr.stop g.location = true

/-- Before the end the segments use only variables in scope, and the stack below is left alone. -/
structure Confined : Prop where
  uses : ∀ g, fr.Within program tracked g → g.target = false →
    ∀ edge ∈ program.edgesFrom g.location, ∀ x, edge.operation.variable? = some x → x ∈ fr.scope
  stack_le : ∀ g, fr.Within program tracked g → fr.base.length ≤ g.stack.length
  stack_eq : ∀ g, fr.Closes program tracked g → g.stack = fr.base

/-- A call that starts before the end comes to no location where the frame ends, unless it ends
there itself. -/
def Nests (partitioning : Partitioning) (r : Reducer) : Prop :=
  ∀ g b h, fr.Within program tracked g → partitioning.block? g.location = some b →
    (call r b g).Inside program tracked h → fr.stop h.location = false

section

variable {program tracked fr} {r : Reducer} {b : Block} {f g h : State}
  {partitioning : Partitioning}

theorem Within.step (hg : fr.Within program tracked g) (hs : program.Step tracked g h) :
    fr.Inside program tracked h ∨ fr.Closes program tracked h := by
  cases hstop : fr.stop h.location with
  | false => exact Or.inl (TransGen.tail' hg ⟨hs, hstop⟩)
  | true => exact Or.inr ⟨g, hg, hs, hstop⟩

theorem Inside.within (hg : fr.Inside program tracked g) : fr.Within program tracked g :=
  TransGen.to_reflTransGen hg

theorem Inside.stop (hg : fr.Inside program tracked g) : fr.stop g.location = false := by
  cases hg with
  | single hs => exact hs.2
  | tail _ hs => exact hs.2

theorem Within.flat {start : State} (hf : program.Flat tracked start fr.entry)
    (hg : fr.Within program tracked g) : program.Flat tracked start g :=
  hf.trans (ReflTransGen.mono (fun _ _ hs => hs.1) _ _ hg)

theorem Nests.within (hn : fr.Nests program tracked partitioning r)
    (hf : fr.Within program tracked f) (hb : partitioning.block? f.location = some b)
    (hg : (call r b f).Within program tracked g) : fr.Within program tracked g := by
  induction hg with
  | refl => exact hf
  | tail hm hs ih =>
    exact ih.tail ⟨hs.1, hn _ _ _ hf hb (TransGen.tail' hm hs)⟩

theorem Nests.reaches (hn : fr.Nests program tracked partitioning r)
    (hf : fr.Within program tracked f) (hb : partitioning.block? f.location = some b)
    (hg : (call r b f).Inside program tracked g ∨ (call r b f).Closes program tracked g) :
    fr.Inside program tracked g ∨ fr.Closes program tracked g := by
  rcases hg with hg | ⟨m, hm, hs, -⟩
  · obtain ⟨m, hm, hs⟩ := TransGen.tail'_iff.1 hg
    exact (hn.within hf hb hm).step hs.1
  · exact (hn.within hf hb hm).step hs

theorem Confined.enter (hc : fr.Confined program tracked)
    (hn : fr.Nests program tracked partitioning r) (hf : fr.Within program tracked f)
    (hb : partitioning.block? f.location = some b) (hcall : (call r b f).Confined program tracked) :
    (fr.enter r b f).Confined program tracked where
  uses := by
    intro g hg htarget edge he x hx
    exact ⟨hc.uses g (hn.within hf hb hg) htarget edge he x hx,
      hcall.uses g hg htarget edge he x hx⟩
  stack_le := hcall.stack_le
  stack_eq := hcall.stack_eq

theorem Confined.step (hc : fr.Confined program tracked) (hg : fr.Within program tracked g)
    (hs : program.Step tracked g h) : fr.base.length ≤ h.stack.length := by
  rcases hg.step hs with hh | hh
  · exact hc.stack_le h hh.within
  · rw [hc.stack_eq h hh]

theorem Confined.value_of_step (hc : fr.Confined program tracked)
    (hg : fr.Within program tracked g) (hs : program.Step tracked g h) {x : Var}
    (hx : x ∉ fr.scope) : h.value x = g.value x := by
  obtain ⟨htarget, hs⟩ := hs
  obtain ⟨edge, he, hstep⟩ := List.mem_filterMap.1 hs
  exact Edge.value_of_step hstep fun hvar => hx (hc.uses g hg htarget edge he x hvar)

theorem Confined.value_of_within (hc : fr.Confined program tracked)
    (hg : fr.Within program tracked g) {x : Var} (hx : x ∉ fr.scope) :
    g.value x = fr.entry.value x := by
  induction hg with
  | refl => rfl
  | tail hm hs ih => rw [hc.value_of_step hm hs.1 hx, ih]

theorem Confined.value_eq (hc : fr.Confined program tracked)
    (hg : fr.Inside program tracked g ∨ fr.Closes program tracked g) {x : Var}
    (hx : x ∉ fr.scope) : g.value x = fr.entry.value x := by
  rcases hg with hg | ⟨m, hm, hs, -⟩
  · exact hc.value_of_within hg.within hx
  · rw [hc.value_of_step hm hs hx, hc.value_of_within hm hx]

theorem confined_whole (start : State) : (whole start).Confined program tracked where
  uses := fun _ _ _ _ _ x _ => Set.mem_univ x
  stack_le := fun _ _ => Nat.zero_le _
  stack_eq := by
    rintro g ⟨m, -, -, hstop⟩
    cases hstop

theorem nests_whole (start : State) : (whole start).Nests program tracked partitioning r :=
  fun _ _ _ _ _ _ => rfl

theorem within_whole_iff {start : State} :
    (whole start).Within program tracked g ↔ program.Flat tracked start g := by
  have hentry : program.Flat tracked start (whole start).entry := .refl
  refine ⟨fun hg => hg.flat hentry, fun hg => ?_⟩
  exact ReflTransGen.mono (fun _ _ hs => ⟨hs, rfl⟩) _ _ hg

end

end Frame

end Blockwise
