import Blockwise.Proofs.Flat.Represents

/-!
Well-nestedness of a program whose plain exploration is finite. The states of a segment are
gathered, and where the list is closed under steps, what is to be known of the segment is checked on
the list.
-/
namespace Blockwise

open Relation (ReflTransGen TransGen)

variable {program : Program} {tracked : Tracked} {start : State} {partitioning : Partitioning}
  {r : Reducer} {fr : Frame} {b : Block} {f g h : State} {known : List State} {fuel : Nat}

def Program.next (program : Program) (tracked : Tracked) (g : State) : List State :=
  if g.target then [] else program.successors g tracked

theorem Program.mem_next : h ∈ program.next tracked g ↔ program.Step tracked g h := by
  unfold next Step
  cases g.target <;> simp

namespace Frame

/-- The states of the segments before their ends, as far as the fuel goes. -/
def gather (program : Program) (tracked : Tracked) (fr : Frame) :
    Nat → List State → List State → List State
  | 0, _, seen => seen
  | _ + 1, [], seen => seen
  | fuel + 1, g :: waiting, seen =>
    if g ∈ seen then gather program tracked fr fuel waiting seen
    else gather program tracked fr fuel
      ((program.next tracked g).filter (fun h => !fr.stop h.location) ++ waiting) (g :: seen)

def states (program : Program) (tracked : Tracked) (fr : Frame) (fuel : Nat) : List State :=
  gather program tracked fr fuel [fr.entry] []

theorem gather_within {waiting seen : List State}
    (hwaiting : ∀ g ∈ waiting, fr.Within program tracked g)
    (hseen : ∀ g ∈ seen, fr.Within program tracked g) :
    ∀ g ∈ gather program tracked fr fuel waiting seen, fr.Within program tracked g := by
  induction fuel, waiting, seen using gather.induct program tracked fr with
  | case1 => exact hseen
  | case2 => exact hseen
  | case3 fuel g waiting seen hg ih =>
    rw [gather, if_pos hg]
    exact ih (fun f hf => hwaiting f (List.mem_cons_of_mem g hf)) hseen
  | case4 fuel g waiting seen hg ih =>
    rw [gather, if_neg hg]
    have hw := hwaiting g List.mem_cons_self
    refine ih (fun f hf => ?_) (List.forall_mem_cons.2 ⟨hw, hseen⟩)
    rcases List.mem_append.1 hf with hf | hf
    · obtain ⟨hf, hstop⟩ := List.mem_filter.1 hf
      exact hw.tail ⟨Program.mem_next.1 hf, by simpa using hstop⟩
    · exact hwaiting f (List.mem_cons_of_mem g hf)

theorem within_of_mem_states (hg : g ∈ fr.states program tracked fuel) :
    fr.Within program tracked g :=
  gather_within (fun _ hf => List.mem_singleton.1 hf ▸ .refl) (List.forall_mem_nil _) g hg

def Complete (program : Program) (tracked : Tracked) (fr : Frame) (known : List State) : Prop :=
  fr.entry ∈ known ∧
    ∀ g ∈ known, ∀ h ∈ program.next tracked g, fr.stop h.location = true ∨ h ∈ known

theorem Complete.mem (hc : fr.Complete program tracked known) (hg : fr.Within program tracked g) :
    g ∈ known := by
  induction hg with
  | refl => exact hc.1
  | tail _ hs ih =>
    refine (hc.2 _ ih _ (Program.mem_next.2 hs.1)).resolve_left ?_
    rw [hs.2]
    simp

def ConfinedOn (program : Program) (tracked : Tracked) (r : Reducer) (b : Block) (f : State)
    (known : List State) : Prop :=
  (∀ g ∈ known, g.target = false → ∀ edge ∈ program.edgesFrom g.location,
    ∀ x ∈ edge.operation.variable?, x ∈ r.usedIn b) ∧
  ∀ g ∈ known, f.stack.length ≤ g.stack.length ∧
    ∀ h ∈ program.next tracked g, b.isReturnNode h.location = true → h.stack = f.stack

theorem Complete.confined (hc : (call r b f).Complete program tracked known)
    (hon : ConfinedOn program tracked r b f known) : (call r b f).Confined program tracked where
  uses := fun g hg htarget edge he x hx => hon.1 g (hc.mem hg) htarget edge he x hx
  stack_le := fun g hg => (hon.2 g (hc.mem hg)).1
  stack_eq := by
    rintro g ⟨m, hm, hs, hstop⟩
    exact (hon.2 m (hc.mem hm)).2 g (Program.mem_next.2 hs) hstop

def AvoidsOn (program : Program) (tracked : Tracked) (r : Reducer) (b : Block) (fuel : Nat)
    (g : State) (inner : Block) : Prop :=
  (call r inner g).Complete program tracked ((call r inner g).states program tracked fuel) ∧
    ∀ h ∈ (call r inner g).states program tracked fuel, ∀ h' ∈ program.next tracked h,
      inner.isReturnNode h'.location = true ∨ b.isReturnNode h'.location = false

theorem Complete.nests (hc : (call r b f).Complete program tracked known)
    (hon : ∀ g ∈ known, ∀ inner ∈ partitioning.block? g.location,
      AvoidsOn program tracked r b fuel g inner) :
    (call r b f).Nests program tracked partitioning r := by
  intro g inner h hg hb hin
  obtain ⟨hinner, havoid⟩ := hon g (hc.mem hg) inner hb
  obtain ⟨m, hm, hs, hstop⟩ := TransGen.tail'_iff.1 hin
  refine (havoid m (hinner.mem hm) h (Program.mem_next.2 hs)).resolve_left ?_
  intro hyes
  have hno : inner.isReturnNode h.location = false := hstop
  rw [hno] at hyes
  cases hyes

instance (known : List State) : Decidable (fr.Complete program tracked known) := by
  delta Complete
  infer_instance

instance (known : List State) : Decidable (ConfinedOn program tracked r b f known) := by
  delta ConfinedOn
  infer_instance

instance (inner : Block) : Decidable (AvoidsOn program tracked r b fuel g inner) := by
  delta AvoidsOn
  infer_instance

end Frame

namespace Program

def CallsConfinedOn (program : Program) (tracked : Tracked) (partitioning : Partitioning)
    (r : Reducer) (fuel : Nat) (known : List State) : Prop :=
  ∀ f ∈ known, ∀ b ∈ partitioning.block? f.location,
    (Frame.call r b f).Complete program tracked ((Frame.call r b f).states program tracked fuel) ∧
      Frame.ConfinedOn program tracked r b f ((Frame.call r b f).states program tracked fuel)

def CallsNestOn (program : Program) (tracked : Tracked) (partitioning : Partitioning)
    (r : Reducer) (fuel : Nat) (known : List State) : Prop :=
  ∀ f ∈ known, ∀ b ∈ partitioning.block? f.location,
    (Frame.call r b f).Complete program tracked ((Frame.call r b f).states program tracked fuel) ∧
      ∀ g ∈ (Frame.call r b f).states program tracked fuel,
        ∀ inner ∈ partitioning.block? g.location,
          Frame.AvoidsOn program tracked r b fuel g inner

instance (known : List State) :
    Decidable (program.CallsConfinedOn tracked partitioning r fuel known) := by
  delta CallsConfinedOn
  infer_instance

instance (known : List State) :
    Decidable (program.CallsNestOn tracked partitioning r fuel known) := by
  delta CallsNestOn
  infer_instance

theorem flat_of_mem_states (hg : g ∈ (Frame.whole start).states program tracked fuel) :
    program.Flat tracked start g :=
  Frame.within_whole_iff.1 (Frame.within_of_mem_states hg)

variable (hc : (Frame.whole start).Complete program tracked known)

include hc

theorem flat_mem (hg : program.Flat tracked start g) : g ∈ known :=
  hc.mem (Frame.within_whole_iff.2 hg)

theorem callsConfined_of_finite (fuel : Nat)
    (hon : program.CallsConfinedOn tracked partitioning r fuel known) :
    program.CallsConfined tracked start partitioning r := by
  intro f b hf hb
  obtain ⟨hcall, hon⟩ := hon f (flat_mem hc hf) b hb
  exact hcall.confined hon

theorem callsNest_of_finite (fuel : Nat)
    (hon : program.CallsNestOn tracked partitioning r fuel known) :
    program.CallsNest tracked start partitioning r := by
  intro f b hf hb
  obtain ⟨hcall, hon⟩ := hon f (flat_mem hc hf) b hb
  exact hcall.nests hon

end Program

end Blockwise
