import Blockwise.Proofs.Exploration.Explore

/-!
Fuel. With more fuel an exploration does the same, and it goes on where the fuel was used up.
-/
namespace Blockwise

variable {program : Program} {c c' : Context} {n : NodeId} {s : SetId} {fuel fuel' : Nat}
  {enclosing : List SetId}

namespace Exploring

variable {α β : Type} {x y : Exploring α}

/-- Unless `x` uses up its fuel, `y` does the same. -/
def Approximates (x y : Exploring α) : Prop :=
  ∀ c, (∃ active c', x c = .error ⟨.outOfFuel, active⟩ c') ∨ y c = x c

namespace Approximates

theorem refl (x : Exploring α) : Approximates x x := fun _ => Or.inr rfl

theorem bind {f g : α → Exploring β} (h : Approximates x y) (hf : ∀ a, Approximates (f a) (g a)) :
    Approximates (x >>= f) (y >>= g) := by
  intro c
  rcases h c with ⟨active, c', hx⟩ | hsame
  · exact Or.inl ⟨active, c', bind_eq_of_error hx⟩
  · cases hx : x c with
    | error e c' =>
      rw [hx] at hsame
      exact Or.inr ((bind_eq_of_error hsame).trans (bind_eq_of_error hx).symm)
    | ok a c' =>
      rw [hx] at hsame
      rw [bind_eq_of_ok hx, bind_eq_of_ok hsame]
      exact hf a c'

theorem ite {p : Prop} [Decidable p] {x' y' : Exploring α} (h : Approximates x y)
    (h' : Approximates x' y') : Approximates (if p then x else x') (if p then y else y') := by
  split
  · exact h
  · exact h'

end Approximates

theorem perform_approximates {exploreSet exploreSet' : SetId → Exploring Unit}
    (h : ∀ inner, Approximates (exploreSet inner) (exploreSet' inner)) (todo : NodeTask) :
    Approximates (perform program exploreSet enclosing s n todo)
      (perform program exploreSet' enclosing s n todo) := by
  cases todo with
  | stop => exact .refl _
  | successors state precision => exact .refl _
  | call =>
    refine .bind (.refl _) fun inner => .ite (.bind (.refl _) fun r => ?_) (.refl _)
    exact .ite ((h inner).bind fun _ => .refl _) (.refl _)

theorem explore_approximates (program : Program) (fuel : Nat) (enclosing : List SetId) (s : SetId) :
    Approximates (explore program fuel enclosing s) (explore program (fuel + 1) enclosing s) := by
  induction fuel generalizing enclosing s with
  | zero => exact fun c => Or.inl ⟨s :: enclosing, c, rfl⟩
  | succ fuel ih =>
    refine .bind (.refl _) fun next => ?_
    cases next with
    | none => exact .refl _
    | some n =>
      refine .bind (.refl _) fun todo => ?_
      exact .bind (perform_approximates (ih (s :: enclosing)) todo) fun _ => ih enclosing s

theorem Approximates.of_le {F : Nat → Exploring α} {result : EStateM.Result Abort Context α}
    (happrox : ∀ fuel, Approximates (F fuel) (F (fuel + 1))) (hle : fuel ≤ fuel')
    (h : F fuel c = result) (hfuel : ∀ active c', result ≠ .error ⟨.outOfFuel, active⟩ c') :
    F fuel' c = result := by
  induction hle with
  | refl => exact h
  | step _ ih =>
    rcases happrox _ c with ⟨active, c', hout⟩ | hsame
    · exact absurd (ih.symm.trans hout) (hfuel active c')
    · exact hsame.trans ih

theorem explore_of_le {result : EStateM.Result Abort Context Unit} (hle : fuel ≤ fuel')
    (h : explore program fuel enclosing s c = result)
    (hfuel : ∀ active c', result ≠ .error ⟨.outOfFuel, active⟩ c') :
    explore program fuel' enclosing s c = result :=
  Approximates.of_le (F := fun fuel => explore program fuel enclosing s)
    (fun fuel => explore_approximates program fuel enclosing s) hle h hfuel

theorem perform_of_le (hle : fuel ≤ fuel') {todo : NodeTask}
    {result : EStateM.Result Abort Context Unit}
    (h : perform program (explore program fuel (s :: enclosing)) enclosing s n todo c = result)
    (hfuel : ∀ active c', result ≠ .error ⟨.outOfFuel, active⟩ c') :
    perform program (explore program fuel' (s :: enclosing)) enclosing s n todo c = result :=
  Approximates.of_le
    (F := fun fuel => perform program (explore program fuel (s :: enclosing)) enclosing s n todo)
    (fun fuel => perform_approximates
      (fun inner => explore_approximates program fuel (s :: enclosing) inner) todo) hle h hfuel

/-! ### Where the fuel is used up -/

def OutAt (depth : Nat) (abort : Abort) (_ : Context) : Prop :=
  abort.reason = .outOfFuel → depth ≤ abort.active.length

theorem during_outAt {active : List SetId} (action : Action α) (depth : Nat) :
    Ensures (during active action) c (fun _ _ => True) (OutAt depth) := by
  rw [ensures_during]
  unfold Ensures
  cases action c with
  | ok a c' => trivial
  | error fault c' => exact fun h => by cases h

theorem during_ne_outOfFuel {active l : List SetId} {action : Action α} :
    during active action c ≠ .error ⟨.outOfFuel, l⟩ c' := by
  unfold during
  cases action c <;> simp

theorem perform_outAt {exploreSet : SetId → Exploring Unit}
    (h : ∀ inner d, Ensures (exploreSet inner) d (fun _ _ => True) (OutAt (enclosing.length + 2)))
    (todo : NodeTask) : Ensures (perform program exploreSet enclosing s n todo) c
      (fun _ _ => True) (OutAt (enclosing.length + 2)) := by
  cases todo with
  | stop => trivial
  | successors state precision =>
    exact Ensures.forM (I := fun _ _ => True) (fun _ _ d _ _ => during_outAt _ _) [] trivial
  | call =>
    simp only [perform, ensures_bind, ensures_ite, ensures_pure]
    refine (during_outAt _ _).imp (fun inner d _ => ⟨fun _ => ?_, fun _ => during_outAt _ _⟩)
      fun _ _ => id
    refine (during_outAt _ _).imp (fun r d _ => ⟨fun _ => ?_, fun _ => during_outAt _ _⟩)
      fun _ _ => id
    exact (h inner d).imp (fun _ d _ => during_outAt _ _) fun _ _ => id

theorem explore_outAt (program : Program) (fuel : Nat) (enclosing : List SetId) (s : SetId)
    (c : Context) : Ensures (explore program fuel enclosing s) c (fun _ _ => True)
      (OutAt (enclosing.length + 1)) := by
  induction fuel generalizing enclosing s c with
  | zero => exact fun _ => le_rfl
  | succ fuel ih =>
    simp only [explore, ensures_bind]
    refine (during_outAt _ _).imp (fun next d _ => ?_) fun _ _ => id
    cases next with
    | none => trivial
    | some n =>
      simp only [ensures_bind]
      refine (during_outAt _ _).imp (fun todo d _ => ?_) fun _ _ => id
      refine (perform_outAt (fun inner d => ih (s :: enclosing) inner d) todo).imp
        (fun _ d _ => ih enclosing s d) fun _ _ hout hfuel => ?_
      exact Nat.le_of_succ_le (hout hfuel)

theorem explore_resume (h : explore program fuel enclosing s c =
    .error ⟨.outOfFuel, s :: enclosing⟩ c') (more : Nat) :
    explore program (fuel + more) enclosing s c = explore program more enclosing s c' := by
  induction fuel generalizing c with
  | zero =>
    cases h
    rw [Nat.zero_add]
  | succ fuel ih =>
    rcases bind_eq_error.1 h with h | ⟨next, d, hnext, h⟩
    · exact absurd h during_ne_outOfFuel
    · rw [Nat.succ_add, explore, bind_eq_of_ok hnext]
      cases next with
      | none => cases h
      | some n =>
        rcases bind_eq_error.1 h with h | ⟨todo, d', htodo, h⟩
        · exact absurd h during_ne_outOfFuel
        · refine (bind_eq_of_ok htodo).trans ?_
          rcases bind_eq_error.1 h with h | ⟨_, d'', hperform, h⟩
          -- had the fuel been used up inside of the step, more sets would be active
          · have hout := (ensures_of_error h).1
              (perform_outAt
                (fun inner d => explore_outAt program fuel (s :: enclosing) inner d) todo)
            exact absurd (hout rfl) (by simp)
          · rw [bind_eq_of_ok (perform_of_le (Nat.le_add_right fuel more) hperform (by simp))]
            exact ih h

end Exploring

end Blockwise
