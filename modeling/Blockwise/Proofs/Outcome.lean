import Blockwise.Halt

/-!
Outcomes of actions that may fail. A property of the state after an action is read off by taking
the action apart at its binds; the rules for the single pieces are equivalences, so nothing is lost
on the way. A failing action is judged by the state it leaves, too.
-/

namespace Blockwise

variable {ε σ α β : Type}

theorem except_bind_eq_ok {x : Except ε α} {f : α → Except ε β} {b : β} :
    x >>= f = .ok b ↔ ∃ a, x = .ok a ∧ f a = .ok b := by
  cases x with
  | ok a => simp [bind, Except.bind]
  | error e => simp [bind, Except.bind]

theorem except_forM_eq_ok {f : α → Except ε Unit} {l : List α} :
    l.forM f = .ok () ↔ ∀ a ∈ l, f a = .ok () := by
  induction l with
  | nil => simp [List.forM, pure, Except.pure]
  | cons a l ih =>
    change (f a >>= fun _ => l.forM f) = .ok () ↔ _
    rw [except_bind_eq_ok, List.forall_mem_cons, ← ih]
    exact ⟨fun ⟨_, ha, hl⟩ => ⟨ha, hl⟩, fun ⟨ha, hl⟩ => ⟨(), ha, hl⟩⟩

theorem mem_of_mapM_ok {f : α → Except ε β} {l : List α} {bs : List β}
    (h : l.mapM f = .ok bs) {b : β} (hb : b ∈ bs) : ∃ a ∈ l, f a = .ok b := by
  induction l generalizing bs with
  | nil =>
    cases h
    cases hb
  | cons a l ih =>
    rw [List.mapM_cons] at h
    obtain ⟨b', hb', h⟩ := except_bind_eq_ok.1 h
    obtain ⟨rest, hrest, h⟩ := except_bind_eq_ok.1 h
    cases h
    rcases List.mem_cons.1 hb with rfl | hb
    · exact ⟨a, List.mem_cons_self .., hb'⟩
    · obtain ⟨a', ha', hf⟩ := ih hrest hb
      exact ⟨a', List.mem_cons_of_mem _ ha', hf⟩

theorem mapM_eq_ok {f : α → Except ε β} {g : α → β} {l : List α} (h : ∀ a ∈ l, f a = .ok (g a)) :
    l.mapM f = .ok (l.map g) := by
  induction l with
  | nil => rfl
  | cons a l ih =>
    rw [List.mapM_cons, h a (List.mem_cons_self ..), ih fun b hb => h b (List.mem_cons_of_mem _ hb)]
    rfl

def finalState : EStateM.Result ε σ α → σ
  | .ok _ s => s
  | .error _ s => s

def value? : EStateM.Result ε σ α → Option α
  | .ok a _ => some a
  | .error _ _ => none

theorem ok_of_value? {r : EStateM.Result ε σ α} (h : (value? r).isSome = true) :
    ∃ a, r = .ok a (finalState r) := by
  cases r with
  | ok a s => exact ⟨a, rfl⟩
  | error e s => cases h

def error? : EStateM.Result ε σ α → Option ε
  | .ok _ _ => none
  | .error e _ => some e

theorem error_of_error? {r : EStateM.Result ε σ α} {e : ε} (h : error? r = some e) :
    r = .error e (finalState r) := by
  cases r with
  | ok a s => cases h
  | error e' s =>
    cases h
    rfl

theorem bind_eq_of_ok {x : EStateM ε σ α} {f : α → EStateM ε σ β} {s s' : σ} {a : α}
    (h : x s = .ok a s') : (x >>= f) s = f a s' := by
  simp only [bind, EStateM.bind, h]

theorem bind_eq_of_error {x : EStateM ε σ α} {f : α → EStateM ε σ β} {s s' : σ} {e : ε}
    (h : x s = .error e s') : (x >>= f) s = .error e s' := by
  simp only [bind, EStateM.bind, h]

theorem bind_eq_error {x : EStateM ε σ α} {f : α → EStateM ε σ β} {s s' : σ} {e : ε} :
    (x >>= f) s = .error e s' ↔ x s = .error e s' ∨ ∃ a t, x s = .ok a t ∧ f a t = .error e s' := by
  cases hx : x s with
  | ok a t => simp [bind_eq_of_ok hx, and_assoc]
  | error e' t => simp [bind_eq_of_error hx]

/-- From `s` the action either succeeds as `ok` says or fails as `bad` says. -/
def Ensures (action : EStateM ε σ α) (s : σ) (ok : α → σ → Prop) (bad : ε → σ → Prop) : Prop :=
  match action s with
  | .ok a s' => ok a s'
  | .error e s' => bad e s'

section Rules

variable {ok : β → σ → Prop} {bad : ε → σ → Prop} {s : σ}

theorem ensures_of_ok {action : EStateM ε σ β} {a : β} {s' : σ} (h : action s = .ok a s') :
    Ensures action s ok bad ↔ ok a s' := by
  simp only [Ensures, h]

theorem ensures_of_error {action : EStateM ε σ β} {e : ε} {s' : σ} (h : action s = .error e s') :
    Ensures action s ok bad ↔ bad e s' := by
  simp only [Ensures, h]

theorem ensures_bind {x : EStateM ε σ α} {f : α → EStateM ε σ β} :
    Ensures (x >>= f) s ok bad ↔ Ensures x s (fun a s' => Ensures (f a) s' ok bad) bad := by
  simp only [Ensures, bind, EStateM.bind]
  cases x s <;> rfl

theorem ensures_pure {b : β} : Ensures (pure b : EStateM ε σ β) s ok bad ↔ ok b s := Iff.rfl

theorem ensures_get {ok : σ → σ → Prop} : Ensures (get : EStateM ε σ σ) s ok bad ↔ ok s s := Iff.rfl

theorem ensures_set {ok : PUnit → σ → Prop} {t : σ} :
    Ensures (set t : EStateM ε σ PUnit) s ok bad ↔ ok ⟨⟩ t := Iff.rfl

theorem ensures_modify {ok : PUnit → σ → Prop} {f : σ → σ} :
    Ensures (modify f : EStateM ε σ PUnit) s ok bad ↔ ok ⟨⟩ (f s) := Iff.rfl

theorem ensures_liftExcept {x : Except ε β} :
    Ensures (liftM x : EStateM ε σ β) s ok bad ↔
      (∀ b, x = .ok b → ok b s) ∧ (∀ e, x = .error e → bad e s) := by
  cases x with
  | ok b =>
    change ok b s ↔ _
    simp
  | error e =>
    change bad e s ↔ _
    simp

theorem ensures_lift_of_ok {x : Except ε β} {b : β} (h : x = .ok b) :
    Ensures (liftM x : EStateM ε σ β) s ok bad ↔ ok b s := by
  subst h
  exact Iff.rfl

theorem ensures_ite {p : Prop} [Decidable p] {x y : EStateM ε σ β} :
    Ensures (if p then x else y) s ok bad ↔
      (p → Ensures x s ok bad) ∧ (¬ p → Ensures y s ok bad) := by
  split <;> simp_all

theorem ensures_ite_bind {p : Prop} [Decidable p] {x y : EStateM ε σ α} {f : α → EStateM ε σ β} :
    Ensures (if p then x >>= f else y >>= f) s ok bad ↔
      Ensures (if p then x else y) s (fun a t => Ensures (f a) t ok bad) bad := by
  split <;> exact ensures_bind

theorem ensures_adaptExcept {ε' : Type} {action : EStateM ε' σ β} {f : ε' → ε} :
    Ensures (action.adaptExcept f) s ok bad ↔ Ensures action s ok fun e => bad (f e) := by
  unfold Ensures EStateM.adaptExcept
  cases action s <;> rfl

end Rules

section Halting

/-- Not the sign of a broken invariant. -/
def Halt.Benign (halt : Halt) : Prop := ∀ fault, halt = .fault fault → fault.isInconsistency = false

theorem Halt.benign_outOfFuel : Halt.outOfFuel.Benign := fun _ hf => by cases hf

theorem Halt.benign_fault {fault : Fault} (hf : fault.isInconsistency = false) :
    (Halt.fault fault).Benign := by
  rintro _ ⟨⟩
  exact hf

variable {ok : β → σ → Prop} {bad : Halt → σ → Prop} {s : σ}

theorem ensures_liftAction {action : EStateM Fault σ β} :
    Ensures (liftM action : EStateM Halt σ β) s ok bad ↔
      Ensures action s ok fun fault => bad (.fault fault) := by
  simp only [Ensures, liftM, monadLift, MonadLift.monadLift]
  cases action s <;> rfl

theorem ensures_liftFault {x : Except Fault β} :
    Ensures (liftM x : EStateM Halt σ β) s ok bad ↔
      (∀ b, x = .ok b → ok b s) ∧ (∀ e, x = .error e → bad (.fault e) s) := by
  cases x with
  | ok b =>
    change ok b s ↔ _
    simp
  | error e =>
    change bad (.fault e) s ↔ _
    simp

theorem ensures_liftFault_of_ok {x : Except Fault β} {b : β} (hx : x = .ok b) :
    Ensures (liftM x : EStateM Halt σ β) s ok bad ↔ ok b s := by
  subst hx
  exact Iff.rfl

theorem ensures_liftFault_of_error {x : Except Fault β} {fault : Fault} (hx : x = .error fault) :
    Ensures (liftM x : EStateM Halt σ β) s ok bad ↔ bad (.fault fault) s := by
  subst hx
  exact Iff.rfl

end Halting

theorem Ensures.imp {action : EStateM ε σ α} {s : σ} {ok Q : α → σ → Prop}
    {bad bad' : ε → σ → Prop} (h : Ensures action s ok bad) (hok : ∀ a s', ok a s' → Q a s')
    (hbad : ∀ e s', bad e s' → bad' e s') : Ensures action s Q bad' := by
  unfold Ensures at *
  cases he : action s with
  | ok a s' =>
    rw [he] at h
    exact hok a s' h
  | error e s' =>
    rw [he] at h
    exact hbad e s' h

theorem Ensures.and {action : EStateM ε σ α} {s : σ} {ok ok' : α → σ → Prop}
    {bad bad' : ε → σ → Prop} (h : Ensures action s ok bad) (h' : Ensures action s ok' bad') :
    Ensures action s (fun a s' => ok a s' ∧ ok' a s') (fun e s' => bad e s' ∧ bad' e s') := by
  unfold Ensures at *
  cases he : action s with
  | ok a s' =>
    rw [he] at h h'
    exact ⟨h, h'⟩
  | error e s' =>
    rw [he] at h h'
    exact ⟨h, h'⟩

theorem Ensures.final {action : EStateM ε σ α} {s : σ} {p : σ → Prop}
    (h : Ensures action s (fun _ => p) (fun _ => p)) : p (finalState (action s)) := by
  unfold Ensures at h
  cases he : action s with
  | ok a s' =>
    rw [he] at h
    exact h
  | error e s' =>
    rw [he] at h
    exact h

theorem ensures_eq_ok_iff {action : EStateM ε σ α} {s s' : σ} {a : α} :
    Ensures action s (fun b t => b = a ∧ t = s') (fun _ _ => False) ↔ action s = .ok a s' := by
  unfold Ensures
  cases action s <;> simp

theorem ensures_eq_error_iff {action : EStateM ε σ α} {s s' : σ} {e : ε} :
    Ensures action s (fun _ _ => False) (fun e' t => e' = e ∧ t = s') ↔
      action s = .error e s' := by
  unfold Ensures
  cases action s <;> simp

theorem Ensures.of_ok {action : EStateM ε σ α} {s s' : σ} {a : α} {ok : α → σ → Prop}
    {bad : ε → σ → Prop} (h : Ensures action s ok bad) (ha : action s = .ok a s') : ok a s' :=
  (ensures_of_ok ha).1 h

section Loops

variable {l : List α} {s : σ} {B : ε → σ → Prop}

theorem Ensures.forM {f : α → EStateM ε σ PUnit} {I : List α → σ → Prop}
    (step : ∀ done a s, a ∈ l → I done s → Ensures (f a) s (fun _ => I (a :: done)) B)
    (done : List α) (h : I done s) :
    Ensures (l.forM f) s (fun _ => I (l.reverse ++ done)) B := by
  induction l generalizing done s with
  | nil => exact h
  | cons a l ih =>
    change Ensures (f a >>= fun _ => l.forM f) s _ _
    rw [ensures_bind]
    refine (step done a s (List.mem_cons_self ..) h).imp (fun _ t ht => ?_) (fun _ _ => id)
    have hl := ih (fun done b s hb => step done b s (List.mem_cons_of_mem _ hb)) (a :: done) ht
    simpa using hl

theorem Ensures.mapM {f : α → EStateM ε σ β} {I : List α → σ → Prop}
    (step : ∀ done a s, a ∈ l → I done s → Ensures (f a) s (fun _ => I (a :: done)) B)
    (done : List α) (h : I done s) :
    Ensures (l.mapM f) s (fun _ => I (l.reverse ++ done)) B := by
  induction l generalizing done s with
  | nil => exact h
  | cons a l ih =>
    rw [List.mapM_cons, ensures_bind]
    refine (step done a s (List.mem_cons_self ..) h).imp (fun _ t ht => ?_) (fun _ _ => id)
    have hl := ih (fun done b s hb => step done b s (List.mem_cons_of_mem _ hb)) (a :: done) ht
    rw [ensures_bind]
    refine hl.imp (fun _ t' ht' => ?_) (fun _ _ => id)
    simpa [ensures_pure] using ht'

theorem Ensures.foldlM {f : β → α → EStateM ε σ β} {I : List α → β → σ → Prop}
    (step : ∀ a rest b s, I (a :: rest) b s → Ensures (f b a) s (fun b' s' => I rest b' s') B)
    {b : β} (h : I l b s) : Ensures (l.foldlM f b) s (fun b' s' => I [] b' s') B := by
  induction l generalizing b s with
  | nil => exact h
  | cons a l ih =>
    rw [List.foldlM_cons, ensures_bind]
    exact (step a l b s h).imp (fun _ _ h' => ih h') (fun _ _ => id)

end Loops

def Maintains (p : σ → Prop) (action : EStateM ε σ α) : Prop :=
  ∀ s, p s → Ensures action s (fun _ => p) (fun _ => p)

namespace Maintains

variable {p : σ → Prop}

theorem bind {x : EStateM ε σ α} {f : α → EStateM ε σ β} (hx : Maintains p x)
    (hf : ∀ a, Maintains p (f a)) : Maintains p (x >>= f) := by
  intro s hs
  rw [ensures_bind]
  exact (hx s hs).imp (fun a t ht => hf a t ht) (fun _ _ => id)

theorem pure (a : α) : Maintains p (pure a : EStateM ε σ α) := fun _ hs => hs

theorem throw (e : ε) : Maintains p (throw e : EStateM ε σ α) := fun _ hs => hs

theorem get : Maintains p (get : EStateM ε σ σ) := fun _ hs => hs

theorem modify {f : σ → σ} (h : ∀ s, p s → p (f s)) :
    Maintains p (modify f : EStateM ε σ PUnit) := h

theorem lift (x : Except ε α) : Maintains p (liftM x : EStateM ε σ α) := by
  intro s hs
  rw [ensures_liftExcept]
  exact ⟨fun _ _ => hs, fun _ _ => hs⟩

theorem ite {q : Prop} [Decidable q] {x y : EStateM ε σ α} (hx : Maintains p x)
    (hy : Maintains p y) : Maintains p (if q then x else y) := by
  split
  · exact hx
  · exact hy

theorem ite_bind {q : Prop} [Decidable q] {x y : EStateM ε σ α} {f : α → EStateM ε σ β}
    (hx : Maintains p x) (hy : Maintains p y) (hf : ∀ a, Maintains p (f a)) :
    Maintains p (if q then x >>= f else y >>= f) :=
  (hx.bind hf).ite (hy.bind hf)

theorem adaptExcept {ε' : Type} {x : EStateM ε' σ α} (hx : Maintains p x) (f : ε' → ε) :
    Maintains p (x.adaptExcept f) := fun s hs => ensures_adaptExcept.2 (hx s hs)

theorem liftAction {x : EStateM Fault σ α} (hx : Maintains p x) :
    Maintains p (liftM x : EStateM Halt σ α) := fun s hs => ensures_liftAction.2 (hx s hs)

theorem liftFault (x : Except Fault α) : Maintains p (liftM x : EStateM Halt σ α) := by
  intro s hs
  rw [ensures_liftFault]
  exact ⟨fun _ _ => hs, fun _ _ => hs⟩

theorem forM {f : α → EStateM ε σ PUnit} (hf : ∀ a, Maintains p (f a)) (l : List α) :
    Maintains p (l.forM f) := by
  induction l with
  | nil => exact pure _
  | cons a l ih => exact (hf a).bind fun _ => ih

theorem mapM {f : α → EStateM ε σ β} (hf : ∀ a, Maintains p (f a)) (l : List α) :
    Maintains p (l.mapM f) := by
  induction l with
  | nil => exact pure _
  | cons a l ih =>
    rw [List.mapM_cons]
    exact (hf a).bind fun _ => ih.bind fun _ => pure _

theorem foldlM {f : β → α → EStateM ε σ β} (hf : ∀ b a, Maintains p (f b a)) (l : List α) (b : β) :
    Maintains p (l.foldlM f b) := by
  induction l generalizing b with
  | nil => exact pure _
  | cons a l ih =>
    rw [List.foldlM_cons]
    exact (hf b a).bind fun b' => ih b'

theorem final {action : EStateM ε σ α} (h : Maintains p action) {s : σ} (hs : p s) :
    p (finalState (action s)) := (h s hs).final

end Maintains

end Blockwise
