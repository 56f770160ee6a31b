import Blockwise.Proofs.Exploration.Regular
import Blockwise.Sample.TwoCalls

/-!
Sharing of block results. While nothing is repaired the answer that a key has got once stays its
answer: a result that is stored under it, or the result of another precision that an aggressive
cache remembers for it. So equal keys share a reached set, and without aggressive caching other keys
have others.
-/
namespace Blockwise

open Context

namespace Cache

variable {cache cache' : Cache State Tracked} {K K' : Key} {t t' : SetId}

def Answers (cache : Cache State Tracked) (K : Key) (t : SetId) : Prop :=
  cache.lookup K = some t ∨ cache.lookup K = none ∧ cache.aggressive = true ∧
    cache.containsPrecise K = false ∧ cache.imprecise.get? K = some t

structure Keeps (cache cache' : Cache State Tracked) : Prop where
  aggressive : cache'.aggressive = cache.aggressive
  answers : ∀ ⦃K t⦄, cache.Answers K t → cache'.Answers K t

theorem Keeps.refl (cache : Cache State Tracked) : cache.Keeps cache := ⟨rfl, fun _ _ h => h⟩

theorem Keeps.trans {cache''} (k : cache.Keeps cache') (k' : cache'.Keeps cache'') :
    cache.Keeps cache'' :=
  ⟨k'.aggressive.trans k.aggressive, fun _ _ h => k'.answers (k.answers h)⟩

theorem Answers.lookup_eq (h : cache.Answers K t) (hagg : cache.aggressive = false) :
    cache.lookup K = some t := by
  rcases h with h | ⟨-, htrue, -⟩
  · exact h
  · rw [hagg] at htrue
    cases htrue

theorem keeps_setReturnEntry (exits : List NodeId) : cache.Keeps (cache.setReturnEntry K exits) :=
  ⟨rfl, fun _ _ h => h⟩

theorem keeps_remember (hno : ∀ t, ¬ cache.Answers K t) :
    cache.Keeps { cache with imprecise := cache.imprecise.insert K t' } where
  aggressive := rfl
  answers := by
    rintro K' t (h | ⟨hnone, hagg, hp, hi⟩)
    · exact Or.inl h
    · refine Or.inr ⟨hnone, hagg, hp, ?_⟩
      have hne : K ≠ K' := by
        rintro rfl
        exact hno t (Or.inr ⟨hnone, hagg, hp, hi⟩)
      rw [Table.get?_insert, if_neg hne]
      exact hi

theorem keeps_store (hno : ∀ t, ¬ cache.Answers K t) (first : NodeId) :
    cache.Keeps (((cache.insert K t').markPrecise K).setBlockEntry K first) where
  aggressive := rfl
  answers := by
    intro K' t h
    have hne : K ≠ K' := by
      rintro rfl
      exact hno t h
    rcases h with h | ⟨hnone, hagg, hp, hi⟩
    · apply Or.inl
      rw [lookup_setBlockEntry, lookup_markPrecise, lookup_insert, if_neg hne]
      exact h
    · refine Or.inr ⟨?_, hagg, ?_, ?_⟩
      · rw [lookup_setBlockEntry, lookup_markPrecise, lookup_insert, if_neg hne]
        exact hnone
      · rw [containsPrecise_setBlockEntry, containsPrecise_markPrecise, containsPrecise_insert, hp]
        simp [hne]
      · change ((cache.imprecise.erase K).erase K).get? K' = some t
        rw [Table.get?_erase, if_neg (Ne.symm hne), Table.get?_erase, if_neg (Ne.symm hne)]
        exact hi

theorem Answers.lookupSimilar_eq (h : cache.Answers K t) (hnone : cache.lookup K = none) :
    cache.lookupSimilar K = (some t, cache) := by
  rcases h with h | ⟨-, hagg, hp, hi⟩
  · rw [hnone] at h
    cases h
  · simp [lookupSimilar, hagg, hp, hi]

theorem answers_of_lookupSimilar (hnone : cache.lookup K = none)
    (h : cache.lookupSimilar K = (some t, cache')) : cache.Keeps cache' ∧ cache'.Answers K t := by
  obtain ⟨hagg, hp, ⟨hi, rfl⟩ | ⟨hi, -, rfl⟩⟩ := Cache.lookupSimilar_eq_some h
  · exact ⟨.refl _, Or.inr ⟨hnone, hagg, hp, hi⟩⟩
  · have hno : ∀ t, ¬ cache.Answers K t := by
      rintro t (h | ⟨-, -, -, h⟩)
      · rw [hnone] at h
        cases h
      · rw [hi] at h
        cases h
    refine ⟨keeps_remember hno, Or.inr ⟨hnone, hagg, hp, ?_⟩⟩
    rw [Table.get?_insert, if_pos rfl]

end Cache

variable {c c' c₀ c₁ c₂ c₃ : Context} {n n' : NodeId} {K K' : Key} {t : SetId}

theorem Context.Regular.startsFrom_of_answers (h : c.Regular) (ht : c.cache.Answers K t) :
    c.StartsFrom t K.state := by
  rcases ht with ht | ⟨-, -, -, ht⟩
  · obtain ⟨hpos, hkey, -⟩ := h.stored ht
    exact hkey.startsFrom hpos
  · exact h.similar ht

/-! ### What the actions do to the answers -/

namespace Action

variable {cache : Cache State Tracked} {p : Cache State Tracked → Prop}

theorem resolveCall_answers (hK : c.reducedFor n = .ok K) :
    Ensures (resolveCall n) c
      (fun res c' => c.cache.Keeps c'.cache ∧ c'.cache.Answers K res.set ∧
        ∀ t, c.cache.Answers K t → res = .hit t ∧ c'.sets = c.sets)
      (fun _ _ => False) := by
  refine (resolveCall_cases c n).imp (fun res c' hc' => ?_) fun fault _ hc' => ?_
  · obtain ⟨K', hK', answer⟩ := hc'
    cases hK.symm.trans hK'
    cases answer with
    | stored hs =>
      refine ⟨.refl _, Or.inl hs, fun t ht => ⟨?_, rfl⟩⟩
      rcases ht with ht | ⟨hnone, -⟩
      · cases hs.symm.trans ht
        rfl
      · rw [hs] at hnone
        cases hnone
    | similar hno hs =>
      obtain ⟨hkeep, hans⟩ := Cache.answers_of_lookupSimilar hno hs
      refine ⟨hkeep, hans, fun t ht => ⟨?_, rfl⟩⟩
      cases hs.symm.trans (ht.lookupSimilar_eq hno)
      rfl
    | fresh hno hs =>
      have hnone : ∀ t, ¬ c.cache.Answers K t := by
        intro t ht
        cases hs.symm.trans (ht.lookupSimilar_eq hno)
      exact ⟨Cache.keeps_store hnone _, Or.inl (lookup_cacheSet.trans (if_pos rfl)),
        fun t ht => absurd ht (hnone t)⟩
  · cases hK.symm.trans hc'.1

/-! The other actions leave the answers alone. -/

theorem cached_modifyGraph (f : Graph State Tracked → Graph State Tracked) :
    Maintains (fun c => p c.cache) (modifyGraph f) :=
  .modify fun _ h => h

theorem cached_modifyLinks (f : Links → Links) : Maintains (fun c => p c.cache) (modifyLinks f) :=
  .modify fun _ h => h

theorem cached_editGraph (f : Graph State Tracked → Except Fault (Graph State Tracked)) :
    Maintains (fun c => p c.cache) (editGraph f) :=
  Maintains.get.bind fun _ => (Maintains.lift _).bind fun _ => cached_modifyGraph _

theorem cached_modifySet (s : SetId) (f : ReachedSet → ReachedSet) :
    Maintains (fun c => p c.cache) (modifySet s f) :=
  Maintains.get.bind fun _ => (Maintains.lift _).bind fun _ => .modify fun _ h => h

theorem cached_addChild (parent : NodeId) (state : State) :
    Maintains (fun c => p c.cache) (addChild parent state) :=
  Maintains.get.bind fun _ => (Maintains.lift _).bind fun _ => Maintains.get.bind fun _ =>
    (cached_modifyGraph _).bind fun _ => (cached_editGraph _).bind fun _ => .pure _

theorem cached_addSuccessor (parent : NodeId) (state : State) :
    Maintains (fun c => p c.cache) (addSuccessor parent state) :=
  (cached_addChild parent state).bind fun _ => Maintains.get.bind fun _ =>
    (Maintains.lift _).bind fun _ => (cached_modifySet _ _).bind fun _ => .pure _

theorem cached_addCoveredSuccessor (parent : NodeId) (state : State) (cover : NodeId) :
    Maintains (fun c => p c.cache) (addCoveredSuccessor parent state cover) :=
  (cached_addChild parent state).bind fun _ => (cached_editGraph _).bind fun _ =>
    Maintains.get.bind fun _ => (Maintains.lift _).bind fun _ =>
      (cached_modifySet _ _).bind fun _ => .pure _

theorem cached_addOrCover (s : SetId) (parent : NodeId) (state : State) :
    Maintains (fun c => p c.cache) (addOrCover s parent state) := by
  refine Maintains.get.bind fun _ => (Maintains.lift _).bind fun _ =>
    (Maintains.lift _).bind fun cover => ?_
  cases cover with
  | none => exact (cached_addSuccessor parent state).bind fun _ => .pure _
  | some k => exact (cached_addCoveredSuccessor parent state k).bind fun _ => .pure _

theorem cached_expandExit (callNode exit : NodeId) :
    Maintains (fun c => p c.cache) (expandExit callNode exit) :=
  Maintains.get.bind fun _ => (Maintains.lift _).bind fun _ => (Maintains.lift _).bind fun _ =>
    (Maintains.lift _).bind fun _ => (cached_addSuccessor _ _).bind fun _ =>
      (cached_modifyLinks _).bind fun _ => .pure _

theorem cached_nextWaiting (s : SetId) : Maintains (fun c => p c.cache) (nextWaiting s) := by
  have hpoll : Maintains (fun c => p c.cache) poll := by
    intro c h
    simp only [poll, ensures_bind, ensures_get, ensures_set]
    rw [ensures_liftExcept]
    exact ⟨fun _ _ => h, fun _ _ => h⟩
  exact hpoll.bind fun _ => Maintains.get.bind fun _ => (Maintains.lift _).bind fun _ =>
    (cached_modifySet _ _).bind fun _ => .pure _

theorem keeps_resolveCall (callNode : NodeId) :
    Maintains (fun c => cache.Keeps c.cache) (resolveCall callNode) := by
  intro c h
  cases hK : c.reducedFor callNode with
  | error fault =>
    refine (resolveCall_cases c callNode).imp (fun _ _ hc' => ?_) fun _ _ hc' => hc'.2 ▸ h
    obtain ⟨K, hK', -⟩ := hc'
    cases hK.symm.trans hK'
  | ok K =>
    refine (resolveCall_answers hK).imp (fun _ c' hc' => ?_) (fun _ _ => False.elim)
    exact h.trans hc'.1

theorem keeps_expandBlockExits (callNode : NodeId) (s : SetId) :
    Maintains (fun c => cache.Keeps c.cache) (expandBlockExits callNode s) :=
  Maintains.get.bind fun _ => (Maintains.lift _).bind fun _ => (Maintains.lift _).bind fun _ =>
    (Maintains.lift _).bind fun _ => (Maintains.mapM (cached_expandExit callNode) _).bind fun _ =>
      (Maintains.modify fun _ h => h.trans (Cache.keeps_setReturnEntry _)).bind fun _ => .pure _

end Action

namespace Exploring

theorem actionsKeep_keeps (cache : Cache State Tracked) :
    ActionsKeep (fun _ c => cache.Keeps c.cache) fun _ _ _ => True where
  refl := fun _ _ h => h
  trans := fun _ _ _ _ h => h
  next := fun _ c s h =>
    (Action.cached_nextWaiting s c h).imp (fun _ _ h' => ⟨h', fun _ _ => trivial⟩) fun _ _ => id
  cover := fun _ s n state _ => Action.cached_addOrCover s n state
  resolve := fun _ n => Action.keeps_resolveCall n
  expand := fun _ n s => Action.keeps_expandBlockExits n s

end Exploring

theorem keeps_run {cache : Cache State Tracked} (program : Program) (fuel : Nat) :
    Maintains (fun c => cache.Keeps c.cache) (run program fuel) := by
  have hexplore : Maintains (fun c => cache.Keeps c.cache)
      (Exploring.explore program fuel [] .topLevel) :=
    fun c h => (Exploring.actionsKeep_keeps cache).explore c program fuel [] .topLevel c h
  exact (hexplore.adaptExcept _).bind fun _ => Maintains.get.bind fun _ => .liftFault _

/-! ### Operations without repairs -/

/-- The contexts that the operations other than a repair lead to from `c₀`, single steps of a run
among them. -/
inductive Proceeds (c₀ : Context) : Context → Prop
  | refl : Proceeds c₀ c₀
  | flag {c : Context} (o : Proceeds c₀ c) (shutdown : Shutdown) : Proceeds c₀ { c with shutdown }
  | run {c : Context} (o : Proceeds c₀ c) (program : Program) (fuel : Nat) :
      Proceeds c₀ (finalState (run program fuel c))
  | newReachedSet {c : Context} (o : Proceeds c₀ c) (state : State) (precision : Tracked) :
      Proceeds c₀ (finalState (Action.newReachedSet state precision c))
  | addSuccessor {c : Context} (o : Proceeds c₀ c) (parent : NodeId) (state : State) :
      Proceeds c₀ (finalState (Action.addSuccessor parent state c))
  | resolveCall {c : Context} (o : Proceeds c₀ c) (callNode : NodeId) :
      Proceeds c₀ (finalState (Action.resolveCall callNode c))
  | expandBlockExits {c : Context} (o : Proceeds c₀ c) (callNode : NodeId) (set : SetId) :
      Proceeds c₀ (finalState (Action.expandBlockExits callNode set c))
  | nextWaiting {c : Context} (o : Proceeds c₀ c) (set : SetId) :
      Proceeds c₀ (finalState (Action.nextWaiting set c))
  | addOrCover {c : Context} (o : Proceeds c₀ c) {parent : NodeId} {p : Node State Tracked}
      (hp : c.graph.node? parent = some p) (state : State) :
      Proceeds c₀ (finalState (Action.addOrCover p.set parent state c))

theorem regular_nextWaiting (set : SetId) : Maintains c₀.RegularSince (Action.nextWaiting set) :=
  fun _ h => (Exploring.actionsKeep_regularSince.next set h).imp (fun _ _ => And.left) fun _ _ => id

namespace Proceeds

theorem regular (o : Proceeds c₀ c) (h : c₀.Regular) : c.Regular := by
  have since : ∀ {α ε : Type} {d : Context} {action : EStateM ε Context α}, d.Regular →
      Maintains d.RegularSince action → (finalState (action d)).Regular :=
    fun h hm => (hm.final (RegularSince.refl h)).regular
  induction o with
  | refl => exact h
  | @flag c o shutdown ih => exact ih.quiet c.statistics shutdown
  | run o program fuel ih => exact since ih (regular_run program fuel)
  | newReachedSet o state precision ih => exact ih.addReachedSet state precision
  | addSuccessor o parent state ih => exact since ih (Action.regular_addSuccessor parent state)
  | resolveCall o callNode ih => exact since ih (Action.regular_resolveCall callNode)
  | expandBlockExits o callNode set ih =>
    exact since ih (Action.regular_expandBlockExits callNode set)
  | nextWaiting o set ih => exact since ih (regular_nextWaiting set)
  | addOrCover o hp state ih => exact since ih (Action.regular_addOrCover hp state)

theorem keeps (o : Proceeds c₀ c) : c₀.cache.Keeps c.cache := by
  induction o with
  | refl => exact .refl _
  | flag o shutdown ih => exact ih
  | run o program fuel ih => exact (keeps_run program fuel).final ih
  | newReachedSet o state precision ih => exact ih
  | addSuccessor o parent state ih => exact (Action.cached_addSuccessor parent state).final ih
  | resolveCall o callNode ih => exact (Action.keeps_resolveCall callNode).final ih
  | expandBlockExits o callNode set ih =>
    exact (Action.keeps_expandBlockExits callNode set).final ih
  | nextWaiting o set ih => exact (Action.cached_nextWaiting set).final ih
  | @addOrCover c o parent p hp state ih =>
    exact (Action.cached_addOrCover p.set parent state).final ih

theorem trans (o : Proceeds c₀ c) (o' : Proceeds c c') : Proceeds c₀ c' := by
  induction o' with
  | refl => exact o
  | flag _ shutdown ih => exact .flag ih shutdown
  | run _ program fuel ih => exact .run ih program fuel
  | newReachedSet _ state precision ih => exact .newReachedSet ih state precision
  | addSuccessor _ parent state ih => exact .addSuccessor ih parent state
  | resolveCall _ callNode ih => exact .resolveCall ih callNode
  | expandBlockExits _ callNode set ih => exact .expandBlockExits ih callNode set
  | nextWaiting _ set ih => exact .nextWaiting ih set
  | addOrCover _ hp state ih => exact .addOrCover ih hp state

theorem resolved {res : CallResult} (o : Proceeds c₀ c)
    (h : Action.resolveCall n c = .ok res c') : Proceeds c₀ c' := by
  have := o.resolveCall n
  rwa [h] at this

end Proceeds

/-- `set` starts at the block entry that the key describes. -/
def Context.EntersAt (c : Context) (set : SetId) (K : Key) : Prop :=
  ∃ r f, c.sets[set]? = some r ∧ c.graph.Live r.first f ∧ f.state = K.state ∧
    f.state.location = K.block ∧ (c.cache.aggressive = false → f.precision = K.precision)

theorem Context.Regular.entersAt (h : c.Regular) (ht : c.cache.Answers K t)
    (hblock : K.block = K.state.location) : c.EntersAt t K := by
  obtain ⟨-, r, f, hr, hf, hstate⟩ := h.startsFrom_of_answers ht
  refine ⟨r, f, hr, hf, hstate, by rw [hstate, hblock], fun hagg => ?_⟩
  obtain ⟨-, ⟨r', f', hr', hf', hkey⟩, -⟩ := h.stored (ht.lookup_eq hagg)
  cases Option.some.inj (hr.symm.trans hr')
  cases hf.unique hf'
  rw [hkey]

section

variable {partitioning : Partitioning} {reducer : Reducer} {state : State} {precision : Tracked}
  {options : Options} {res res' : CallResult}

/-- Of two calls with equal keys the later one is a hit on the reached set of the earlier one. -/
theorem block_results_shared
    (o : Proceeds (.start partitioning reducer state precision options) c)
    (hK : c.reducedFor n = .ok K) (h : Action.resolveCall n c = .ok res c₁)
    (o' : Proceeds c₁ c₂) (hK' : c₂.reducedFor n' = .ok K')
    (h' : Action.resolveCall n' c₂ = .ok res' c₃) :
    (K' = K → res'.set = res.set ∧ res'.isHit = true ∧ c₃.sets.size = c₂.sets.size) ∧
    c₃.EntersAt res.set K ∧ c₃.EntersAt res'.set K' ∧
    (options.aggressiveCaching = false → K' ≠ K → res'.set ≠ res.set) := by
  obtain ⟨-, hans, -⟩ := (Action.resolveCall_answers hK).of_ok h
  obtain ⟨hkeep, hans', hsame⟩ := (Action.resolveCall_answers hK').of_ok h'
  have o₃ := ((o.resolved h).trans o').resolved h'
  have h₃ := o₃.regular (regular_start ..)
  have hfirst : c₃.cache.Answers K res.set := hkeep.answers (o'.keeps.answers hans)
  have hblock : ∀ {c : Context} {n K}, c.reducedFor n = .ok K → K.block = K.state.location := by
    intro c n K hK
    obtain ⟨-, -, -, -, -, -, -, hblock⟩ := reducedFor_spec hK
    exact hblock
  refine ⟨?_, h₃.entersAt hfirst (hblock hK), h₃.entersAt hans' (hblock hK'), ?_⟩
  · rintro rfl
    obtain ⟨rfl, hsets⟩ := hsame _ (o'.keeps.answers hans)
    exact ⟨rfl, rfl, by rw [hsets]⟩
  · intro hexact hne heq
    have hagg : c₃.cache.aggressive = false := o₃.keeps.aggressive.trans hexact
    obtain ⟨-, hkey, -⟩ := h₃.stored (hfirst.lookup_eq hagg)
    obtain ⟨-, hkey', -⟩ := h₃.stored (hans'.lookup_eq hagg)
    rw [heq] at hkey'
    exact hne (hkey.unique hkey')

end

/-! Three calls of the sample function from an aggressive cache. The first caller tracks `y`, the
others track nothing and are answered by the result of the first. -/

namespace SimilarCalls

def callers : Context :=
  let second := finalState (Action.newReachedSet { location := 0 } (.ofList ["y"])
    (Sample.start { aggressiveCaching := true }))
  let tracking := finalState (Action.addSuccessor 1 { location := 10 } second)
  let one := finalState
    (Action.addSuccessor 0 { location := 10, values := .ofList [("x", 1)] } tracking)
  finalState (Action.addSuccessor 0 { location := 10, values := .ofList [("x", 2)] } one)

def answered : Context := finalState (Action.resolveCall 2 callers)

def similar : Context := finalState (Action.resolveCall 3 answered)

def explored : Context := finalState (run Sample.program 100 similar)

def key : Key := ⟨{ location := 10 }, ∅, 10⟩

theorem proceeds : Proceeds (Sample.start { aggressiveCaching := true }) answered := by
  unfold answered callers
  refine .resolveCall (.addSuccessor (.addSuccessor (.addSuccessor ?_ ..) ..) ..) _
  exact .newReachedSet .refl ..

end SimilarCalls

open SimilarCalls in
theorem similar_results_shared :
    Action.resolveCall 3 answered = .ok (.hit 2) similar ∧ answered.reducedFor 3 = .ok key ∧
    explored.reducedFor 4 = .ok key ∧
    ∃ res c, Action.resolveCall 4 explored = .ok res c ∧ res.set = 2 ∧ res.isHit = true ∧
      c.sets.size = explored.sets.size ∧ c.EntersAt 2 key := by
  have hvalue : value? (Action.resolveCall 3 answered) = some (.hit 2) := by decide +kernel
  obtain ⟨res, h⟩ := ok_of_value? (r := Action.resolveCall 3 answered) (by rw [hvalue]; rfl)
  rw [h] at hvalue
  cases hvalue
  obtain ⟨res', h'⟩ := ok_of_value? (r := Action.resolveCall 4 explored) (by decide +kernel)
  have hK : answered.reducedFor 3 = .ok key := by decide +kernel
  have hK' : explored.reducedFor 4 = .ok key := by decide +kernel
  obtain ⟨hshared, hfirst, -, -⟩ :=
    block_results_shared proceeds hK h (.run .refl Sample.program 100) hK' h'
  obtain ⟨hset, hhit, hsize⟩ := hshared rfl
  refine ⟨h, hK, hK', res', _, h', hset, hhit, hsize, hfirst⟩

end Blockwise
