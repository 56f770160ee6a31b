import Blockwise.Links
import Mathlib.Logic.Relation

/-!
Chains of links. The walk behind a node is cut off after as many hops as there are links, and one
more. Where no link leads back, no two hops of a walk use the same link, so the cut never comes
before the end of the chain. Links are forgotten from their outer ends inwards when a node goes
together with everything that leads to it, and then the chains of the other nodes stay whole.
-/
namespace Blockwise.Links

open Relation (ReflTransGen TransGen)

variable {l : Links} {n m e x : NodeId} {hops : Nat} {destroyed : NodeId → Bool}

def Link (l : Links) (e x : NodeId) : Prop := l.reducedOf e = some x

/-- No chain of links leads back to where it began. -/
def Acyclic (l : Links) : Prop := ∀ n, ¬ TransGen l.Link n n

theorem acyclic_of_descending (h : ∀ {e x}, l.reducedOf e = some x → x < e) : l.Acyclic := by
  have hdown : ∀ {n m}, TransGen l.Link n m → m < n := by
    intro n m hnm
    induction hnm with
    | single hlink => exact h hlink
    | tail _ hlink ih => exact Nat.lt_trans (h hlink) ih
  exact fun n hn => Nat.lt_irrefl n (hdown hn)

theorem reaches_follow (l : Links) (hops : Nat) (n : NodeId) :
    ReflTransGen l.Link n (l.follow hops n) := by
  induction hops generalizing n with
  | zero => exact .refl
  | succ hops ih =>
    rw [follow]
    cases hx : l.reducedOf n with
    | none => exact .refl
    | some x => exact .head hx (ih x)

theorem reducedOf_follow {rank : NodeId → Nat} (hrank : ∀ {e x}, l.Link e x → rank x < rank e)
    (hops : Nat) (hn : rank n < hops) : l.reducedOf (l.follow hops n) = none := by
  induction hops generalizing n with
  | zero => exact absurd hn (Nat.not_lt_zero _)
  | succ hops ih =>
    rw [follow]
    cases hx : l.reducedOf n with
    | none => exact hx
    | some x =>
      have hlt := hrank hx
      exact ih (by omega)

theorem end_unique {k : NodeId} (hm : ReflTransGen l.Link n m) (hmend : l.reducedOf m = none)
    (hk : ReflTransGen l.Link n k) (hkend : l.reducedOf k = none) : k = m := by
  have hunique : Relator.RightUnique l.Link := fun _ _ _ h h' => Option.some.inj (h.symm.trans h')
  have hstuck : ∀ {a b}, l.reducedOf a = none → ReflTransGen l.Link a b → b = a := by
    intro a b hend hab
    rcases hab.cases_head with rfl | ⟨c, hac, -⟩
    · rfl
    · rw [Link, hend] at hac
      cases hac
  rcases ReflTransGen.total_of_right_unique hunique hm hk with hmk | hkm
  · exact hstuck hmend hmk
  · exact (hstuck hkend hkm).symm

open Classical in
/-- The number of links that are met on the way from a node, also where the way is a cycle. -/
noncomputable def ahead (l : Links) (n : NodeId) : Nat :=
  (l.exits.entries.filter fun e => ReflTransGen l.Link n e.1).length

theorem ahead_le (l : Links) (n : NodeId) : l.ahead n ≤ l.exits.size := List.length_filter_le ..

namespace Acyclic

variable (h : l.Acyclic)

include h

theorem ahead_lt (hx : l.Link e x) : l.ahead x < l.ahead e := by
  classical
  have hback : ¬ ReflTransGen l.Link x e := fun hxe => h e (.head' hx hxe)
  have hmem : (e, x) ∈ l.exits.entries := Table.mem_entries_iff.2 hx
  have hfilter : l.exits.entries.filter (fun a => ReflTransGen l.Link x a.1) =
      (l.exits.entries.filter fun a => ReflTransGen l.Link e a.1).filter
        fun a => ReflTransGen l.Link x a.1 := by
    rw [List.filter_filter]
    refine List.filter_congr fun a _ => ?_
    by_cases ha : ReflTransGen l.Link x a.1
    · simp [ha, ReflTransGen.head hx ha]
    · simp [ha]
  unfold ahead
  rw [hfilter, List.length_filter_lt_length_iff_exists]
  exact ⟨(e, x), List.mem_filter.2 ⟨hmem, by simp [ReflTransGen.refl]⟩, by simpa using hback⟩

theorem reducedOf_mostInner (n : NodeId) : l.reducedOf (l.mostInner n) = none :=
  reducedOf_follow h.ahead_lt _ (Nat.lt_succ_of_le (l.ahead_le n))

theorem mostInner_eq (hm : ReflTransGen l.Link n m) (hend : l.reducedOf m = none) :
    l.mostInner n = m :=
  end_unique hm hend (l.reaches_follow _ n) (h.reducedOf_mostInner n)

theorem mostInner_of_reaches (hm : ReflTransGen l.Link n m) : l.mostInner m = l.mostInner n :=
  (h.mostInner_eq (hm.trans (l.reaches_follow _ m)) (h.reducedOf_mostInner m)).symm

end Acyclic

/-! ### Forgetting links -/

theorem link_of_prune (hlink : (l.prune destroyed).Link e x) : l.Link e x := by
  rw [Link, reducedOf_prune, Option.filter_eq_some_iff] at hlink
  exact hlink.1

theorem Acyclic.prune (h : l.Acyclic) (destroyed : NodeId → Bool) : (l.prune destroyed).Acyclic :=
  fun n hn => h n (TransGen.mono (fun _ _ => link_of_prune) _ _ hn)

section Prune

variable (hup : ∀ e x, l.reducedOf e = some x → destroyed x = true → destroyed e = true)

include hup

theorem kept_of_link (he : destroyed e = false) (hlink : l.Link e x) : destroyed x = false := by
  cases hx : destroyed x with
  | false => rfl
  | true => exact absurd (hup e x hlink hx) (by simp [he])

theorem reducedOf_prune_of_kept (hn : destroyed n = false) :
    (l.prune destroyed).reducedOf n = l.reducedOf n := by
  rw [reducedOf_prune]
  cases hx : l.reducedOf n with
  | none => rfl
  | some x => simp [hn, kept_of_link hup hn hx]

theorem reaches_prune (hn : destroyed n = false) (hm : ReflTransGen l.Link n m) :
    destroyed m = false ∧ ReflTransGen (l.prune destroyed).Link n m := by
  induction hm with
  | refl => exact ⟨hn, .refl⟩
  | @tail a b _ hab ih =>
    obtain ⟨ha, hchain⟩ := ih
    exact ⟨kept_of_link hup ha hab, hchain.tail ((reducedOf_prune_of_kept hup ha).trans hab)⟩

theorem mostInner_prune (h : l.Acyclic) (hn : destroyed n = false) :
    (l.prune destroyed).mostInner n = l.mostInner n := by
  obtain ⟨hkept, hchain⟩ := reaches_prune hup hn (l.reaches_follow _ n)
  refine (h.prune destroyed).mostInner_eq hchain ?_
  exact (reducedOf_prune_of_kept hup hkept).trans (h.reducedOf_mostInner n)

end Prune

/-- Without cycles the innermost node is the end of the chain, the same for all nodes of the chain,
also when links are forgotten. -/
theorem mostInner_ends_chain (h : l.Acyclic) (n : NodeId) :
    l.reducedOf (l.mostInner n) = none ∧ ReflTransGen l.Link n (l.mostInner n) ∧
      (∀ m, ReflTransGen l.Link n m → l.mostInner m = l.mostInner n) ∧
      ∀ destroyed : NodeId → Bool,
        (∀ e x, l.reducedOf e = some x → destroyed x = true → destroyed e = true) →
          destroyed n = false → (l.prune destroyed).mostInner n = l.mostInner n :=
  ⟨h.reducedOf_mostInner n, l.reaches_follow _ n, fun _ => h.mostInner_of_reaches,
    fun _ hup => mostInner_prune hup h⟩

namespace NestedReturns

def links : Links :=
  (((({} : Links).linkExpanded 4 2).linkEntry 3 1).linkExpanded 6 4).linkExpanded 7 2

theorem links_cases {e x : NodeId} (hx : links.reducedOf e = some x) :
    (e = 4 ∧ x = 2) ∨ (e = 6 ∧ x = 4) ∨ (e = 7 ∧ x = 2) := by
  have hmem : (e, x) ∈ [((4, 2) : NodeId × NodeId), (6, 4), (7, 2)] := Table.mem_entries_iff.2 hx
  simpa using hmem

theorem links_acyclic : links.Acyclic := by
  refine acyclic_of_descending fun {e x} hx => ?_
  rcases links_cases hx with ⟨rfl, rfl⟩ | ⟨rfl, rfl⟩ | ⟨rfl, rfl⟩ <;> decide

theorem pruned_chain : links.Acyclic ∧
    (∀ e x, links.reducedOf e = some x → (decide (x = 4 ∨ x = 6)) = true →
      (decide (e = 4 ∨ e = 6)) = true) ∧ ReflTransGen links.Link 6 2 ∧
    (links.mostInner 2 = links.mostInner 6) ∧
    (links.prune fun n => n = 4 ∨ n = 6).mostInner 7 = links.mostInner 7 := by
  have hup : ∀ e x, links.reducedOf e = some x → (decide (x = 4 ∨ x = 6)) = true →
      (decide (e = 4 ∨ e = 6)) = true := by
    intro e x hx
    rcases links_cases hx with ⟨rfl, rfl⟩ | ⟨rfl, rfl⟩ | ⟨rfl, rfl⟩ <;> decide
  have hchain : ReflTransGen links.Link 6 2 := .head (b := 4) rfl (.single rfl)
  have hsix := mostInner_ends_chain links_acyclic 6
  have hseven := mostInner_ends_chain links_acyclic 7
  exact ⟨links_acyclic, hup, hchain, hsix.2.2.1 2 hchain, hseven.2.2.2 _ hup (by decide)⟩

end NestedReturns

end Blockwise.Links
