import Mathlib.Data.ENat.Lattice
import Mathlib.Order.Bounds.Basic
import Mathlib.Order.CompletePartialOrder
import Blockwise.Proofs.Outcome
import Blockwise.Repair.OpenCalls

/-!
The calls that are open at an element of a path, as brackets: a block entry opens one, and every
link behind a node closes the latest one that is still open. The links need not be well formed. A
node in a cycle of links leaves more blocks than any path can enter, so the count of the links is a
number that may be infinite, and it is the stack of the open calls that ends the walk along them.
-/
namespace Blockwise

namespace Links

variable {l : Links} {nodes : List NodeId} {opened left : List PathIndex} {n : NodeId} {h j k : ℕ}

def behind (l : Links) : ℕ → NodeId → Option NodeId
  | 0, n => some n
  | k + 1, n => (l.reducedOf n).bind (l.behind k)

/-- How many links can be followed from a node: infinitely many from a node in a cycle. -/
noncomputable def hops (l : Links) (n : NodeId) : ℕ∞ :=
  ⨆ k : {k : ℕ // (l.behind k n).isSome = true}, (k.val : ℕ∞)

theorem behind_isSome_of_succ (hs : (l.behind (k + 1) n).isSome = true) :
    (l.behind k n).isSome = true := by
  induction k generalizing n with
  | zero => rfl
  | succ k ih =>
    rw [behind] at hs ⊢
    cases hx : l.reducedOf n with
    | none => simp [hx] at hs
    | some exit => exact ih (by simpa [hx] using hs)

theorem behind_isSome_mono (hkj : k ≤ j) (hs : (l.behind j n).isSome = true) :
    (l.behind k n).isSome = true := by
  induction j, hkj using Nat.le_induction with
  | base => exact hs
  | succ j _ ih => exact ih (behind_isSome_of_succ hs)

theorem natCast_le_hops : (k : ℕ∞) ≤ l.hops n ↔ (l.behind k n).isSome = true := by
  constructor
  · intro hk
    by_contra hno
    cases k with
    | zero => exact hno rfl
    | succ k =>
      have hle : l.hops n ≤ (k : ℕ∞) := iSup_le fun i => by
        have hik : i.val ≤ k := by
          by_contra hlt
          exact hno (behind_isSome_mono (by omega) i.2)
        exact_mod_cast hik
      have : ((k + 1 : ℕ) : ℕ∞) ≤ (k : ℕ∞) := hk.trans hle
      exact absurd (by exact_mod_cast this : k + 1 ≤ k) (Nat.not_succ_le_self k)
  · intro hk
    exact le_iSup (fun i : {k : ℕ // (l.behind k n).isSome = true} => (i.val : ℕ∞)) ⟨k, hk⟩

theorem natCast_succ_le_hops {exit : NodeId} (hx : l.reducedOf n = some exit) :
    ((k + 1 : ℕ) : ℕ∞) ≤ l.hops n ↔ (k : ℕ∞) ≤ l.hops exit := by
  rw [natCast_le_hops, natCast_le_hops, behind, hx, Option.bind_some]

theorem hops_of_unlinked (hx : l.reducedOf n = none) : l.hops n = 0 := by
  have hno : ¬ ((1 : ℕ) : ℕ∞) ≤ l.hops n := by
    rw [natCast_le_hops, behind, hx]
    exact Bool.false_ne_true
  rwa [Nat.cast_one, Order.one_le_iff_ne_zero, not_not] at hno

theorem hops_of_linked {exit : NodeId} (hx : l.reducedOf n = some exit) :
    l.hops n = l.hops exit + 1 := by
  refine ENat.eq_of_forall_natCast_le_iff fun m => ?_
  cases m with
  | zero => simp
  | succ m =>
    rw [natCast_succ_le_hops hx, Nat.cast_succ]
    exact (WithTop.add_le_add_iff_right WithTop.one_ne_top).symm

theorem behind_add (l : Links) (j k : ℕ) (n : NodeId) :
    l.behind (j + k) n = (l.behind j n).bind (l.behind k) := by
  induction j generalizing n with
  | zero => rw [Nat.zero_add, behind, Option.bind_some]
  | succ j ih =>
    rw [Nat.succ_add, behind, behind, Option.bind_assoc]
    exact congrArg _ (funext ih)

theorem hops_of_cycle (hc : l.behind (k + 1) n = some n) : l.hops n = ⊤ := by
  have hround (m : ℕ) : l.behind (m * (k + 1)) n = some n := by
    induction m with
    | zero => rw [Nat.zero_mul, behind]
    | succ m ih => rw [Nat.succ_mul, behind_add, ih, Option.bind_some, hc]
  refine ENat.eq_top_iff_forall_ge.2 fun m => natCast_le_hops.2 ?_
  exact behind_isSome_mono (Nat.le_mul_of_pos_right m k.succ_pos) (by rw [hround]; rfl)

theorem closeCalls_eq_some : l.closeCalls opened n = some left ↔
    ∃ h : ℕ, l.hops n = h ∧ h ≤ opened.length ∧ left = opened.drop h := by
  induction opened generalizing n with
  | nil =>
    rw [closeCalls]
    cases hx : l.reducedOf n with
    | none => simp [hops_of_unlinked hx, eq_comm]
    | some exit => simp [hops_of_linked hx]
  | cons call outer ih =>
    rw [closeCalls]
    cases hx : l.reducedOf n with
    | none => simp [hops_of_unlinked hx, eq_comm]
    | some exit =>
      simp only [hops_of_linked hx, ih]
      constructor
      · rintro ⟨h, hh, hle, rfl⟩
        exact ⟨h + 1, by rw [hh, Nat.cast_succ], Nat.succ_le_succ hle, rfl⟩
      · rintro ⟨h, hh, hle, rfl⟩
        cases h with
        | zero => simp at hh
        | succ h =>
          rw [Nat.cast_succ] at hh
          exact ⟨h, WithTop.add_right_cancel WithTop.one_ne_top hh, Nat.le_of_succ_le_succ hle, rfl⟩

theorem closeCalls_eq_none : l.closeCalls opened n = none ↔ (opened.length : ℕ∞) < l.hops n := by
  rw [← not_iff_not, not_lt, ← ne_eq, Option.ne_none_iff_exists']
  simp only [closeCalls_eq_some]
  constructor
  · rintro ⟨left, h, hh, hle, -⟩
    rw [hh]
    exact_mod_cast hle
  · intro hle
    obtain ⟨h, hh⟩ := ENat.ne_top_iff_exists.1 (ne_top_of_le_ne_top (ENat.natCast_ne_top _) hle)
    rw [← hh] at hle
    exact ⟨_, h, hh.symm, by exact_mod_cast hle, rfl⟩

/-- The calls that are open, innermost first, once the elements before `j` are passed; an error if
one of these leaves a block that was not entered. -/
def callsBefore (l : Links) (nodes : List NodeId) (j : PathIndex) :
    Except PathDefect (List PathIndex) :=
  l.openCalls [] (nodes.take j).zipIdx

theorem openCalls_append (l : Links) (opened : List PathIndex)
    (before after : List (NodeId × PathIndex)) :
    l.openCalls opened (before ++ after) =
      l.openCalls opened before >>= fun calls => l.openCalls calls after := by
  induction before generalizing opened with
  | nil => rfl
  | cons head rest ih =>
    obtain ⟨n, element⟩ := head
    rw [List.cons_append, openCalls, openCalls]
    split
    · rfl
    · exact ih _

theorem callsBefore_succ (hn : nodes[j]? = some n) :
    l.callsBefore nodes (j + 1) =
      l.callsBefore nodes j >>= fun opened => l.openCalls opened [(n, j)] := by
  have hj : j < nodes.length := (List.getElem?_eq_some_iff.1 hn).1
  have htake : nodes.take (j + 1) = nodes.take j ++ [n] := by
    rw [List.take_add_one, hn, Option.toList_some]
  rw [callsBefore, htake, List.zipIdx_append, openCalls_append, List.length_take_of_le hj.le,
    Nat.zero_add, List.zipIdx_singleton]
  rfl

theorem callsBefore_succ_eq_ok (hn : nodes[j]? = some n) :
    l.callsBefore nodes (j + 1) = .ok left ↔
      ∃ opened, l.callsBefore nodes j = .ok opened ∧ ∃ h : ℕ, l.hops n = h ∧ h ≤ opened.length ∧
        left = if l.isBlockEntry n then j :: opened.drop h else opened.drop h := by
  rw [callsBefore_succ hn, except_bind_eq_ok]
  refine exists_congr fun opened => and_congr_right fun _ => ?_
  cases hclose : l.closeCalls opened n with
  | none =>
    simp only [openCalls, hclose, reduceCtorEq, false_iff]
    rintro ⟨h, hh, hle, -⟩
    rw [closeCalls_eq_none, hh] at hclose
    exact absurd hle (not_le.2 (by exact_mod_cast hclose))
  | some rest =>
    obtain ⟨h, hh, hle, rfl⟩ := closeCalls_eq_some.1 hclose
    simp only [openCalls, hclose, Except.ok.injEq]
    constructor
    · exact fun hleft => ⟨h, hh, hle, hleft.symm⟩
    · rintro ⟨h', hh', -, rfl⟩
      rw [hh, Nat.cast_inj] at hh'
      rw [hh']

theorem callsBefore_succ_eq_error {d : PathDefect} (hn : nodes[j]? = some n) :
    l.callsBefore nodes (j + 1) = .error d ↔
      l.callsBefore nodes j = .error d ∨
        ∃ opened, l.callsBefore nodes j = .ok opened ∧ (opened.length : ℕ∞) < l.hops n ∧
          d = .unenteredBlock j := by
  rw [callsBefore_succ hn]
  cases l.callsBefore nodes j with
  | error d' => simp [bind, Except.bind]
  | ok opened =>
    simp only [bind, Except.bind, openCalls, reduceCtorEq, Except.ok.injEq, exists_eq_left',
      false_or, ← closeCalls_eq_none]
    cases l.closeCalls opened n with
    | none => simp only [Except.error.injEq, true_and, eq_comm]
    | some left => simp only [reduceCtorEq, false_and]

def entriesBefore (l : Links) (nodes : List NodeId) (i : PathIndex) : ℕ :=
  (nodes.take i).countP l.isBlockEntry

noncomputable def hopsBefore (l : Links) (nodes : List NodeId) (i : PathIndex) : ℕ∞ :=
  ((nodes.take i).map l.hops).sum

/-- The elements up to this one leave more blocks than those before it enter. -/
def Overdrawn (l : Links) (nodes : List NodeId) (i : PathIndex) : Prop :=
  i < nodes.length ∧ (l.entriesBefore nodes i : ℕ∞) < l.hopsBefore nodes (i + 1)

theorem entriesBefore_succ (hn : nodes[j]? = some n) :
    l.entriesBefore nodes (j + 1) =
      l.entriesBefore nodes j + if l.isBlockEntry n = true then 1 else 0 := by
  rw [entriesBefore, List.take_add_one, hn, Option.toList_some, List.countP_append,
    List.countP_singleton, entriesBefore]

theorem hopsBefore_succ (hn : nodes[j]? = some n) :
    l.hopsBefore nodes (j + 1) = l.hopsBefore nodes j + l.hops n := by
  rw [hopsBefore, List.take_add_one, hn, Option.toList_some, List.map_append, List.sum_append,
    hopsBefore, List.map_singleton, List.sum_singleton]

theorem callsBefore_zero : l.callsBefore nodes 0 = .ok [] := rfl

theorem callsBefore_take :
    l.callsBefore (nodes.take j) (nodes.take j).length = l.callsBefore nodes j := by
  rw [callsBefore, List.take_length, callsBefore]

theorem hopsBefore_add_length (hj : j ≤ nodes.length) (ho : l.callsBefore nodes j = .ok opened) :
    l.hopsBefore nodes j + opened.length = l.entriesBefore nodes j := by
  induction j generalizing opened with
  | zero =>
    cases ho
    simp [hopsBefore, entriesBefore]
  | succ j ih =>
    have hn := List.getElem?_eq_getElem hj
    obtain ⟨before, hbefore, h, hh, hle, rfl⟩ := (callsBefore_succ_eq_ok hn).1 ho
    have hlen : before.length = h + (before.drop h).length := by
      rw [List.length_drop, Nat.add_sub_cancel' hle]
    have hbal := ih (Nat.le_of_succ_le hj) hbefore
    rw [hlen, Nat.cast_add, ← add_assoc] at hbal
    rw [hopsBefore_succ hn, entriesBefore_succ hn, hh, Nat.cast_add, ← hbal]
    split
    · rw [List.length_cons, Nat.cast_add, ← add_assoc]
    · rw [Nat.cast_zero, add_zero]

theorem overdrawn_iff (ho : l.callsBefore nodes j = .ok opened) (hn : nodes[j]? = some n) :
    l.Overdrawn nodes j ↔ (opened.length : ℕ∞) < l.hops n := by
  have hj := (List.getElem?_eq_some_iff.1 hn).1
  have hbal := hopsBefore_add_length hj.le ho
  have hfin : l.hopsBefore nodes j ≠ ⊤ := by
    intro htop
    rw [htop, top_add] at hbal
    exact ENat.natCast_ne_top _ hbal.symm
  rw [Overdrawn, ← hbal, hopsBefore_succ hn, ENat.add_lt_add_iff_left hfin]
  exact and_iff_right hj

theorem callsBefore_eq_error {d : PathDefect} (hj : j ≤ nodes.length) :
    l.callsBefore nodes j = .error d ↔
      ∃ i, IsLeast {i | i < j ∧ l.Overdrawn nodes i} i ∧ d = .unenteredBlock i := by
  induction j generalizing d with
  | zero => simp [callsBefore_zero, IsLeast]
  | succ j ih =>
    replace ih {d : PathDefect} := ih (d := d) (Nat.le_of_succ_le hj)
    have hn := List.getElem?_eq_getElem hj
    rw [callsBefore_succ_eq_error hn, ih]
    constructor
    · rintro (⟨i, ⟨⟨hi, hover⟩, hleast⟩, rfl⟩ | ⟨opened, ho, hlt, rfl⟩)
      · refine ⟨i, ⟨⟨Nat.lt_succ_of_lt hi, hover⟩, fun i' hi' => ?_⟩, rfl⟩
        rcases lt_or_ge i' j with hlt | hge
        · exact hleast ⟨hlt, hi'.2⟩
        · exact hi.le.trans hge
      · refine ⟨j, ⟨⟨j.lt_succ_self, (overdrawn_iff ho hn).2 hlt⟩, fun i hi => ?_⟩, rfl⟩
        by_contra hij
        classical
        have hex : ∃ i, i < j ∧ l.Overdrawn nodes i := ⟨i, not_le.1 hij, hi.2⟩
        rw [ih.2 ⟨_, Nat.isLeast_find hex, rfl⟩] at ho
        cases ho
    · rintro ⟨i, ⟨⟨hi, hover⟩, hleast⟩, rfl⟩
      rcases Nat.lt_succ_iff_lt_or_eq.1 hi with hi | rfl
      · exact Or.inl ⟨i, ⟨⟨hi, hover⟩, fun i' hi' => hleast ⟨Nat.lt_succ_of_lt hi'.1, hi'.2⟩⟩, rfl⟩
      · cases hcalls : l.callsBefore nodes i with
        | error d =>
          obtain ⟨first, ⟨⟨hlt, hfirst⟩, -⟩, -⟩ := ih.1 hcalls
          exact absurd (hleast ⟨Nat.lt_succ_of_lt hlt, hfirst⟩) (not_le.2 hlt)
        | ok opened => exact Or.inr ⟨opened, rfl, (overdrawn_iff hcalls hn).1 hover, rfl⟩

def Enters (l : Links) (nodes : List NodeId) (e : PathIndex) : Prop :=
  ∃ n, nodes[e]? = some n ∧ l.isBlockEntry n = true

def Leaves (l : Links) (nodes : List NodeId) (j : PathIndex) (k : ℕ) : Prop :=
  ∃ n, nodes[j]? = some n ∧ (k : ℕ∞) < l.hops n

/-- The block entries before the hop `k` of the element `j` that are the partner of no hop before
it. -/
def free (l : Links) (nodes : List NodeId) (partner : PathIndex → ℕ → PathIndex) (j : PathIndex)
    (k : ℕ) : Set PathIndex :=
  {e | e < j ∧ l.Enters nodes e ∧
    ∀ j' k', l.Leaves nodes j' k' → j' < j ∨ j' = j ∧ k' < k → partner j' k' ≠ e}

/-- Each hop has as its partner the latest block entry that is still free. -/
def Matches (l : Links) (nodes : List NodeId) (partner : PathIndex → ℕ → PathIndex) : Prop :=
  ∀ j k, l.Leaves nodes j k → IsGreatest (l.free nodes partner j k) (partner j k)

def Unmatched (l : Links) (nodes : List NodeId) (partner : PathIndex → ℕ → PathIndex)
    (e : PathIndex) : Prop :=
  l.Enters nodes e ∧ ∀ j k, l.Leaves nodes j k → partner j k ≠ e

variable {partner : PathIndex → ℕ → PathIndex} {e : PathIndex}

theorem callsBefore_descending (hj : j ≤ nodes.length) (ho : l.callsBefore nodes j = .ok opened) :
    opened.Pairwise (· > ·) ∧ ∀ e ∈ opened, e < j := by
  induction j generalizing opened with
  | zero =>
    cases ho
    exact ⟨List.Pairwise.nil, fun e he => absurd he List.not_mem_nil⟩
  | succ j ih =>
    obtain ⟨before, hbefore, h, -, -, rfl⟩ :=
      (callsBefore_succ_eq_ok (List.getElem?_eq_getElem hj)).1 ho
    obtain ⟨hdesc, hlt⟩ := ih (Nat.le_of_succ_le hj) hbefore
    have hdrop : ∀ e ∈ before.drop h, e < j := fun e he => hlt e (List.mem_of_mem_drop he)
    split
    · refine ⟨List.pairwise_cons.2 ⟨hdrop, hdesc.drop⟩, List.forall_mem_cons.2 ⟨j.lt_succ_self, ?_⟩⟩
      exact fun e he => Nat.lt_succ_of_lt (hdrop e he)
    · exact ⟨hdesc.drop, fun e he => Nat.lt_succ_of_lt (hdrop e he)⟩

theorem mem_free_succ (hl : l.Leaves nodes j k) :
    e ∈ l.free nodes partner j (k + 1) ↔ e ∈ l.free nodes partner j k ∧ partner j k ≠ e := by
  constructor
  · rintro ⟨hj, hentry, hfree⟩
    refine ⟨⟨hj, hentry, fun j' k' hl' hbefore => hfree j' k' hl' ?_⟩,
      hfree j k hl (Or.inr ⟨rfl, k.lt_succ_self⟩)⟩
    exact hbefore.imp_right fun hsame => ⟨hsame.1, Nat.lt_succ_of_lt hsame.2⟩
  · rintro ⟨⟨hj, hentry, hfree⟩, hne⟩
    refine ⟨hj, hentry, fun j' k' hl' hbefore => ?_⟩
    rcases hbefore with hlt | ⟨rfl, hlt⟩
    · exact hfree j' k' hl' (Or.inl hlt)
    · rcases Nat.lt_succ_iff_lt_or_eq.1 hlt with hlt | rfl
      · exact hfree j' k' hl' (Or.inr ⟨rfl, hlt⟩)
      · exact hne

theorem mem_free_next (hn : nodes[j]? = some n) (hh : l.hops n = h)
    (hback : ∀ j' k', l.Leaves nodes j' k' → j' ≤ j → partner j' k' < j') :
    e ∈ l.free nodes partner (j + 1) 0 ↔
      e ∈ l.free nodes partner j h ∨ e = j ∧ l.isBlockEntry n = true := by
  constructor
  · rintro ⟨he, hentry, hfree⟩
    rcases Nat.lt_succ_iff_lt_or_eq.1 he with he | rfl
    · refine Or.inl ⟨he, hentry, fun j' k' hl hbefore => hfree j' k' hl (Or.inl ?_)⟩
      rcases hbefore with hlt | ⟨rfl, -⟩
      · exact Nat.lt_succ_of_lt hlt
      · exact j'.lt_succ_self
    · obtain ⟨n', hn', hentry⟩ := hentry
      obtain rfl := Option.some.inj (hn.symm.trans hn')
      exact Or.inr ⟨rfl, hentry⟩
  · rintro (⟨he, hentry, hfree⟩ | ⟨rfl, hentry⟩)
    · refine ⟨Nat.lt_succ_of_lt he, hentry, fun j' k' hl hbefore => hfree j' k' hl ?_⟩
      have hle : j' ≤ j :=
        Nat.lt_succ_iff.1 (hbefore.resolve_right fun hk => Nat.not_lt_zero _ hk.2)
      rcases hle.lt_or_eq with hlt | rfl
      · exact Or.inl hlt
      · obtain ⟨n', hn', hk⟩ := hl
        obtain rfl := Option.some.inj (hn.symm.trans hn')
        rw [hh] at hk
        exact Or.inr ⟨rfl, by exact_mod_cast hk⟩
    · refine ⟨e.lt_succ_self, ⟨n, hn, hentry⟩, fun j' k' hl hbefore => ?_⟩
      have hle : j' ≤ e :=
        Nat.lt_succ_iff.1 (hbefore.resolve_right fun hk => Nat.not_lt_zero _ hk.2)
      exact ((hback j' k' hl hle).trans_le hle).ne

/-- The partner of the hop is the call that it closes: that below those which the hops before it at
the same element close. -/
def ClosesPartner (l : Links) (nodes : List NodeId) (partner : PathIndex → ℕ → PathIndex)
    (j : PathIndex) (k : ℕ) : Prop :=
  ∀ opened, l.callsBefore nodes j = .ok opened → opened[k]? = some (partner j k)

theorem exists_callsBefore (hj : j ≤ nodes.length) (ho : l.callsBefore nodes j = .ok opened)
    {i : PathIndex} (hij : i ≤ j) : ∃ before, l.callsBefore nodes i = .ok before := by
  induction j, hij using Nat.le_induction generalizing opened with
  | base => exact ⟨opened, ho⟩
  | succ j _ ih =>
    obtain ⟨before, hbefore, -⟩ := (callsBefore_succ_eq_ok (List.getElem?_eq_getElem hj)).1 ho
    exact ih (Nat.le_of_succ_le hj) hbefore

theorem partner_lt (hj : j ≤ nodes.length) (ho : l.callsBefore nodes j = .ok opened)
    (hp : l.ClosesPartner nodes partner j k) : partner j k < j :=
  (callsBefore_descending hj ho).2 _ (List.mem_of_getElem? (hp opened ho))

theorem mem_drop_iff_free (hj : j ≤ nodes.length) (ho : l.callsBefore nodes j = .ok opened)
    (hfree : ∀ e, e ∈ opened ↔ e ∈ l.free nodes partner j 0)
    (hp : ∀ k' < k, l.Leaves nodes j k' ∧ l.ClosesPartner nodes partner j k') :
    ∀ e, e ∈ opened.drop k ↔ e ∈ l.free nodes partner j k := by
  induction k with
  | zero => exact hfree
  | succ k ih =>
    intro e
    obtain ⟨hl, hpartner⟩ := hp k k.lt_succ_self
    obtain ⟨hlen, hget⟩ := List.getElem?_eq_some_iff.1 (hpartner opened ho)
    have hdrop : opened.drop k = partner j k :: opened.drop (k + 1) := by
      rw [List.drop_eq_getElem_cons hlen, hget]
    have hbelow := (List.pairwise_cons.1 (hdrop ▸ (callsBefore_descending hj ho).1.drop)).1
    rw [mem_free_succ hl, ← ih fun k' hk' => hp k' (Nat.lt_succ_of_lt hk'), hdrop, List.mem_cons]
    constructor
    · exact fun he => ⟨Or.inr he, (hbelow e he).ne'⟩
    · rintro ⟨rfl | he, hne⟩
      · exact absurd rfl hne
      · exact he

theorem mem_callsBefore_iff_free (hj : j ≤ nodes.length) (ho : l.callsBefore nodes j = .ok opened)
    (hp : ∀ j' k', l.Leaves nodes j' k' → j' < j → l.ClosesPartner nodes partner j' k') :
    ∀ e, e ∈ opened ↔ e ∈ l.free nodes partner j 0 := by
  induction j generalizing opened with
  | zero =>
    cases ho
    exact fun e => ⟨fun he => absurd he List.not_mem_nil, fun he => absurd he.1 (Nat.not_lt_zero e)⟩
  | succ j ih =>
    have hj' := Nat.le_of_succ_le hj
    have hn := List.getElem?_eq_getElem hj
    obtain ⟨before, hbefore, h, hh, hle, rfl⟩ := (callsBefore_succ_eq_ok hn).1 ho
    have hfree := ih hj' hbefore fun j' k' hl hlt => hp j' k' hl (Nat.lt_succ_of_lt hlt)
    have hleft := mem_drop_iff_free (k := h) hj' hbefore hfree fun k' hk' => by
      have hl : l.Leaves nodes j k' := ⟨_, hn, by rw [hh]; exact_mod_cast hk'⟩
      exact ⟨hl, hp j k' hl j.lt_succ_self⟩
    have hback : ∀ j' k', l.Leaves nodes j' k' → j' ≤ j → partner j' k' < j' := by
      intro j' k' hl hle'
      obtain ⟨opened', ho'⟩ := exists_callsBefore hj' hbefore hle'
      exact partner_lt (hle'.trans hj') ho' (hp j' k' hl (Nat.lt_succ_of_le hle'))
    intro e
    rw [mem_free_next hn hh hback, ← hleft]
    split
    · rename_i hentry
      simp [hentry, or_comm]
    · rename_i hentry
      simp [hentry]

theorem exists_callsBefore_of_leaves (ho : l.callsBefore nodes nodes.length = .ok opened)
    (hl : l.Leaves nodes j k) :
    j ≤ nodes.length ∧ ∃ before, l.callsBefore nodes j = .ok before ∧ k < before.length := by
  obtain ⟨n, hn, hk⟩ := hl
  have hj := (List.getElem?_eq_some_iff.1 hn).1
  obtain ⟨after, hafter⟩ := exists_callsBefore le_rfl ho hj
  obtain ⟨before, hbefore, h, hh, hle, -⟩ := (callsBefore_succ_eq_ok hn).1 hafter
  rw [hh] at hk
  exact ⟨hj.le, before, hbefore, lt_of_lt_of_le (by exact_mod_cast hk) hle⟩

theorem isGreatest_free_iff (hj : j ≤ nodes.length) (ho : l.callsBefore nodes j = .ok opened)
    (hk : k < opened.length)
    (hfree : ∀ e, e ∈ opened.drop k ↔ e ∈ l.free nodes partner j k) :
    IsGreatest (l.free nodes partner j k) (partner j k) ↔ l.ClosesPartner nodes partner j k := by
  have hdrop : opened.drop k = opened[k] :: opened.drop (k + 1) := List.drop_eq_getElem_cons hk
  have hbelow := (List.pairwise_cons.1 (hdrop ▸ (callsBefore_descending hj ho).1.drop)).1
  have hgreatest : IsGreatest (l.free nodes partner j k) opened[k] := by
    simp only [hdrop, List.mem_cons] at hfree
    refine ⟨(hfree _).1 (Or.inl rfl), fun e he => ?_⟩
    rcases (hfree e).2 he with rfl | he
    · exact le_rfl
    · exact (hbelow e he).le
  constructor
  · intro hp opened' ho'
    obtain rfl := Except.ok.inj (ho.symm.trans ho')
    rw [List.getElem?_eq_getElem hk, hp.unique hgreatest]
  · intro hp
    obtain ⟨_, hget⟩ := List.getElem?_eq_some_iff.1 (hp opened ho)
    exact hget ▸ hgreatest

/-- There is one matching: each hop is matched with the call that it closes. -/
theorem matches_iff (ho : l.callsBefore nodes nodes.length = .ok opened) :
    l.Matches nodes partner ↔
      ∀ j k, l.Leaves nodes j k → l.ClosesPartner nodes partner j k := by
  have hstep (j : PathIndex) (k : ℕ) (hl : l.Leaves nodes j k)
      (hp : ∀ j' k', l.Leaves nodes j' k' → j' < j ∨ j' = j ∧ k' < k →
        l.ClosesPartner nodes partner j' k') :
      IsGreatest (l.free nodes partner j k) (partner j k) ↔
        l.ClosesPartner nodes partner j k := by
    obtain ⟨hj, before, hbefore, hk⟩ := exists_callsBefore_of_leaves ho hl
    refine isGreatest_free_iff hj hbefore hk (mem_drop_iff_free hj hbefore ?_ fun k' hk' => ?_)
    · exact mem_callsBefore_iff_free hj hbefore fun j' k' hl' hlt => hp j' k' hl' (Or.inl hlt)
    · obtain ⟨n, hn, hkn⟩ := hl
      have hl' : l.Leaves nodes j k' := ⟨n, hn, lt_trans (by exact_mod_cast hk') hkn⟩
      exact ⟨hl', hp j k' hl' (Or.inr ⟨rfl, hk'⟩)⟩
  constructor
  · intro hm j
    induction j using Nat.strong_induction_on with
    | _ j ihj =>
      intro k
      induction k using Nat.strong_induction_on with
      | _ k ihk =>
        intro hl
        refine (hstep j k hl fun j' k' hl' hbefore => ?_).1 (hm j k hl)
        rcases hbefore with hlt | ⟨rfl, hlt⟩
        · exact ihj j' hlt k' hl'
        · exact ihk k' hlt hl'
  · exact fun hp j k hl => (hstep j k hl fun j' k' hl' _ => hp j' k' hl').2 (hp j k hl)

theorem exists_matches (ho : l.callsBefore nodes nodes.length = .ok opened) :
    ∃ partner, l.Matches nodes partner := by
  refine ⟨fun j k => ((l.callsBefore nodes j).toOption.getD [])[k]?.getD 0,
    (matches_iff ho).2 fun j k hl before hbefore => ?_⟩
  obtain ⟨-, before', hbefore', hk⟩ := exists_callsBefore_of_leaves ho hl
  obtain rfl := Except.ok.inj (hbefore.symm.trans hbefore')
  simp [hbefore, Except.toOption, hk]

theorem mem_callsBefore_iff_unmatched (ho : l.callsBefore nodes nodes.length = .ok opened)
    (hm : l.Matches nodes partner) : e ∈ opened ↔ l.Unmatched nodes partner e := by
  rw [mem_callsBefore_iff_free le_rfl ho fun j k hl _ => (matches_iff ho).1 hm j k hl]
  constructor
  · rintro ⟨-, hentry, hfree⟩
    refine ⟨hentry, fun j k hl => hfree j k hl (Or.inl ?_)⟩
    obtain ⟨n, hn, -⟩ := hl
    exact (List.getElem?_eq_some_iff.1 hn).1
  · rintro ⟨⟨n, hn, hentry⟩, hfree⟩
    exact ⟨(List.getElem?_eq_some_iff.1 hn).1, ⟨n, hn, hentry⟩, fun j k hl _ => hfree j k hl⟩

end Links

namespace Context

variable {c : Context} {path : Path} {target : PathIndex}

theorem relevantCalls_eq_ok (hp : path.nodes ≠ []) {opened : List PathIndex}
    (ho : c.links.callsBefore path.nodes target = .ok opened) :
    c.relevantCalls path target = .ok (0 :: opened.reverse) := by
  have hfirst : path.first = .ok 0 := if_neg (by simpa using hp)
  rw [Links.callsBefore] at ho
  rw [relevantCalls, hfirst, ho]
  rfl

theorem relevantCalls_eq_error (hp : path.nodes ≠ []) {fault : Fault} :
    c.relevantCalls path target = .error fault ↔
      ∃ i, IsLeast {i | c.links.Overdrawn (path.nodes.take target) i} i ∧
        fault = .malformedPath (.unenteredBlock i) := by
  have hbound : {i | i < (path.nodes.take target).length ∧
      c.links.Overdrawn (path.nodes.take target) i} =
        {i | c.links.Overdrawn (path.nodes.take target) i} :=
    Set.ext fun i => ⟨And.right, fun hi => ⟨hi.1, hi⟩⟩
  have herror (defect : PathDefect) := Links.callsBefore_eq_error (l := c.links)
    (d := defect) (le_refl (path.nodes.take target).length)
  simp only [hbound, Links.callsBefore_take] at herror
  cases hcalls : c.links.callsBefore path.nodes target with
  | ok opened =>
    rw [relevantCalls_eq_ok hp hcalls]
    simp only [reduceCtorEq, false_iff]
    rintro ⟨i, hi, -⟩
    rw [(herror (.unenteredBlock i)).2 ⟨i, hi, rfl⟩] at hcalls
    cases hcalls
  | error defect =>
    obtain ⟨i, hi, rfl⟩ := (herror defect).1 hcalls
    have hfirst : path.first = .ok 0 := if_neg (by simpa using hp)
    have heq : c.relevantCalls path target = .error (.malformedPath (.unenteredBlock i)) := by
      rw [Links.callsBefore] at hcalls
      rw [relevantCalls, hfirst, hcalls]
      rfl
    rw [heq, Except.error.injEq]
    constructor
    · exact fun hfault => ⟨i, hi, hfault.symm⟩
    · rintro ⟨i', hi', rfl⟩
      rw [hi.unique hi']

end Context

open Context

/-- For any links, the open calls of a path are the entries that stay unmatched when each link is
matched with the latest unmatched entry before it. -/
theorem relevantCalls_matches_brackets (c : Context) (path : Path) (hp : path.nodes ≠ [])
    (target : PathIndex) :
    ((∃ defect, c.relevantCalls path target = .error (.malformedPath defect)) ↔
      ∃ i, c.links.Overdrawn (path.nodes.take target) i) ∧
    ((¬ ∃ i, c.links.Overdrawn (path.nodes.take target) i) →
      (∃ partner, c.links.Matches (path.nodes.take target) partner) ∧
      ∀ partner, c.links.Matches (path.nodes.take target) partner →
        ∃ calls, c.relevantCalls path target = .ok (0 :: calls) ∧ calls.Pairwise (· < ·) ∧
          ∀ e, e ∈ calls ↔ c.links.Unmatched (path.nodes.take target) partner e) := by
  classical
  refine ⟨⟨?_, fun hover => ⟨_, (relevantCalls_eq_error hp).2 ⟨_, Nat.isLeast_find hover, rfl⟩⟩⟩,
    fun hpass => ?_⟩
  · rintro ⟨defect, hdefect⟩
    obtain ⟨i, hi, -⟩ := (relevantCalls_eq_error hp).1 hdefect
    exact ⟨i, hi.1⟩
  · cases hcalls : c.links.callsBefore (path.nodes.take target) (path.nodes.take target).length with
    | error defect =>
      obtain ⟨i, ⟨⟨-, hover⟩, -⟩, -⟩ := (Links.callsBefore_eq_error le_rfl).1 hcalls
      exact absurd ⟨i, hover⟩ hpass
    | ok opened =>
      refine ⟨Links.exists_matches hcalls, fun partner hm => ⟨opened.reverse, ?_, ?_, fun e => ?_⟩⟩
      · exact relevantCalls_eq_ok hp (Links.callsBefore_take ▸ hcalls)
      · exact List.pairwise_reverse.2 (Links.callsBefore_descending le_rfl hcalls).1
      · rw [List.mem_reverse, Links.mem_callsBefore_iff_unmatched hcalls hm]

namespace UnpairedEntry

def context : Context :=
  { Context.start (.ofList []) (.ofList []) { location := 0 } ∅ {} with
    links :=
      ({} : Links) |>.linkEntry 1 1 |>.linkEntry 2 2 |>.linkEntry 3 3
        |>.linkExpanded 4 7 |>.linkExpanded 7 8 |>.linkExpanded 5 6 |>.linkExpanded 6 5 }

def nested : Path := ⟨[0, 1, 2, 3, 4, 0]⟩

def cyclic : Path := ⟨[0, 1, 5, 0]⟩

end UnpairedEntry

open UnpairedEntry in
theorem outermost_entry_unmatched :
    (nested.nodes ≠ [] ∧ context.relevantCalls nested 5 = .ok [0, 1] ∧
      ∃ partner, context.links.Matches nested.nodes.dropLast partner ∧
        ∀ e, e = 1 ↔ context.links.Unmatched nested.nodes.dropLast partner e) ∧
    (cyclic.nodes ≠ [] ∧ context.links.hops 5 = ⊤ ∧
      ∃ i, context.links.Overdrawn cyclic.nodes.dropLast i) := by
  have hnested : nested.nodes ≠ [] := by decide
  have hcyclic : cyclic.nodes ≠ [] := by decide
  have hcalls : context.relevantCalls nested 5 = .ok [0, 1] := by decide +kernel
  have hfault : context.relevantCalls cyclic 3 = .error (.malformedPath (.unenteredBlock 2)) := by
    decide +kernel
  obtain ⟨hmalformed, hmatch⟩ := relevantCalls_matches_brackets context nested hnested 5
  obtain ⟨⟨partner, hp⟩, hopen⟩ := hmatch fun hover => by
    obtain ⟨defect, hdefect⟩ := hmalformed.2 hover
    cases hcalls.symm.trans hdefect
  obtain ⟨calls, hok, -, hmem⟩ := hopen partner hp
  cases hcalls.symm.trans hok
  refine ⟨⟨hnested, hcalls, partner, hp, fun e => ?_⟩, hcyclic, ?_, ?_⟩
  · exact List.mem_singleton.symm.trans (hmem e)
  · exact Links.hops_of_cycle (k := 1) (by decide +kernel)
  · exact (relevantCalls_matches_brackets context cyclic hcyclic 3).1.1 ⟨_, hfault⟩

end Blockwise
