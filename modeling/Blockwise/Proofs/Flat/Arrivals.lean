import Blockwise.Proofs.Fixpoint
import Blockwise.Proofs.Flat.Represents

/-!
In a fixpoint nothing of plain exploration is missing. A state that the segments of a set come to is
shown by a node of the set, or it lies inside a call that is made from there. In the end of a call
and at a target the call is left, so a node of the caller shows the state. The induction is on the
number of steps, since a call is entered after at least one of them.
-/
namespace Blockwise

open Relation (TransGen)
open State (Shows)
open Context

variable {program : Program} {c : Context} {tracked : Tracked} {start : State} {fr : Frame}
  {s t : SetId} {n x : NodeId} {m : Node State Tracked} {b : Block} {f g h : State} {i j : Nat}

namespace Frame

/-- A state that some segment comes to in `i` steps. -/
inductive After (program : Program) (tracked : Tracked) (fr : Frame) : Nat → State → Prop
  | start : After program tracked fr 0 fr.entry
  | step {i : Nat} {g h : State} (hg : After program tracked fr i g)
      (hgo : i = 0 ∨ fr.stop g.location = false) (hs : program.Step tracked g h) :
      After program tracked fr (i + 1) h

def GoesOn (fr : Frame) (i : Nat) (g : State) : Prop := i = 0 ∨ fr.stop g.location = false

theorem After.within (hg : fr.After program tracked i g) (hgo : fr.GoesOn i g) :
    fr.Within program tracked g := by
  induction hg with
  | start => exact .refl
  | step _ hgo' hs ih =>
    have hstop := hgo.resolve_left (Nat.succ_ne_zero _)
    exact (ih hgo').tail ⟨hs, hstop⟩

theorem After.inside (hg : fr.After program tracked (i + 1) g)
    (hstop : fr.stop g.location = false) : fr.Inside program tracked g := by
  cases hg with
  | step hg hgo hs => exact TransGen.tail' (hg.within hgo) ⟨hs, hstop⟩

theorem After.reaches (hg : fr.After program tracked (i + 1) g) :
    fr.Inside program tracked g ∨ fr.Closes program tracked g := by
  cases hg with
  | step hg hgo hs => exact (hg.within hgo).step hs

theorem exists_after (hg : fr.Within program tracked g) :
    ∃ i, fr.After program tracked i g ∧ fr.GoesOn i g := by
  induction hg with
  | refl => exact ⟨0, .start, Or.inl rfl⟩
  | tail _ hs ih =>
    obtain ⟨i, hi, hgo⟩ := ih
    exact ⟨i + 1, hi.step hgo hs.1, Or.inr hs.2⟩

end Frame

namespace Context

structure ViewedCall (program : Program) (tracked : Tracked) (c : Context) (fr : Frame) (s : SetId)
    (n : NodeId) (m : Node State Tracked) (f : State) (b : Block) (t : SetId) : Prop where
  live : c.graph.Live n m
  set : m.set = s
  shows : Shows fr.scope fr.base f m.state
  target : f.target = false
  within : fr.Within program tracked f
  block : c.partitioning.block? m.state.location = some b
  link : c.links.setOfEntry n = some t
  views : ∀ x mx, c.IsExit t x → c.graph.Live x mx → ∃ k mk, c.graph.Edge n k ∧
    c.graph.Live k mk ∧ mk.state = c.reducer.expand m.state b mx.state

/-- A node of `s` shows the state, or the state lies inside a call that was entered on the way. -/
inductive Arrives (program : Program) (tracked : Tracked) (c : Context) (fr : Frame) (s : SetId)
    (i : Nat) (g : State) : Prop
  | shown {n : NodeId} {m : Node State Tracked} (hm : c.graph.Live n m) (hs : m.set = s)
      (hn : c.Heads n ↔ i = 0) (hshow : Shows fr.scope fr.base g m.state)
  | called {n : NodeId} {m : Node State Tracked} {f : State} {b : Block} {t : SetId} {j : Nat}
      (hcall : ViewedCall program tracked c fr s n m f b t) (hj : j + 1 < i)
      (hg : (fr.enter c.reducer b f).After program tracked (j + 1) g) (htarget : g.target = false)
      (hstop : b.isReturnNode g.location = false)

theorem Fixpoint.explored (hfix : c.Fixpoint program) (hc : c.FreshlyRun program)
    (hacyclic : ∀ s, ¬ TransGen c.SetCalls s s) (hm : c.graph.Live n m)
    (hcover : m.coveredBy = none) (htarget : m.state.target = false)
    (hexit : m.set ≠ .topLevel → ¬ c.IsExit m.set n) :
    (∀ next ∈ program.successors m.state m.precision, ∃ k mk, c.graph.Edge n k ∧
      c.graph.Live k mk ∧ mk.state = next) ∨
    ¬ c.Heads n ∧ ∃ b t, c.partitioning.block? m.state.location = some b ∧
      c.links.setOfEntry n = some t ∧ ∀ x mx, c.IsExit t x → c.graph.Live x mx →
        ∃ k mk, c.graph.Edge n k ∧ c.graph.Live k mk ∧
          mk.state = c.reducer.expand m.state b mx.state := by
  obtain ⟨r, hr, hmem⟩ := hc.set_of_live hm
  have hnode := hfix.node m.set r n m hr hmem hm hcover htarget hexit
  have child : ∀ {v}, v ∈ c.views n → ∀ {state}, v.1 = some state →
      ∃ k mk, c.graph.Edge n k ∧ c.graph.Live k mk ∧ mk.state = state := by
    intro v hv state hstate
    obtain ⟨k, mk, he, hmk, hsame, -⟩ := child_of_mem_views hc.toStructured hv hstate
    exact ⟨k, mk, he, hmk, hsame⟩
  split at hnode
  · rename_i hcall
    obtain ⟨t, hl, hexpanded⟩ := hnode
    obtain ⟨b, exits, hb, hexits, hviews⟩ := hexpanded hacyclic
    refine Or.inr ⟨fun hn => hcall.1 ((hc.heads_iff hr hmem).1 hn), b, t, hb, hl,
      fun x mx hx hmx => ?_⟩
    refine child (v := c.viewOf m.state b x) ?_ ?_
    · rw [hviews]
      exact List.mem_map.2 ⟨x, (mem_blockExits_iff hc.toStructured hexits x).2 hx, rfl⟩
    · simp [viewOf, stateOf, hmx.1]
  · refine Or.inl fun next hnext => child (v := (some next, none)) ?_ rfl
    rw [hnode]
    exact List.mem_map.2 ⟨next, hnext, rfl⟩

section

variable (hc : c.FreshlyRun program) (hagg : c.cache.aggressive = false)
  (hw : program.WellNested tracked start c.partitioning c.reducer)

include hc hagg hw

theorem Arrives.leave (hr : Represents program tracked start c fr s)
    (hcall : ViewedCall program tracked c fr s n m f b t)
    (hh : (fr.enter c.reducer b f).After program tracked (j + 1) h)
    (ha : Arrives program tracked c (fr.enter c.reducer b f) t (j + 1) h)
    (hend : h.target = true ∨ b.isReturnNode h.location = true) :
    Arrives program tracked c fr s (i + 1) h := by
  have hrt := hr.enter hc hagg hw hcall.live hcall.set hcall.within hcall.shows hcall.link
    hcall.block
  cases ha with
  | @shown x mx hmx hset hhead hshowx =>
    have hx : ¬ c.Heads x := fun hx => Nat.succ_ne_zero j (hhead.1 hx)
    have hexit := hrt.isExit hc.toSound hcall.link hmx hset hx (by
      rw [hshowx.target, hshowx.location]
      exact hend)
    obtain ⟨k, mk, he, hmk, hstate⟩ := hcall.views x mx hexit hmx
    obtain ⟨m', mk', hm', hmk', -, -, hsame⟩ := hc.live_of_edge he
    cases hcall.live.unique hm'
    cases hmk.unique hmk'
    refine .shown hmk (hsame.symm.trans hcall.set) ?_ ?_
    · simp [hc.not_heads_of_edge he]
    · rw [hstate]
      have hb := hcall.shows.location ▸ hcall.block
      exact hr.shows_view hw hcall.within hcall.target hb hcall.shows hshowx hh.reaches
        fun htarget => hend.resolve_left (by simp [htarget])
  | called hcall' _ hh' htarget hstop' =>
    -- a call inside the call does not come to where the latter ends
    have hstop : b.isReturnNode h.location = true := hend.resolve_left (by simp [htarget])
    have hno : b.isReturnNode h.location = false := hrt.nests _ _ _ hcall'.within
      (hcall'.shows.location ▸ hcall'.block) (hh'.inside hstop')
    exact absurd (hstop.symm.trans hno) (by simp)

variable (hfix : c.Fixpoint program) (hacyclic : ∀ s, ¬ TransGen c.SetCalls s s)

include hfix hacyclic

theorem Arrives.step_shown (hr : Represents program tracked start c fr s)
    (hg : fr.After program tracked i g) (hgo : fr.GoesOn i g) (hs : program.Step tracked g h)
    (hm : c.graph.Live n m) (hset : m.set = s) (hn : c.Heads n ↔ i = 0)
    (hshow : Shows fr.scope fr.base g m.state)
    (ih : ∀ {fr t}, Represents program tracked start c fr t → 1 ≤ i →
      fr.After program tracked 1 h → Arrives program tracked c fr t 1 h) :
    Arrives program tracked c fr s (i + 1) h := by
  obtain ⟨k, mk, hmk, hsetk, hcover, hstate, hsame⟩ := hc.exists_uncovered hm
  have hhead : c.Heads k ∨ i ≠ 0 ∧ fr.stop g.location = false := by
    by_cases hi : i = 0
    · have hheads := hn.2 hi
      exact Or.inl (hsame (hc.head hm hheads).2 ▸ hheads)
    · exact Or.inr ⟨hi, hgo.resolve_left hi⟩
  have hshow : Shows fr.scope fr.base g mk.state := hstate ▸ hshow
  have htarget : mk.state.target = false := hshow.target.trans hs.1
  have hwithin := hg.within hgo
  obtain rfl : mk.set = s := hsetk.trans hset
  have hexit : mk.set ≠ .topLevel → ¬ c.IsExit mk.set k := by
    intro hpos hx
    rcases hhead with hhead | ⟨-, hstop⟩
    · obtain ⟨q, -, -, -, hq, -, -, hmem, hne, -⟩ := hx
      exact hne ((hc.heads_iff hq hmem).1 hhead)
    · have hyes := hr.stop_of_exit hx (Nat.pos_iff_ne_zero.2 hpos) hmk htarget
      rw [hshow.location] at hyes
      exact absurd (hyes.symm.trans hstop) (by simp)
  rcases hfix.explored hc hacyclic hmk hcover htarget hexit with hsucc | ⟨hno, b, t, hb, hl, hviews⟩
  · obtain ⟨next, hnext, hshow'⟩ := hshow.shown_of_successor hs.1
      (fun x hx => hr.mem_precision hc hmk rfl hx) (hr.confined.uses g hwithin hs.1)
      (fun g' hg' => hr.confined.step hwithin ⟨hs.1, hg'⟩) hs.2
    obtain ⟨a, ma, he, hma, rfl⟩ := hsucc next hnext
    obtain ⟨mk', ma', hmk', hma', -, -, hsame⟩ := hc.live_of_edge he
    cases hmk.unique hmk'
    cases hma.unique hma'
    refine .shown hma hsame.symm ?_ hshow'
    simp [hc.not_heads_of_edge he]
  · obtain ⟨hi, -⟩ := hhead.resolve_left hno
    have hcall : ViewedCall program tracked c fr mk.set k mk g b t :=
      ⟨hmk, rfl, hshow, hs.1, hwithin, hb, hl, hviews⟩
    have hafter : (fr.enter c.reducer b g).After program tracked 1 h := .step .start (Or.inl rfl) hs
    have hrt := hr.enter hc hagg hw hmk rfl hwithin hshow hl hb
    by_cases hend : h.target = true ∨ b.isReturnNode h.location = true
    · exact Arrives.leave hc hagg hw hr hcall hafter (ih hrt (Nat.pos_of_ne_zero hi) hafter) hend
    · rw [not_or, Bool.not_eq_true, Bool.not_eq_true] at hend
      exact .called hcall (Nat.succ_lt_succ (Nat.pos_of_ne_zero hi)) hafter hend.1 hend.2

theorem Represents.arrives (hr : Represents program tracked start c fr s)
    (hg : fr.After program tracked i g) : Arrives program tracked c fr s i g := by
  induction i using Nat.strong_induction_on generalizing fr s g with
  | _ i ih =>
    cases hg with
    | start =>
      obtain ⟨r, first, hset, hfirst, hstarts⟩ := hr.first
      obtain ⟨first', hfirst', hsame⟩ := hc.live_first hset
      cases hfirst.unique hfirst'
      exact .shown hfirst hsame (iff_of_true ⟨s, r, hset, rfl⟩ rfl) hstarts.shows
    | @step i before _ hg hgo hs =>
      cases ih i (Nat.lt_succ_self i) hr hg with
      | shown hm hset hn hshow =>
        exact Arrives.step_shown hc hagg hw hfix hacyclic hr hg hgo hs hm hset hn hshow
          fun hrt hi hafter => ih 1 (Nat.lt_succ_of_le hi) hrt hafter
      | @called n m f b t j hcall hj hg' htarget hstop =>
        have hafter := hg'.step (Or.inr hstop) hs
        by_cases hend : g.target = true ∨ b.isReturnNode g.location = true
        · have hrt := hr.enter hc hagg hw hcall.live hcall.set hcall.within hcall.shows hcall.link
            hcall.block
          exact Arrives.leave hc hagg hw hr hcall hafter
            (ih _ (Nat.succ_lt_succ hj) hrt hafter) hend
        · rw [not_or, Bool.not_eq_true, Bool.not_eq_true] at hend
          exact .called hcall (Nat.succ_lt_succ hj) hafter hend.1 hend.2

end

end Context

end Blockwise
