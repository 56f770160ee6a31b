import Blockwise.Proofs.Brackets
import Blockwise.Proofs.Flat.Segments

/-!
Reached sets represent segments of plain exploration. The set of the whole program represents all of
it. The set that a call node is linked to represents the segments that start where the call is made,
and callers in other states may share it. What a node of a set shows is a state of the segments that
the set represents.
-/
namespace Blockwise

open State (Shows)
open Context

variable {program : Program} {c : Context} {tracked : Tracked} {start : State} {fr : Frame}
  {s t : SetId} {n k p x : NodeId} {m mx : Node State Tracked} {b : Block} {f g h : State}
  {l : Location}

/-- Up to its end, a call uses only variables of its block, and it leaves the stack below alone. -/
def Program.CallsConfined (program : Program) (tracked : Tracked) (start : State)
    (partitioning : Partitioning) (r : Reducer) : Prop :=
  ∀ f b, program.Flat tracked start f → partitioning.block? f.location = some b →
    (Frame.call r b f).Confined program tracked

/-- A call that is made inside another one does not come to where the outer one ends before it ends
itself. -/
def Program.CallsNest (program : Program) (tracked : Tracked) (start : State)
    (partitioning : Partitioning) (r : Reducer) : Prop :=
  ∀ f b, program.Flat tracked start f → partitioning.block? f.location = some b →
    (Frame.call r b f).Nests program tracked partitioning r

/-- Calls of blocks are well nested in plain exploration. -/
structure Program.WellNested (program : Program) (tracked : Tracked) (start : State)
    (partitioning : Partitioning) (r : Reducer) : Prop where
  confined : program.CallsConfined tracked start partitioning r
  nests : program.CallsNest tracked start partitioning r

namespace Context

structure StartsAs (c : Context) (tracked : Tracked) (fr : Frame) (s : SetId)
    (first : Node State Tracked) : Prop where
  shows : Shows fr.scope fr.base fr.entry first.state
  precision : ∀ x ∈ fr.scope, x ∈ first.precision ↔ x ∈ tracked
  stop : ∀ l, fr.stop l = true ↔ s ≠ .topLevel ∧
    ∃ b, c.partitioning.block? first.state.location = some b ∧ b.isReturnNode l = true

structure Represents (program : Program) (tracked : Tracked) (start : State) (c : Context)
    (fr : Frame) (s : SetId) : Prop where
  first : ∃ r first, c.sets[s]? = some r ∧ c.graph.Live r.first first ∧
    c.StartsAs tracked fr s first
  confined : fr.Confined program tracked
  nests : fr.Nests program tracked c.partitioning c.reducer
  flat : program.Flat tracked start fr.entry

/-- The first node shows the entry of the frame, the others the states that the segments come to. -/
def ShownAt (program : Program) (tracked : Tracked) (c : Context) (fr : Frame) (n : NodeId)
    (g : State) : Prop :=
  c.Heads n ∧ g = fr.entry ∨
    ¬ c.Heads n ∧ (fr.Inside program tracked g ∨ fr.Closes program tracked g)

namespace Represents

variable (hr : Represents program tracked start c fr s)

include hr

theorem stop_of_inner (hi : c.Inner s n l) : fr.stop l = false := by
  obtain ⟨r, first, hset, hfirst, hstarts⟩ := hr.first
  obtain ⟨r', first', hset', hfirst', -, hreturn⟩ := hi
  cases Option.some.inj (hset.symm.trans hset')
  cases hfirst.unique hfirst'
  rw [← Bool.not_eq_true, hstarts.stop]
  rintro ⟨hpos, b, hb, hyes⟩
  obtain ⟨b', hb', hno⟩ := hreturn hpos
  cases Option.some.inj (hb.symm.trans hb')
  rw [hno] at hyes
  cases hyes

theorem stop_of_exit (hx : c.IsExit s x) (hpos : 0 < s) (hm : c.graph.Live x m)
    (htarget : m.state.target = false) : fr.stop m.state.location = true := by
  obtain ⟨r, first, hset, hfirst, hstarts⟩ := hr.first
  obtain ⟨r', first', b, m', hset', hfirst', hb, -, -, hm', hexit⟩ := hx
  cases Option.some.inj (hset.symm.trans hset')
  cases hfirst.unique hfirst'
  cases hm.unique hm'
  rw [htarget, Bool.or_false] at hexit
  exact (hstarts.stop _).2 ⟨Nat.pos_iff_ne_zero.1 hpos, b, hb, hexit⟩

theorem isExit (h : c.Sound) (hl : c.links.setOfEntry n = some s) (hm : c.graph.Live x m)
    (hset : m.set = s) (hx : ¬ c.Heads x)
    (hend : m.state.target = true ∨ fr.stop m.state.location = true) : c.IsExit s x := by
  obtain ⟨r, first, hr', hfirst, hstarts⟩ := hr.first
  obtain ⟨mn, b, r', first', -, -, -, hr'', hfirst', hb, hstate⟩ := h.call hl
  cases Option.some.inj (hr'.symm.trans hr'')
  cases hfirst.unique hfirst'
  have hb : c.partitioning.block? first.state.location = some b := by
    rw [hstate]
    exact hb
  refine ⟨r, first, b, m, hr', hfirst, hb, (h.mem_iff hr').2 ⟨m, hm, hset⟩, ?_, hm, ?_⟩
  · rintro rfl
    exact hx ⟨s, r, hr', rfl⟩
  · rcases hend with htarget | hstop
    · rw [htarget, Bool.or_true]
    · obtain ⟨-, b', hb', hreturn⟩ := (hstarts.stop _).1 hstop
      cases Option.some.inj (hb.symm.trans hb')
      rw [hreturn, Bool.true_or]

theorem shows_view (hw : program.WellNested tracked start c.partitioning c.reducer)
    (hf : fr.Within program tracked f) (htarget : f.target = false)
    (hb : c.partitioning.block? f.location = some b) (hshow : Shows fr.scope fr.base f m.state)
    {mx : Node State Tracked}
    (hshowx : Shows (fr.enter c.reducer b f).scope (fr.enter c.reducer b f).base g mx.state)
    (hg : (Frame.call c.reducer b f).Inside program tracked g ∨
      (Frame.call c.reducer b f).Closes program tracked g)
    (hend : g.target = false → b.isReturnNode g.location = true) :
    Shows fr.scope fr.base g (c.reducer.expand m.state b mx.state) := by
  have hconfined := hw.confined f b (hf.flat hr.flat) hb
  refine hshow.expand htarget hshowx (fun y hy => hconfined.value_eq hg hy) fun hgtarget => ?_
  rcases hg with hg | hg
  · have hno : b.isReturnNode g.location = false := hg.stop
    exact absurd ((hend hgtarget).symm.trans hno) (by simp)
  · exact hconfined.stack_eq g hg

variable (hc : c.FreshlyRun program)

include hc

theorem mem_precision (hm : c.graph.Live n m) (hset : m.set = s) {x : Var} (hx : x ∈ fr.scope) :
    x ∈ m.precision ↔ x ∈ tracked := by
  obtain ⟨r, first, hr', hfirst, hstarts⟩ := hr.first
  rw [(hc.derived.node n m hm).precision r first (hset ▸ hr') hfirst]
  exact hstarts.precision x hx

theorem enter (hagg : c.cache.aggressive = false)
    (hw : program.WellNested tracked start c.partitioning c.reducer) (hm : c.graph.Live n m)
    (hset : m.set = s) (hf : fr.Within program tracked f)
    (hshow : Shows fr.scope fr.base f m.state) (hl : c.links.setOfEntry n = some t)
    (hb : c.partitioning.block? m.state.location = some b) :
    Represents program tracked start c (fr.enter c.reducer b f) t := by
  have hflat := hf.flat hr.flat
  have hb' : c.partitioning.block? f.location = some b := hshow.location ▸ hb
  obtain ⟨-, -, -, -, -, -, hpos, -⟩ := hc.call hl
  obtain ⟨m', b', hm', hb'', r, first, hset', hfirst, hkey⟩ := hc.derived.key hagg n t hl
  cases hm.unique hm'
  cases Option.some.inj (hb.symm.trans hb'')
  obtain ⟨hstate, hprecision, hlocation⟩ := CacheKey.mk.inj hkey
  refine ⟨⟨r, first, hset', hfirst, ?_, fun x hx => ?_, fun l => ?_⟩,
    hr.confined.enter hr.nests hf hb' (hw.confined f b hflat hb'), hw.nests f b hflat hb', hflat⟩
  · rw [← hstate]
    exact hshow.reduce
  · rw [← hprecision, Reducer.mem_reducePrecision, hr.mem_precision hc hm hset hx.1]
    exact and_iff_left hx.2
  · rw [← hlocation]
    refine ⟨fun hstop => ⟨Nat.pos_iff_ne_zero.1 hpos, b, hb, hstop⟩, ?_⟩
    rintro ⟨-, b', hb', hstop⟩
    cases Option.some.inj (hb.symm.trans hb')
    exact hstop

end Represents

theorem represents_whole {r : ReachedSet} {first : Node State Tracked}
    (hr : c.sets[SetId.topLevel]? = some r) (hfirst : c.graph.Live r.first first) :
    Represents program first.precision first.state c (Frame.whole first.state) .topLevel where
  first := by
    refine ⟨r, first, hr, hfirst, ⟨rfl, rfl, fun _ _ => rfl, fun x hx => absurd (Set.mem_univ x) hx,
      fun _ => rfl⟩, fun _ _ => Iff.rfl, fun l => ?_⟩
    exact ⟨fun hstop => Bool.noConfusion hstop, fun hne => absurd rfl hne.1⟩
  confined := Frame.confined_whole _
  nests := Frame.nests_whole _
  flat := .refl

/-! ### What nodes show -/

theorem ShownAt.within (hc : c.FreshlyRun program) (hr : Represents program tracked start c fr s)
    (hm : c.graph.Live p m) (hset : m.set = s) (he : c.graph.Edge p n)
    (hg : ShownAt program tracked c fr p g) (hshow : Shows fr.scope fr.base g m.state) :
    fr.Within program tracked g := by
  rcases hg with ⟨-, rfl⟩ | ⟨hp, hg | ⟨-, -, -, hstop⟩⟩
  · exact .refl
  · exact hg.within
  · obtain ⟨-, hinner, -⟩ := hc.above_spec he hp hm
    rw [hset, hshow.location] at hinner
    rw [hr.stop_of_inner hinner] at hstop
    cases hstop

theorem FreshlyRun.exists_shown (hc : c.FreshlyRun program) (hagg : c.cache.aggressive = false)
    (hw : program.WellNested tracked start c.partitioning c.reducer) (hm : c.graph.Live n m)
    (hr : Represents program tracked start c fr m.set) :
    ∃ g, ShownAt program tracked c fr n g ∧ Shows fr.scope fr.base g m.state := by
  induction n using Nat.strong_induction_on generalizing m fr with
  | _ n ih =>
    by_cases hn : c.Heads n
    · obtain ⟨r, first, hset, hfirst, hstarts⟩ := hr.first
      obtain ⟨r', hset', rfl⟩ := hc.first_of_heads hn hm
      cases Option.some.inj (hset.symm.trans hset')
      cases hm.unique hfirst
      exact ⟨fr.entry, Or.inl ⟨hn, rfl⟩, hstarts.shows⟩
    -- the node above shows a state before the end
    have above : ∀ {p mp}, c.graph.Edge p n → c.graph.Live p mp → mp.set = m.set ∧
        ∃ g, fr.Within program tracked g ∧ Shows fr.scope fr.base g mp.state := by
      intro p mp he hp
      obtain ⟨mp', mn, hp', hmn, -, hlt, hset⟩ := hc.live_of_edge he
      cases hp.unique hp'
      cases hm.unique hmn
      obtain ⟨g, hg, hshow⟩ := ih p hlt hp (hset ▸ hr)
      exact ⟨hset, g, hg.within hc hr hp hset he hshow, hshow⟩
    cases (hc.derived.node n m hm).origin hn with
    | @successor p mp state precision he hp ht hs hx =>
      obtain ⟨hset, g, hg, hshow⟩ := above he hp
      obtain ⟨rfl, rfl, htarget, -⟩ := successors_of_task hc.toStructured hp ht
      have htarget : g.target = false := hshow.target ▸ htarget
      obtain ⟨g', hg', hshow'⟩ := hshow.successor_of_shown htarget
        (fun x hx => hr.mem_precision hc hp hset hx) (hr.confined.uses g hg htarget)
        (fun g' hg' => hr.confined.step hg ⟨htarget, hg'⟩) hs
      exact ⟨g', Or.inr ⟨hn, hg.step ⟨htarget, hg'⟩⟩, hshow'⟩
    | @expanded p x mp mx t b he hp ht hl hx hexit hmx hb hs =>
      obtain ⟨hset, f, hf, hshow⟩ := above he hp
      have htarget : f.target = false := by
        rw [← hshow.target]
        exact (call_of_task hc.toStructured hp ht).1
      have hb' : c.partitioning.block? f.location = some b := hshow.location ▸ hb
      have hrt := hr.enter hc hagg hw hp hset hf hshow hl hb
      have hxset := hexit.set_eq hc.toStructured hmx
      have hview := hc.exit hx
      obtain ⟨g, ⟨hhead, -⟩ | ⟨-, hg⟩, hshowx⟩ := ih x hview.lt hmx (hxset ▸ hrt)
      · exact absurd hhead hview.exit_not_head
      refine ⟨g, Or.inr ⟨hn, hr.nests.reaches hf hb' hg⟩, ?_⟩
      rw [hs]
      refine hr.shows_view hw hf htarget hb' hshow hshowx hg fun hgtarget => ?_
      -- an exit that is no target stands where the call ends
      obtain ⟨-, -, -, -, -, -, hpos, -⟩ := hc.call hl
      have hstop := hrt.stop_of_exit hexit hpos hmx (hshowx.target.trans hgtarget)
      rwa [hshowx.location] at hstop

end Context

end Blockwise
