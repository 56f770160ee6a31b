import Blockwise.Proofs.Context.Reading
import Blockwise.Proofs.Repair.Rekeying
import Blockwise.Proofs.Repair.Shrinks

/-!
The removal of a subtree from one reached set. It cuts the subtree out of the graph, forgets the
recorded exits of the set, and moves its result when the first node has got another precision.
-/
namespace Blockwise

open Context

variable {c c' : Context} {s : SetId} {r : ReachedSet} {node : NodeId}
  {adjustment : Adjustment Tracked} {K : Key}

namespace Action

theorem removeSubtree_spec (h : c.Structured) (hr : c.sets[s]? = some r) :
    Ensures (removeSubtree s node adjustment) c
      (fun changed c' =>
        (c.Heads node ∧ changed = false ∧ c' = c) ∨
        ∃ root gone, Region.removalRoot r node = some root ∧ c.Cuttable s r root gone ∧
          c' = c.cut s r adjustment gone ∧ ∃ n n', c.graph.Live r.first n ∧
            c'.graph.Live r.first n' ∧ changed = decide (n'.precision ≠ n.precision))
      (fun _ c' => c' = c) := by
  obtain ⟨f, hf, -⟩ := h.live_first hr
  have hrooted : Region.Rooted ⟨c.graph, r⟩ := ⟨h.graph, f, hf, h.head hf ⟨s, r, hr, rfl⟩⟩
  rw [ensures_removeSubtree hr]
  refine (Region.removeSubtree_spec hrooted node adjustment).imp (fun changed region spec => ?_)
    fun _ region hsame => ?_
  · rcases spec with ⟨hroot, rfl, rfl⟩ | ⟨root, gone, hroot, hgone, rfl, n, n', hn, hn', rfl⟩
    · refine Or.inl ⟨⟨s, r, hr, ?_⟩, rfl, putRegion_self hr⟩
      unfold Region.removalRoot at hroot
      split at hroot
      · rename_i he
        exact he.symm
      · cases hroot
    · refine Or.inr ⟨root, gone, hroot, ⟨hr, Region.removalRoot_ne_first hroot, hgone⟩, rfl, n, n',
        hn, hn', rfl⟩
  · rw [hsame]
    exact putRegion_self hr

end Action

/-! ### The cache -/

section Follows

variable {first : NodeId} {p : Tracked}

theorem Context.HasKey.ne_of_lookup (h : c.Stored) (hkey : c.HasKey s K) {K' : Key} {t : SetId}
    (ht : c.cache.lookup K' = some t) (hne : K' ≠ K) : t ≠ s := by
  rintro rfl
  exact hne (hkey.unique (h ht).2.1)

theorem Context.Follows.of_removeEntry (h : c.Stored) (hkey : c.HasKey s K)
    (hca : c'.cache = c.cache.removeEntry K) : c.Follows c' s where
  aggressive := by
    rw [hca]
    rfl
  stored := by
    intro K' t ht
    rw [hca] at ht ⊢
    rw [Cache.lookup_removeEntry] at ht
    split at ht
    · cases ht
    · rename_i hne
      rw [Cache.containsPrecise_removeEntry]
      exact ⟨Or.inl ⟨hkey.ne_of_lookup h ht hne, ht⟩, by simp [hne, (h ht).2.2]⟩
  similar := by
    intro K' t ht
    rw [hca] at ht
    change (Table.erase K _).get? K' = some t at ht
    rw [Table.get?_erase] at ht
    split at ht
    · cases ht
    · exact ht
  entry := by
    intro K' n hn
    rw [hca, Cache.blockEntry_removeEntry] at hn
    split at hn
    · cases hn
    · exact Or.inl hn
  recorded := by
    intro K' xs hxs
    rw [hca] at hxs ⊢
    rw [Cache.returnEntry_removeEntry] at hxs
    split at hxs
    · cases hxs
    · rename_i hne
      exact ⟨hxs, Or.inl (by rw [Cache.lookup_removeEntry, if_neg hne])⟩

theorem Context.Follows.of_moved (h : c.Stored) (hpos : 0 < s) (hkey : c.HasKey s K)
    (hfirst : c.Heads first) (hm : c.cache.Moved s K { K with precision := p } first c'.cache)
    (hfree : ∀ t, c.cache.lookup { K with precision := p } = some t → t = s)
    (hkey' : c'.HasKey s { K with precision := p }) : c.Follows c' s where
  aggressive := hm.aggressive
  stored := by
    intro K' t ht
    rw [hm.lookup] at ht
    rw [hm.precise]
    split at ht
    · rename_i hnew
      cases ht
      exact ⟨Or.inr ⟨rfl, hpos, hnew ▸ hkey'⟩, by simp [hnew]⟩
    · split at ht
      · cases ht
      · rename_i hne
        exact ⟨Or.inl ⟨hkey.ne_of_lookup h ht hne, ht⟩, by simp [hne, (h ht).2.2]⟩
  similar := hm.similar
  entry := by
    intro K' n hn
    rcases hm.entry hn with hn | rfl
    · exact Or.inl hn
    · exact Or.inr hfirst
  recorded := by
    intro K' xs hxs
    rw [hm.recorded] at hxs
    rw [hm.lookup]
    split at hxs
    · cases hxs
    · rename_i hne
      refine ⟨hxs, ?_⟩
      split
      · rename_i hnew
        cases ht : c.cache.lookup K' with
        | none => exact Or.inr rfl
        | some t => exact Or.inl (by rw [hfree t (hnew ▸ ht)])
      · exact Or.inl rfl

theorem Cache.Rekeyed.follows (h : c.Stored) {listed listed' : List Key}
    (st : c.cache.Rekeyed s K first p listed listed' c'.cache) (hpos : 0 < s)
    (hkey : c.HasKey s K) (hfirst : c.Heads first)
    (hkey' : c'.HasKey s { K with precision := p }) : c.Follows c' s := by
  rcases st.cases fun hK => (h hK).2.2 with
    ⟨hK, -, hca⟩ | ⟨-, ⟨-, -, hca⟩ | ⟨hfree, -, hm⟩⟩
  · refine .of_cache h hca fun {K'} hs => ?_
    exact absurd (hkey.unique (h hs).2.1 ▸ hs) hK
  · exact .of_removeEntry h hkey hca
  · exact .of_moved h hpos hkey hfirst hm hfree hkey'

end Follows

theorem Action.rekey_spec {first : NodeId} {n : Node State Tracked} (hn : c.graph.Live first n)
    (report : Report) : Ensures (Action.rekey s first K report) c
      (fun report' c' => report'.removals = report.removals ∧
        report'.exactEntries = report.exactEntries ∧ ∃ cache, c' = { c with cache } ∧
          c.cache.Rekeyed s K first n.precision report.rekeyed report'.rekeyed cache)
      (fun _ _ => False) := by
  simp only [Action.rekey, ensures_bind, ensures_get,
    ensures_lift_of_ok (Graph.liveNode_eq_ok.2 hn), ensures_ite, ensures_pure]
  refine ⟨fun htaken => ?_, fun hfree => ?_⟩
  · cases ht : c.cache.lookup { K with precision := n.precision } with
    | none => simp [ht] at htaken
    | some t =>
      have hts : t ≠ s := by simpa [ht] using htaken
      refine ⟨fun hK => ?_, fun hK => ⟨trivial, trivial, c.cache, rfl, .kept hK⟩⟩
      simp only [Action.modifyCache, ensures_modify]
      exact ⟨trivial, trivial, _, rfl, .dropped hK ht hts⟩
  · by_cases hK : c.cache.lookup K = some s
    · have hmoved : c.cache.Rekeyed s K first n.precision report.rekeyed _ _ :=
        .moved hK fun t ht => by simpa [ht] using hfree
      rw [Cache.updatePrecision, if_pos hK] at hmoved ⊢
      simp only [Action.modifyCache, ensures_bind, ensures_modify, ensures_pure]
      exact ⟨trivial, trivial, _, rfl, hmoved⟩
    · rw [Cache.updatePrecision, if_neg hK]
      exact ⟨rfl, rfl, c.cache, rfl, .kept hK⟩

def Context.Stands (c : Context) (s : SetId) : Option Key → Prop
  | none => s = .topLevel
  | some K => 0 < s ∧ c.HasKey s K

/-- Only members of `s` are lost, among them `node` unless it is a first node. -/
structure Context.Loses (c c' : Context) (s : SetId) (node : NodeId) : Prop where
  only : ∀ {n m}, c.graph.Live n m → (∀ m', ¬ c'.graph.Live n m') → m.set = s
  gone : ¬ c.Heads node → ∀ m, ¬ c'.graph.Live node m

theorem Context.Sheds.loses (h : c.Structured) (rm : c.Sheds s node c') : c.Loses c' s node where
  only := fun hm hlost => rm.set_of_lost h hm hlost
  gone := fun hnode => rm.not_live hnode

theorem hasKey_of_cut {gone : IdSet} {root : NodeId} (hc : c.Cuttable s r root gone)
    (h : c.Structured) (hK : c.HasKey s K) {n n' : Node State Tracked}
    (hn : c.graph.Live r.first n) (hn' : (c.cut s r adjustment gone).graph.Live r.first n') :
    K.precision = n.precision ∧
      (c.cut s r adjustment gone).HasKey s { K with precision := n'.precision } := by
  obtain ⟨q, f, hq, hf, rfl⟩ := hK
  cases Option.some.inj (hc.set.symm.trans hq)
  cases hn.unique hf
  obtain ⟨f', hf', -, rfl⟩ := live_cut_iff.1 hn'
  cases hf.unique hf'
  refine ⟨rfl, ?_⟩
  rw [Graph.precision_cutOut]
  exact hc.hasKey_cut h hc.set hf

theorem Context.Cuttable.sameEntries {gone : IdSet} {root : NodeId} (hc : c.Cuttable s r root gone)
    (h : c.Structured)
    (hkey : ∀ {K}, 0 < s → c.HasKey s K → (c.cut s r adjustment gone).HasKey s K) :
    c.SameEntries (c.cut s r adjustment gone) where
  partitioning := rfl
  reducer := rfl
  lookup := fun _ => rfl
  precise := fun _ => rfl
  key := by
    intro t K hpos hK
    by_cases hts : t = s
    · subst hts
      exact hkey hpos hK
    · exact hc.hasKey_of_ne h hts hK

theorem newPrecision?_of_cut {gone : IdSet} {n n' : Node State Tracked} {a : NodeId}
    (hn : c.graph.Live a n) (hn' : (c.cut s r adjustment gone).graph.Live a n')
    (hne : n'.precision ≠ n.precision) :
    adjustment.newPrecision? n.precision = some n'.precision := by
  obtain ⟨m, hm, -, rfl⟩ := live_cut_iff.1 hn'
  cases hn.unique hm
  rw [Graph.precision_cutOut, priceAfter, Region.reprice] at hne ⊢
  split at hne
  · rename_i hwaits
    rw [if_pos hwaits]
    cases hp : adjustment.newPrecision? n.precision with
    | none => simp [hp] at hne
    | some p => rfl
  · exact absurd rfl hne

def Context.Adjusts (c : Context) (increments : List (Increment Tracked)) (key : Option Key)
    (adjustment : Adjustment Tracked) : Prop :=
  ∀ K, key = some K → ∀ old p, adjustment.newPrecision? old = some p →
    increments ≠ [] ∧ c.Refines increments K.block p

/-! ### The exits are forgotten first -/

def Context.forgetExits (c : Context) (K : Key) : Context :=
  { c with
    cache := (c.cache.removeReturnEntry K).removeBlockEntry K
    statistics := { c.statistics with recomputes := c.statistics.recomputes + 1 } }

def Context.countRemoval (c : Context) : Context :=
  { c with statistics := { c.statistics with pairRemovals := c.statistics.pairRemovals + 1 } }

def Report.removed (report : Report) (s : SetId) (key : Option Key) (node : NodeId) : Report :=
  { report with
    invalidated := report.invalidated ++ key.toList
    removals := report.removals ++ [(s, node)] }

namespace Action

variable {first : NodeId} {report : Report} {ok : Report → Context → Prop}
  {bad : Fault → Context → Prop}

theorem ensures_removeFromSet_program :
    Ensures (removeFromSet s first none node adjustment report) c ok bad ↔
      Ensures (removeSubtree s node adjustment) c
        (fun _ d => ok (report.removed s none node) d.countRemoval) bad := by
  simp only [removeFromSet, count, ensures_bind, ensures_modify, ensures_pure]
  rfl

theorem ensures_removeFromSet_block :
    Ensures (removeFromSet s first (some K) node adjustment report) c ok bad ↔
      Ensures (removeSubtree s node adjustment) (c.forgetExits K) (fun changed d =>
        (changed = true →
          Ensures (rekey s first K (report.removed s (some K) node)) d.countRemoval ok bad) ∧
        (¬ changed = true → ok (report.removed s (some K) node) d.countRemoval)) bad := by
  simp only [removeFromSet, modifyCache, count, ensures_bind, ensures_modify, ensures_ite,
    ensures_pure]
  rfl

theorem removeSubtree_topLevel (h : c.Structured) (hst : c.Stored)
    (hr : c.sets[SetId.topLevel]? = some r) :
    Ensures (removeSubtree .topLevel node adjustment) c
      (fun _ d => c.Sheds .topLevel node d ∧ c.SameEntries d) (fun _ d => d = c) := by
  have hno : ¬ (0 : SetId) < .topLevel := Nat.lt_irrefl 0
  refine (removeSubtree_spec h hr).imp (fun changed d hd => ?_) fun _ _ => id
  rcases hd with ⟨hhead, -, rfl⟩ | ⟨root, gone, hroot, hc, rfl, -⟩
  · exact ⟨.none hhead, .refl d⟩
  · refine ⟨.cut hc hroot (.of_cache hst rfl fun hs => ?_) fun hpos => absurd hpos hno,
      hc.sameEntries h fun hpos => absurd hpos hno⟩
    exact absurd (hst hs).1 hno

end Action

/-! ### A removal from one set -/

/-- The subtree of `node` was removed from `s`, as the report tells, and the cache followed. -/
structure Context.RemovedFrom (c : Context) (s : SetId) (node : NodeId) (key : Option Key)
    (adjustment : Adjustment Tracked) (report report' : Report) (c' : Context) : Prop where
  shrinks : Shrinks c [node] c'
  loses : c.Loses c' s node
  removals : report'.removals = report.removals ++ [(s, node)]
  steps : ∀ increments, c.Adjusts increments key adjustment →
    ResultSteps increments (report, c) (report', c')

section Forgetting

variable {gone : IdSet} {root : NodeId} {report : Report}

theorem Context.shrinks_forgetExits (c : Context) (K : Key) : Shrinks c [] (c.forgetExits K) :=
  ((Shrinks.start.forgetReturns K).forgetEntry K).quiet _ _

theorem Context.sameEntries_forgetExits (c : Context) (K : Key) :
    c.SameEntries (c.forgetExits K) :=
  { SameEntries.refl c with }

theorem Context.HasKey.returnEntry_forgetExits (hK : c.HasKey s K) {K' : Key}
    (hK' : (c.forgetExits K).HasKey s K') : (c.forgetExits K).cache.returnEntry K' = none := by
  have hKK : (c.forgetExits K).HasKey s K := hK
  cases hKK.unique hK'
  exact (Table.get?_erase ..).trans (if_pos rfl)

theorem Context.RemovedFrom.of_sheds {report' : Report} {d : Context} (h : c.Structured)
    (rm : (c.forgetExits K).Sheds s node d)
    (hremovals : report'.removals = report.removals ++ [(s, node)])
    (step : ∀ increments, c.Adjusts increments (some K) adjustment →
      ResultStep increments (report, c.forgetExits K) (report', d.countRemoval)) :
    c.RemovedFrom s node (some K) adjustment report report' d.countRemoval := by
  have hf : (c.forgetExits K).Structured := { h with }
  exact {
    shrinks := ((c.shrinks_forgetExits K).remove rm).quiet _ _
    loses := { rm.loses hf with }
    removals := hremovals
    steps := fun increments hadj =>
      .tail (.single (.still (c.sameEntries_forgetExits K) rfl rfl)) (step increments hadj) }

variable (h : c.Structured) (hst : c.Stored) (hK : c.HasKey s K)
  (hc : (c.forgetExits K).Cuttable s r root gone) (hroot : Region.removalRoot r node = some root)

include h hst hK hc hroot

theorem Context.RemovedFrom.of_kept
    (hkept : ((c.forgetExits K).cut s r adjustment gone).HasKey s K) :
    c.RemovedFrom s node (some K) adjustment report (report.removed s (some K) node)
      ((c.forgetExits K).cut s r adjustment gone).countRemoval := by
  have hf : (c.forgetExits K).Structured := { h with }
  have hfollows : (c.forgetExits K).Follows
      { (c.forgetExits K).cut s r adjustment gone with cache := (c.forgetExits K).cache } s :=
    .of_cache hst rfl fun hs => hK.unique (hst hs).2.1 ▸ hkept
  have same : (c.forgetExits K).SameEntries ((c.forgetExits K).cut s r adjustment gone) :=
    hc.sameEntries hf fun _ hK' => hK.unique hK' ▸ hkept
  exact .of_sheds h (.cut hc hroot hfollows fun _ => hK.returnEntry_forgetExits) rfl
    fun _ _ => .still { same with } rfl rfl

theorem Context.RemovedFrom.of_rekeyed {n n' : Node State Tracked} {report' : Report}
    {cache : Cache State Tracked} (hr : c.sets[s]? = some r) (hpos : 0 < s)
    (hn : c.graph.Live r.first n)
    (hn' : ((c.forgetExits K).cut s r adjustment gone).graph.Live r.first n')
    (hchanged : n'.precision ≠ n.precision)
    (st : (c.forgetExits K).cache.Rekeyed s K r.first n'.precision report.rekeyed report'.rekeyed
      cache)
    (hremovals : report'.removals = report.removals ++ [(s, node)])
    (hexact : report'.exactEntries = report.exactEntries) :
    c.RemovedFrom s node (some K) adjustment report report'
      ({ (c.forgetExits K).cut s r adjustment gone with cache } : Context).countRemoval := by
  have hf : (c.forgetExits K).Structured := { h with }
  have hKf : (c.forgetExits K).HasKey s K := hK
  obtain ⟨hp, hkey'⟩ := hasKey_of_cut hc hf hKf hn hn'
  have hfollows : (c.forgetExits K).Follows
      { (c.forgetExits K).cut s r adjustment gone with cache } s :=
    st.follows hst hpos hKf ⟨s, r, hr, rfl⟩ hkey'
  refine .of_sheds h (.cut hc hroot hfollows fun _ => hK.returnEntry_forgetExits) hremovals
    fun increments hadj => ?_
  obtain ⟨hne, hrefines⟩ := hadj K rfl _ _
    (newPrecision?_of_cut (c := c.forgetExits K) (s := s) hn hn' hchanged)
  refine .rekey hst hne hrefines ?_ st hexact
  exact {
    partitioning := rfl
    reducer := rfl
    pos := hpos
    old := hKf
    new := hkey'
    changed := hp ▸ hchanged
    other := fun _ hts hK' => hc.hasKey_of_ne hf hts hK' }

end Forgetting

theorem Action.removeFromSet_spec (h : c.Structured) (hst : c.Stored) (hr : c.sets[s]? = some r)
    {key : Option Key} (hkey : c.Stands s key) (report : Report) :
    Ensures (Action.removeFromSet s r.first key node adjustment report) c
      (fun report' c' => c.RemovedFrom s node key adjustment report report' c')
      (fun _ c' => Shrinks c [] c' ∧ c'.graph = c.graph ∧ c.SameEntries c') := by
  cases key with
  | none =>
    obtain rfl : s = .topLevel := hkey
    rw [ensures_removeFromSet_program]
    refine (removeSubtree_topLevel h hst hr).imp (fun _ d hd => ?_)
      (fun _ d hd => hd ▸ ⟨.start, rfl, .refl d⟩)
    exact {
      shrinks := (Shrinks.start.remove hd.1).quiet _ _
      loses := { hd.1.loses h with }
      removals := rfl
      steps := fun _ _ => .single (.still { hd.2 with } rfl rfl) }
  | some K =>
    obtain ⟨hpos, hK⟩ := hkey
    have hf : (c.forgetExits K).Structured := { h with }
    rw [ensures_removeFromSet_block]
    refine (removeSubtree_spec hf hr).imp (fun changed d hd => ?_)
      (fun _ d hd => hd ▸ ⟨c.shrinks_forgetExits K, rfl, c.sameEntries_forgetExits K⟩)
    rcases hd with ⟨hhead, rfl, rfl⟩ | ⟨root, gone, hroot, hc, rfl, n, n', hn, hn', rfl⟩
    · exact ⟨by simp, fun _ => .of_sheds h (.none hhead) rfl
        fun _ _ => .still { SameEntries.refl (c.forgetExits K) with } rfl rfl⟩
    · refine ⟨fun hchanged => ?_, fun hsame => ?_⟩
      · refine Ensures.imp
          (rekey_spec (c := ((c.forgetExits K).cut s r adjustment gone).countRemoval) hn' _)
          (fun report' d hd => ?_) (fun _ _ => False.elim)
        obtain ⟨hremovals, hexact, cache, rfl, st⟩ := hd
        exact .of_rekeyed h hst hK hc hroot hr hpos hn hn' (by simpa using hchanged) st hremovals
          hexact
      · refine .of_kept h hst hK hc hroot ?_
        obtain ⟨hp, hkey'⟩ := hasKey_of_cut hc hf hK hn hn'
        have hkept : n'.precision = K.precision := by
          rw [hp]
          simpa using hsame
        rwa [hkept] at hkey'

end Blockwise
