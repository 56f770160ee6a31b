import Blockwise.Proofs.Brackets
import Blockwise.Repair.ExactHits
import Mathlib.Data.List.Forall2

/-!
The scan for exact hits reads the nesting of the blocks off the locations on a path, and not off the
links. After a run both say the same of an element that leaves a block. They differ on a call only
where a block calls itself directly, and at the ends of the path: the first node and the target may
stand at call nodes, too.
-/
namespace Blockwise

open Context

variable {program : Program} {c : Context} {n k x : NodeId} {s t : SetId} {l l' : Location}
  {m : Node State Tracked} {stack left out closed : List SetId} {opened : List Location}
  {nodes : List NodeId} {roles : List PathRole} {role : PathRole}

namespace Context

def Home (c : Context) (s : SetId) (l : Location) : Prop :=
  ∃ r f, c.sets[s]? = some r ∧ c.graph.Live r.first f ∧ f.state.location = l

theorem Home.unique (hl : c.Home s l) (hl' : c.Home s l') : l = l' := by
  obtain ⟨r, f, hr, hf, rfl⟩ := hl
  obtain ⟨r', f', hr', hf', rfl⟩ := hl'
  cases Option.some.inj (hr.symm.trans hr')
  rw [hf.unique hf']

theorem Sound.home_of_entry (h : c.Sound) (hm : c.graph.Live n m)
    (hl : c.links.setOfEntry n = some t) : 0 < t ∧ c.Home t m.state.location := by
  obtain ⟨m', b, r, f, hm', -, hpos, hr, hf, -, hstate⟩ := h.call hl
  cases Option.some.inj (hm.1.symm.trans hm')
  exact ⟨hpos, r, f, hr, hf, by rw [hstate]; rfl⟩

theorem FreshlyRun.shown_mostInner (h : c.FreshlyRun program) (hm : c.graph.Live n m) : ∃ mi,
    c.graph.Live (c.links.mostInner n) mi ∧ mi.state.location = m.state.location ∧
      mi.state.target = m.state.target := by
  have follow : ∀ hops {n m}, c.graph.Live n m → ∃ mi, c.graph.Live (c.links.follow hops n) mi ∧
      mi.state.location = m.state.location ∧ mi.state.target = m.state.target := by
    intro hops
    induction hops with
    | zero => exact fun hm => ⟨_, hm, rfl, rfl⟩
    | succ hops ih =>
      intro n m hm
      rw [Links.follow]
      cases hx : c.links.reducedOf n with
      | none => exact ⟨m, hm, rfl, rfl⟩
      | some x =>
        obtain ⟨mx, hmx, hlocation, htarget, -⟩ := h.view_spec hm hx
        obtain ⟨mi, hmi, hlocation', htarget'⟩ := ih hmx
        exact ⟨mi, hmi, hlocation'.trans hlocation, htarget'.trans htarget⟩
  exact follow _ hm

/-! ### Sets that are left at a location -/

def LeftAt (c : Context) (l : Location) (s : SetId) : Prop :=
  0 < s ∧ ∀ home, c.Home s home → c.returnsAt l home = true

theorem IsExit.leftAt (hx : c.IsExit t x) (hpos : 0 < t) (hm : c.graph.Live x m)
    (htarget : m.state.target = false) : c.LeftAt m.state.location t := by
  obtain ⟨r, f, b, m', hr, hf, hb, -, -, hm', hexit⟩ := hx
  cases hm.unique hm'
  refine ⟨hpos, fun home hhome => ?_⟩
  obtain rfl := Home.unique ⟨r, f, hr, hf, rfl⟩ hhome
  rw [returnsAt, hb]
  simpa [htarget] using hexit

theorem Inner.not_returnsAt (hi : c.Inner s n l) (hpos : 0 < s) (hl : c.Home s l') :
    c.returnsAt l l' = false := by
  obtain ⟨r, f, hr, hf, -, hreturn⟩ := hi
  obtain ⟨b, hb, hno⟩ := hreturn (Nat.pos_iff_ne_zero.1 hpos)
  obtain rfl := Home.unique ⟨r, f, hr, hf, rfl⟩ hl
  rw [returnsAt, hb]
  exact hno

theorem FreshlyRun.closed_leftAt (h : c.FreshlyRun program) (hn : c.Closes stack n left)
    (hm : c.graph.Live n m) (htarget : m.state.target = false) : ∃ closed,
      stack = closed ++ left ∧ (∀ t ∈ closed, c.LeftAt m.state.location t) ∧
        (closed = [] ↔ c.links.reducedOf n = none) := by
  induction hn generalizing m with
  | here _ hx => exact ⟨[], rfl, by simp, by simp [hx]⟩
  | @link n x m₀ t stack left hm₀ hx hin ih =>
    cases hm.unique hm₀
    obtain ⟨mx, hmx, hlocation, hsame, hpos, hexit⟩ := h.view_spec hm hx
    have hxtarget : mx.state.target = false := hsame.trans htarget
    obtain ⟨closed, rfl, hclosed, -⟩ := ih hmx hxtarget
    obtain ⟨mx', _, hmx', htop⟩ := hin.live
    cases hmx.unique hmx'
    obtain rfl := (List.cons.inj htop).1
    have hleft := hexit.leftAt hpos hmx hxtarget
    rw [hlocation] at hclosed hleft
    refine ⟨closed ++ [mx.set], by simp, fun t ht => ?_, by simp [hx]⟩
    rcases List.mem_append.1 ht with ht | ht
    · exact hclosed t ht
    · rw [List.mem_singleton.1 ht]
      exact hleft

/-! ### Open blocks by their locations -/

/-- The locations of the open blocks, innermost first, and the open sets. A block that calls itself
directly is seen as one block. -/
inductive OpenAt (c : Context) : List Location → List SetId → Prop
  | whole : OpenAt c [] [.topLevel]
  | first {l : Location} (hl : c.Home .topLevel l) : OpenAt c [l] [.topLevel]
  | call {l : Location} {t : SetId} {opened : List Location} {stack : List SetId} (ht : 0 < t)
      (hl : c.Home t l) (hne : opened.head? ≠ some l) (ho : OpenAt c opened stack) :
      OpenAt c (l :: opened) (t :: stack)
  | again {l : Location} {t : SetId} {opened : List Location} {stack : List SetId} (ht : 0 < t)
      (hl : c.Home t l) (ho : OpenAt c (l :: opened) stack) : OpenAt c (l :: opened) (t :: stack)

namespace OpenAt

theorem home (ho : c.OpenAt (l :: opened) (s :: stack)) : c.Home s l := by
  cases ho <;> assumption

theorem home_of_head (ho : c.OpenAt opened (s :: stack)) (hl : opened.head? = some l) :
    c.Home s l := by
  obtain ⟨rest, rfl⟩ := List.head?_eq_some_iff.1 hl
  exact ho.home

theorem head_of_pos (ho : c.OpenAt opened (s :: stack)) (hpos : 0 < s) :
    ∃ l rest, opened = l :: rest ∧ c.Home s l := by
  cases ho with
  | whole => exact absurd hpos (Nat.lt_irrefl 0)
  | first => exact absurd hpos (Nat.lt_irrefl 0)
  | call _ hl => exact ⟨_, _, rfl, hl⟩
  | again _ hl => exact ⟨_, _, rfl, hl⟩

theorem leave (ho : c.OpenAt opened (closed ++ s :: stack)) (hclosed : ∀ t ∈ closed, c.LeftAt l t)
    (hs : 0 < s → ∀ home, c.Home s home → c.returnsAt l home = false) :
    c.OpenAt (opened.dropWhile (c.returnsAt l)) (s :: stack) := by
  induction closed generalizing opened with
  | nil =>
    have stay : ∀ {home rest}, 0 < s → c.Home s home →
        (home :: rest).dropWhile (c.returnsAt l) = home :: rest := fun hpos hl => by
      rw [List.dropWhile_cons_of_neg]
      simp [hs hpos _ hl]
    cases ho with
    | whole => exact .whole
    | @first l' hl =>
      by_cases hreturn : c.returnsAt l l' = true
      · rw [List.dropWhile_cons_of_pos hreturn]
        exact .whole
      · rw [List.dropWhile_cons_of_neg hreturn]
        exact .first hl
    | call ht hl hne ho =>
      rw [stay ht hl]
      exact .call ht hl hne ho
    | again ht hl ho =>
      rw [stay ht hl]
      exact .again ht hl ho
  | cons t closed ih =>
    obtain ⟨⟨hpos, hreturn⟩, hclosed⟩ := List.forall_mem_cons.1 hclosed
    rw [List.cons_append] at ho
    generalize hrest : closed ++ s :: stack = rest at ho
    cases ho with
    | whole => exact absurd hpos (Nat.lt_irrefl 0)
    | first => exact absurd hpos (Nat.lt_irrefl 0)
    | call _ hl _ ho =>
      rw [List.dropWhile_cons_of_pos (hreturn _ hl)]
      exact ih (hrest ▸ ho) hclosed
    | again _ _ ho => exact ih (hrest ▸ ho) hclosed

theorem length_leave (ho : c.OpenAt opened (closed ++ left)) (hclosed : ∀ t ∈ closed, c.LeftAt l t)
    (hne : closed ≠ []) : (opened.dropWhile (c.returnsAt l)).length < opened.length := by
  obtain ⟨t, closed, rfl⟩ := List.exists_cons_of_ne_nil hne
  obtain ⟨hpos, hreturn⟩ := hclosed t (List.mem_cons_self ..)
  obtain ⟨home, rest, rfl, hhome⟩ := ho.head_of_pos hpos
  rw [List.dropWhile_cons_of_pos (hreturn home hhome)]
  exact Nat.lt_succ_of_le (List.dropWhile_sublist _).length_le

theorem leave_eq_self (ho : c.OpenAt opened (s :: stack)) (hpos : 0 < s)
    (hs : ∀ home, c.Home s home → c.returnsAt l home = false) :
    opened.dropWhile (c.returnsAt l) = opened := by
  obtain ⟨home, rest, rfl, hhome⟩ := ho.head_of_pos hpos
  rw [List.dropWhile_cons_of_neg]
  simp [hs home hhome]

end OpenAt

/-! ### Roles -/

/-- The role says what the links say, but for the call of a block by itself and for returns in the
whole program. -/
structure Fits (c : Context) (n : NodeId) (role : PathRole) : Prop where
  linked : role.isCall = true → ∃ t, c.links.setOfEntry n = some t
  call : ∀ t, c.links.setOfEntry n = some t → role.isCall = true ∨
    ∃ m, c.graph.Live n m ∧ c.Home m.set m.state.location
  view : ∀ x, c.links.reducedOf n = some x → role.isReturn = true
  leaves : role.isReturn = true → c.links.reducedOf n = none →
    ∃ m, c.graph.Live n m ∧ m.set = .topLevel

theorem Fits.unlinked (hfits : c.Fits n role) (hreturn : role.isReturn = false) :
    c.links.reducedOf n = none := by
  cases hx : c.links.reducedOf n with
  | none => rfl
  | some x =>
    rw [hfits.view x hx] at hreturn
    cases hreturn

def roleAt (c : Context) (opened : List Location) (l : Location) : PathRole where
  isCall := c.partitioning.isCallNode l && (opened.dropWhile (c.returnsAt l)).head? ≠ some l
  isReturn := (opened.dropWhile (c.returnsAt l)).length < opened.length

def openedBehind (c : Context) (opened : List Location) (l : Location) : List Location :=
  if (c.roleAt opened l).isCall then l :: opened.dropWhile (c.returnsAt l)
  else opened.dropWhile (c.returnsAt l)

theorem FreshlyRun.pathRoles_cons (h : c.FreshlyRun program) (hm : c.graph.Live n m)
    {rest : List PathRole} (hrest : c.pathRoles (c.openedBehind opened m.state.location) nodes =
      .ok rest) :
    c.pathRoles opened (n :: nodes) = .ok (c.roleAt opened m.state.location :: rest) := by
  obtain ⟨mi, hmi, hlocation, -⟩ := h.shown_mostInner hm
  simp only [pathRoles, Graph.node, hmi.1]
  change (do
    let roles ← c.pathRoles (c.openedBehind opened mi.state.location) nodes
    return c.roleAt opened mi.state.location :: roles) = _
  rw [hlocation, hrest]
  rfl

theorem FreshlyRun.openAt_enter (h : c.FreshlyRun program) (hm : c.graph.Live n m)
    (hcall : c.partitioning.isCallNode m.state.location = true ↔
      (c.links.setOfEntry n).isSome = true)
    (ho : c.OpenAt (opened.dropWhile (c.returnsAt m.state.location)) left) :
    c.OpenAt (c.openedBehind opened m.state.location) (c.enter left n) := by
  rw [openedBehind, enter]
  cases hl : c.links.setOfEntry n with
  | none =>
    rw [hl] at hcall
    have hno : c.partitioning.isCallNode m.state.location = false := by simpa using hcall
    simpa [roleAt, hno] using ho
  | some t =>
    rw [hl] at hcall
    have hyes : c.partitioning.isCallNode m.state.location = true := hcall.2 rfl
    obtain ⟨hpos, hhome⟩ := h.home_of_entry hm hl
    by_cases hhead : (opened.dropWhile (c.returnsAt m.state.location)).head? =
        some m.state.location
    · obtain ⟨rest, hrest⟩ := List.head?_eq_some_iff.1 hhead
      rw [hrest] at ho
      simpa [roleAt, hrest] using OpenAt.again hpos hhome ho
    · simpa [roleAt, hyes, hhead] using OpenAt.call hpos hhome hhead ho

theorem FreshlyRun.roleAt_fits (h : c.FreshlyRun program) (ho : c.OpenAt opened stack)
    (hn : c.Closes stack n left) (he : c.graph.Edge n k) (hhead : ¬ c.Heads n)
    (hm : c.graph.Live n m) : c.Fits n (c.roleAt opened m.state.location) ∧
      c.OpenAt (c.openedBehind opened m.state.location) (c.enter left n) := by
  obtain ⟨htarget, hinner, hcall⟩ := h.above_spec he hhead hm
  obtain ⟨closed, rfl, hclosed, hnone⟩ := h.closed_leftAt hn hm htarget
  obtain ⟨m', rest, hm', rfl⟩ := hn.live
  cases hm.unique hm'
  have hstays : 0 < m.set → ∀ home, c.Home m.set home →
      c.returnsAt m.state.location home = false := fun hpos _ => hinner.not_returnsAt hpos
  have hleave := ho.leave hclosed hstays
  refine ⟨?_, h.openAt_enter hm hcall hleave⟩
  exact {
    linked := by
      intro hc
      rw [roleAt, Bool.and_eq_true] at hc
      exact Option.isSome_iff_exists.1 (hcall.1 hc.1)
    call := by
      intro t ht
      by_cases hhome : c.Home m.set m.state.location
      · exact Or.inr ⟨m, hm, hhome⟩
      · refine Or.inl ?_
        rw [roleAt, Bool.and_eq_true]
        refine ⟨hcall.2 (by rw [ht]; rfl), decide_eq_true fun hopen => hhome ?_⟩
        exact hleave.home_of_head hopen
    view := by
      intro x hx
      refine decide_eq_true (ho.length_leave hclosed ?_)
      rw [ne_eq, hnone, hx]
      simp
    leaves := by
      intro hr hx
      refine ⟨m, hm, ?_⟩
      obtain rfl := hnone.2 hx
      by_contra hset
      have hpos := Nat.pos_of_ne_zero hset
      rw [roleAt, ho.leave_eq_self hpos (hstays hpos)] at hr
      simp at hr }

theorem FreshlyRun.roles_fit (h : c.FreshlyRun program) (ht : c.Threads stack nodes out)
    (ho : c.OpenAt opened stack) (hhead : ∀ a ∈ nodes, ¬ c.Heads a) : ∃ roles opened',
      List.Forall₂ c.Fits nodes roles ∧ c.OpenAt opened' out ∧ ∀ last rest,
        c.pathRoles opened' last = .ok rest →
          c.pathRoles opened (nodes ++ last) = .ok (roles ++ rest) := by
  induction ht generalizing opened with
  | nil => exact ⟨[], opened, .nil, ho, fun last rest hrest => hrest⟩
  | @cons n k nodes stack left out hn he _ ih =>
    obtain ⟨hnhead, hhead⟩ := List.forall_mem_cons.1 hhead
    obtain ⟨m, -, hm, -⟩ := hn.live
    obtain ⟨hfits, ho'⟩ := h.roleAt_fits ho hn he hnhead hm
    obtain ⟨roles, opened', hroles, hout, hpath⟩ := ih ho' hhead
    refine ⟨_ :: roles, opened', .cons hfits hroles, hout, fun last rest hrest => ?_⟩
    exact h.pathRoles_cons hm (hpath last rest hrest)

end Context

end Blockwise
