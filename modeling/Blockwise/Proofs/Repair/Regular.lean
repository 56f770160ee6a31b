import Blockwise.Proofs.Repair.Outcome

/-!
The removals of a repair keep a context regular: the last node of a set is still its greatest one,
and the results stand under the keys of the first nodes.
-/
namespace Blockwise

open Context

variable {c c' : Context} {s : SetId} {r : ReachedSet} {root node : NodeId} {gone : IdSet}

namespace ReachedSet

theorem removeAll_last (hlast : r.last ∈ r ∧ ∀ n ∈ r, n ≤ r.last) (hfirst : r.first ∈ r)
    (hkept : r.first ∉ gone) : (r.removeAll gone).last ∈ r.removeAll gone ∧
      ∀ n ∈ r.removeAll gone, n ≤ (r.removeAll gone).last := by
  by_cases hgone : r.last ∈ gone
  · exact last_removeAll_of_mem hgone (mem_removeAll.2 ⟨hfirst, hkept⟩)
  · rw [last_removeAll_of_not_mem hgone]
    exact ⟨mem_removeAll.2 ⟨hlast.1, hgone⟩, fun n hn => hlast.2 n (mem_removeAll.1 hn).1⟩

end ReachedSet

namespace Context

theorem Cuttable.lastGreatest (hc : c.Cuttable s r root gone) (h : c.Structured)
    (hlast : c.LastGreatest) (adjustment : Adjustment Tracked) :
    (c.cut s r adjustment gone).LastGreatest := by
  intro t q hq
  rw [cut, getElem?_setIfInBounds hc.set] at hq
  split at hq
  · cases hq
    obtain ⟨more, hreached, -⟩ := Region.applyRemoval_reached adjustment
      ⟨gone, Region.frontier c.graph gone⟩ ⟨c.graph, r⟩
    have hkept : r.first ∉ gone := hc.heads_not_gone h ⟨s, r, hc.set, rfl⟩
    rw [hreached]
    exact ReachedSet.removeAll_last (hlast hc.set) (h.first_mem hc.set) hkept
  · exact hlast hq

theorem Sheds.regular (h : c.Regular) (st : c.Sheds s node c') : c'.Regular := by
  cases st with
  | none => exact h
  | @cut r root gone adjustment cache hc hroot hcache hforgot =>
    have e : c.Evolves (c.cut s r adjustment gone) := evolves_cut hc h.toStructured
    have hs : (c.cut s r adjustment gone).Structured := .cut hc h.toStructured
    refine h.follow { e with } { hs with } (hc.lastGreatest h.toStructured h.last adjustment) rfl ?_
      hcache.similar
    intro K t ht
    obtain ⟨⟨hts, ht⟩ | ⟨rfl, hpos, hkey⟩, hp⟩ := hcache.stored ht
    · obtain ⟨hpos, hkey, -⟩ := h.stored ht
      exact ⟨hpos, hc.hasKey_of_ne h.toStructured hts hkey, hp⟩
    · exact ⟨hpos, hkey, hp⟩

end Context

theorem Shrinks.regular {roots : List NodeId} (h : c.Regular) (g : Shrinks c roots c') :
    c'.Regular := by
  induction g with
  | start => exact h
  | quiet _ statistics shutdown ih => exact ih.quiet statistics shutdown
  | forgetReturns _ K ih => exact ih.removeReturnEntry K
  | forgetEntry _ K ih => exact ih.removeBlockEntry K
  | fresh _ hK _ ih => exact ih.cacheSet hK
  | remove _ rm ih => exact rm.regular ih
  | stale _ _ _ rm ih => exact rm.regular ih

end Blockwise
