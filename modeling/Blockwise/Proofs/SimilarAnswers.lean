import Blockwise.Proofs.CacheHistory

/-!
Similar answers stay apart from exact results. A cache is used by a sequence of requests, and what
its user can tell from them are the answers and the stored entries. Only the similar look-ups read
what they remember, or the mode of the cache. So whoever makes other requests cannot tell whether
there were similar look-ups between them, nor whether the cache is aggressive.
-/
namespace Blockwise.Cache

inductive Request (σ π : Type)
  | change (operation : Operation σ π)
  | lookup (key : CacheKey σ π)
  | containsPrecise (key : CacheKey σ π)
  | blockEntry (key : CacheKey σ π)
  | returnEntry (key : CacheKey σ π)

inductive Answer (σ π : Type)
  | done
  | result (set : Option SetId)
  | mark (precise : Bool)
  | first (node : Option NodeId)
  | exits (nodes : Option (List NodeId))
  | moved (key : Option (CacheKey σ π))
  deriving DecidableEq

structure View (σ π : Type) where
  results : List (CacheKey σ π × SetId)
  returnEntries : List (CacheKey σ π × List NodeId)
  blockEntries : List (CacheKey σ π × NodeId)
  size : Nat

section

variable {σ π : Type} {c c' : Cache σ π} {request : Request σ π} {requests : List (Request σ π)}

def view (c : Cache σ π) : View σ π where
  results := c.reached.entries
  returnEntries := c.returnEntries.entries
  blockEntries := c.blockEntries.entries
  size := c.size

def inMode (c : Cache σ π) (aggressive : Bool) : Cache σ π := { c with aggressive }

def plain (c : Cache σ π) : Cache σ π := { c with aggressive := false, imprecise := ∅ }

theorem view_eq (h : c.plain = c'.plain) : c.view = c'.view := by
  have hview : c.plain.view = c'.plain.view := by rw [h]
  exact hview

def Request.isSimilar : Request σ π → Bool
  | change (.lookupSimilar _) => true
  | _ => false

def withoutSimilar (requests : List (Request σ π)) : List (Request σ π) :=
  requests.filter fun request => !request.isSimilar

theorem withoutSimilar_cons_of_isSimilar (h : request.isSimilar = true) :
    withoutSimilar (request :: requests) = withoutSimilar requests :=
  List.filter_cons_of_neg (by simp [h])

theorem withoutSimilar_cons (h : request.isSimilar = false) :
    withoutSimilar (request :: requests) = request :: withoutSimilar requests :=
  List.filter_cons_of_pos (by simp [h])

end

variable {σ π : Type} [DecidableEq σ] [DecidableEq π] {c c' : Cache σ π}

namespace Request

variable {request : Request σ π}

def answer (c : Cache σ π) : Request σ π → Answer σ π
  | change (.lookupSimilar key) => .result (c.lookupSimilar key).1
  | change (.insert _ _) => .done
  | change (.markPrecise _) => .done
  | change (.removeEntry key) => .result (c.lookup key)
  | change (.setBlockEntry _ _) => .done
  | change (.removeBlockEntry key) => .first (c.blockEntry key)
  | change (.setReturnEntry _ _) => .done
  | change (.removeReturnEntry key) => .exits (c.returnEntry key)
  | change (.updatePrecision old set precision) => .moved (c.updatePrecision old set precision).1
  | lookup key => .result (c.lookup key)
  | containsPrecise key => .mark (c.containsPrecise key)
  | blockEntry key => .first (c.blockEntry key)
  | returnEntry key => .exits (c.returnEntry key)

def next (c : Cache σ π) : Request σ π → Cache σ π
  | change operation => operation.apply c
  | lookup _ | containsPrecise _ | blockEntry _ | returnEntry _ => c

theorem plain_next_of_isSimilar (h : request.isSimilar = true) :
    (request.next c).plain = c.plain := by
  cases request with
  | change operation =>
    cases operation with
    | lookupSimilar key =>
      obtain ⟨imprecise, hsnd⟩ := c.lookupSimilar_snd key
      simp only [next, Operation.apply, hsnd]
      rfl
    | _ => cases h
  | _ => cases h

theorem plain_next (request : Request σ π) (c : Cache σ π) :
    (request.next c.plain).plain = (request.next c).plain := by
  cases request with
  | change operation =>
    cases operation with
    | lookupSimilar key =>
      have h : ∀ d : Cache σ π, ((change (.lookupSimilar key)).next d).plain = d.plain :=
        fun _ => plain_next_of_isSimilar rfl
      rw [h, h]
      rfl
    | updatePrecision old set precision =>
      have hlookup : c.plain.lookup old = c.lookup old := rfl
      have hprecise : c.plain.containsPrecise old = c.containsPrecise old := rfl
      have hfirst : c.plain.blockEntry old = c.blockEntry old := rfl
      simp only [next, Operation.apply, updatePrecision, hlookup, hprecise, hfirst]
      split
      · cases c.containsPrecise old <;> cases c.blockEntry old <;> rfl
      · rfl
    | _ => rfl
  | _ => rfl

theorem answer_plain (h : request.isSimilar = false) :
    request.answer c.plain = request.answer c := by
  cases request with
  | change operation =>
    cases operation with
    | lookupSimilar key => cases h
    | updatePrecision old set precision =>
      have hlookup : c.plain.lookup old = c.lookup old := rfl
      simp only [answer, updatePrecision, hlookup]
      split <;> rfl
    | _ => rfl
  | _ => rfl

end Request

def serve (c : Cache σ π) (requests : List (Request σ π)) : Cache σ π :=
  requests.foldl Request.next c

/-- What the requests show, the similar look-ups apart: the answer to each, and the entries then. -/
def transcript (c : Cache σ π) : List (Request σ π) → List (Answer σ π × View σ π)
  | [] => []
  | request :: rest =>
    if request.isSimilar then transcript (request.next c) rest
    else (request.answer c, (request.next c).view) :: transcript (request.next c) rest

theorem plain_next_eq (h : c.plain = c'.plain) (request : Request σ π) :
    (request.next c).plain = (request.next c').plain := by
  rw [← request.plain_next c, h, request.plain_next]

theorem plain_serve_eq (h : c.plain = c'.plain) (requests : List (Request σ π)) :
    (c.serve requests).plain = (c'.serve requests).plain := by
  induction requests generalizing c c' with
  | nil => exact h
  | cons request rest ih => exact ih (plain_next_eq h request)

theorem plain_serve_withoutSimilar (c : Cache σ π) (requests : List (Request σ π)) :
    (c.serve (withoutSimilar requests)).plain = (c.serve requests).plain := by
  induction requests generalizing c with
  | nil => rfl
  | cons request rest ih =>
    cases h : request.isSimilar with
    | true =>
      rw [withoutSimilar_cons_of_isSimilar h, ih c]
      exact plain_serve_eq (Request.plain_next_of_isSimilar h).symm rest
    | false =>
      rw [withoutSimilar_cons h]
      exact ih (request.next c)

theorem transcript_eq (h : c.plain = c'.plain) (requests : List (Request σ π)) :
    c.transcript requests = c'.transcript requests := by
  induction requests generalizing c c' with
  | nil => rfl
  | cons request rest ih =>
    have hnext := plain_next_eq h request
    rw [transcript, transcript, ih hnext, view_eq hnext]
    cases hsim : request.isSimilar with
    | true => rfl
    | false => rw [← request.answer_plain hsim, h, request.answer_plain hsim]

theorem transcript_withoutSimilar (c : Cache σ π) (requests : List (Request σ π)) :
    c.transcript (withoutSimilar requests) = c.transcript requests := by
  induction requests generalizing c with
  | nil => rfl
  | cons request rest ih =>
    cases h : request.isSimilar with
    | true =>
      rw [withoutSimilar_cons_of_isSimilar h, ih c, transcript, if_pos h]
      exact transcript_eq (Request.plain_next_of_isSimilar h).symm rest
    | false =>
      rw [withoutSimilar_cons h, transcript, transcript, if_neg (by simp [h]),
        if_neg (by simp [h]), ih (request.next c)]

/-- In either mode, and without the similar look-ups, all other requests get the same answers. -/
theorem similar_lookups_unobservable (c : Cache σ π) (mode mode' : Bool)
    (requests : List (Request σ π)) :
    (c.inMode mode).transcript requests = (c.inMode mode').transcript requests ∧
    (c.inMode mode).transcript requests = (c.inMode mode').transcript (withoutSimilar requests) ∧
    ∀ k,
      ((c.inMode mode).serve (requests.take k)).view =
        ((c.inMode mode').serve (requests.take k)).view ∧
      ((c.inMode mode).serve (requests.take k)).view =
        ((c.inMode mode').serve (withoutSimilar (requests.take k))).view := by
  have hmode : (c.inMode mode).plain = (c.inMode mode').plain := rfl
  have hsame := transcript_eq hmode requests
  refine ⟨hsame, hsame.trans (transcript_withoutSimilar ..).symm, fun k => ?_⟩
  have hserved := plain_serve_eq hmode (requests.take k)
  exact ⟨view_eq hserved, view_eq (hserved.trans (plain_serve_withoutSimilar ..).symm)⟩

example :
    let c := ({ aggressive := true } : Cache String String).insert ⟨"x=0", "exact", 10⟩ 1
    let request : Request String String := .change (.lookupSimilar ⟨"x=0", "rough", 10⟩)
    request.answer (c.inMode true) = .result (some 1) ∧
      request.answer (c.inMode false) = .result none := by
  decide +kernel

end Blockwise.Cache
