import Blockwise.Text.Duration
import Blockwise.Text.Quoted

/-!
Counters of an analysis run and the two forms in which they are reported.
-/
namespace Blockwise

structure Statistics where
  hits : Nat := 0
  similarHits : Nat := 0
  misses : Nat := 0
  /-- Cache entries that a repair invalidated or created. -/
  recomputes : Nat := 0
  repairs : Nat := 0
  pairRemovals : Nat := 0
  /-- Set by whoever measures a repair; the operations themselves read no clock. -/
  repairTime : Duration := {}
  deriving DecidableEq, Repr

namespace Statistics

def counters (s : Statistics) : List (String × Nat) :=
  [("hits", s.hits), ("misses", s.misses), ("pair_removals", s.pairRemovals),
    ("recomputes", s.recomputes), ("repairs", s.repairs), ("similar_hits", s.similarHits)]

def repairMillis (s : Statistics) : Nat := s.repairTime.millis % UInt64.size

def fields (s : Statistics) : List (String × Nat) :=
  [("hits", s.hits), ("misses", s.misses), ("pair_removals", s.pairRemovals),
    ("recomputes", s.recomputes), ("repair_time_ms", s.repairMillis), ("repairs", s.repairs),
    ("similar_hits", s.similarHits)]

def json (s : Statistics) : String :=
  "\x7b" ++ ",".intercalate (s.fields.map fun e => Quoted.quote e.1 ++ ":" ++ toString e.2) ++
    "\x7d"

def lines (s : Statistics) : List String :=
  ["Cache hits:            " ++ toString s.hits,
    "  with other precision: " ++ toString s.similarHits,
    "Cache misses:          " ++ toString s.misses,
    "Recomputed entries:    " ++ toString s.recomputes,
    "Subtree repairs:       " ++ toString s.repairs,
    "Pairwise removals:     " ++ toString s.pairRemovals,
    "Time for repairs:      " ++ s.repairTime.text]

def text (s : Statistics) : String := "\n".intercalate s.lines

end Statistics

end Blockwise
