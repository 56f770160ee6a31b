import Blockwise.ReachedSet.Basic
import Blockwise.Text.Numeral

/-!
Options of an analysis run, read from command line arguments. An argument that serves as the value
of the option before it is still read as an option itself, and of several settings the last wins.
-/
namespace Blockwise

structure Options where
  aggressiveCaching : Bool := false
  order : WaitlistOrder := .fifo
  maxDepth : Nat := 20
  statsJson : Bool := false
  deriving DecidableEq, Repr

namespace Options

def readOrder (value : Option String) : WaitlistOrder :=
  if value = some "lifo" then .lifo else .fifo

def readDepth (value : Option String) : Nat :=
  (value.bind fun v => Numeral.readBelow UInt32.size v.toList).getD ({} : Options).maxDepth

def read (arg : String) (next : Option String) (o : Options) : Options :=
  if arg = "--aggressive-caching" then { o with aggressiveCaching := true }
  else if arg = "--stats-json" then { o with statsJson := true }
  else if arg = "--waitlist" then { o with order := readOrder next }
  else if arg = "--max-depth" then { o with maxDepth := readDepth next }
  else o

def readAll (o : Options) : List String → Options
  | [] => o
  | arg :: rest => readAll (o.read arg rest.head?) rest

def ofArgs (args : List String) : Options := readAll {} args

end Options

end Blockwise
