import Blockwise.Fault

/-!
Cooperative cancellation. An analysis polls its flag between steps and stops at the first poll that
finds it raised. A flag may be raised from outside at any moment of the run, so it is described by
the number of polls that still pass; once raised it stays raised.
-/
namespace Blockwise

inductive Shutdown where
  | never
  /-- The flag is raised after so many further polls. -/
  | after (polls : Nat)
  deriving DecidableEq, Repr

namespace Shutdown

def requested : Shutdown := after 0

def isRequested (s : Shutdown) : Bool := s = requested

def check (s : Shutdown) : Except Fault Unit :=
  if s.isRequested then .error .interrupted else .ok ()

def next : Shutdown → Shutdown
  | never => never
  | after polls => after (polls - 1)

end Shutdown

/-- Handles made from one another share a flag. -/
structure FlagBoard where
  flags : List Shutdown
  handles : List Nat
  deriving DecidableEq

namespace FlagBoard

def start : FlagBoard := ⟨[.never], [0]⟩

def addFresh (b : FlagBoard) : FlagBoard := ⟨b.flags ++ [.never], b.handles ++ [b.flags.length]⟩

def share (handle : Nat) (b : FlagBoard) : FlagBoard :=
  match b.handles[handle]? with
  | some flag => { b with handles := b.handles ++ [flag] }
  | none => b

def request (handle : Nat) (b : FlagBoard) : FlagBoard :=
  match b.handles[handle]? with
  | some flag => { b with flags := b.flags.set flag .requested }
  | none => b

def seen (b : FlagBoard) : List Shutdown := b.handles.map fun flag => b.flags[flag]?.getD .never

end FlagBoard

end Blockwise
