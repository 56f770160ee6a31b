import Blockwise.Cache
import Blockwise.Text.Quoted
import Blockwise.Value.State

/-!
How value states, precisions and cache keys are written.
-/
namespace Blockwise

def braced (items : List String) : String := "\x7b" ++ ", ".intercalate items ++ "\x7d"

def State.text (s : State) : String :=
  s.location.text ++
    braced (s.values.entries.map fun e => Quoted.quote e.1 ++ ": " ++ toString e.2) ++
    if s.target then " (target)" else ""

def Tracked.text (tracked : Tracked) : String := "track" ++ braced (tracked.toList.map Quoted.quote)

def CacheKey.text (key : CacheKey State Tracked) : String :=
  "CacheKey \x7b state: " ++ key.state.text ++ ", precision: " ++ Tracked.text key.precision ++
    ", block: " ++ Location.text key.block ++ " \x7d"

end Blockwise
