import Blockwise.Context.Consistency
import Blockwise.Repair

/-!
A sample analysis. The program calls one function twice and would violate its property if the
function left `y` at 1, which it never does. The first exploration tracks nothing and finds a
target; one refinement at the block on the path to it shows that the program is safe.
-/
namespace Blockwise.Sample

def program : Program :=
  [⟨0, .assign "x" 0, 1⟩, ⟨1, .call 2, 10⟩, ⟨2, .call 3, 10⟩, ⟨3, .assume "y" 1 true, 4⟩,
    ⟨4, .error, 5⟩, ⟨10, .assign "y" 0, 11⟩, ⟨11, .skip, 12⟩, ⟨12, .return, 2⟩,
    ⟨12, .return, 3⟩]

def start (options : Options) : Context :=
  .start (.ofList [.of 10 [11] [12]]) (.ofList [(10, ["y"])]) { location := 0 } ∅ options

def refinementPoint (c : Context) (path : Path) : Except Fault PathIndex :=
  match path.nodes.findIdx? fun node => (c.graph.node? node).any (·.set ≠ .topLevel) with
  | some element => .ok element
  | none => path.last

def safe : String := "The program is safe"

def verdict (targets : List NodeId) : String :=
  if targets.isEmpty then safe else "Found " ++ toString targets.length ++ " target states"

def refine (fuel : Nat) (target : NodeId) : Repairing Report := do
  match Path.toTarget (← get) target with
  | .error halt => throw halt
  | .ok path =>
    let element ← refinementPoint (← get) path
    repairPath fuel path element [Tracked.increment (.ofList ["x", "y"])]

def analyse (fuel : Nat) : EStateM Halt Context String := do
  match (← run program fuel).head? with
  | none => return safe
  | some target =>
    let _ ← refine fuel target
    return verdict (← run program fuel)

def stepLimit : Nat := 1000000

structure Outcome where
  output : List String
  failure : Option Halt

def report (c : Context) : List String :=
  if c.options.statsJson then [c.statistics.json] else c.statistics.lines

def outcome (fuel : Nat) (options : Options) : Outcome :=
  match analyse fuel (start options) with
  | .error halt _ => ⟨[], some halt⟩
  | .ok verdict c => match c.checkConsistency with
    | .error fault => ⟨[verdict], some (.fault fault)⟩
    | .ok _ => ⟨verdict :: report c, none⟩

def failureText : Halt → String
  | .fault fault => "Analysis failed: " ++ fault.message
  | .outOfFuel => "Analysis failed: out of fuel"

end Blockwise.Sample
