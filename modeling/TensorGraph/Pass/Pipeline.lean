import TensorGraph.Pass.Canonical
import TensorGraph.Pass.Fusion
import TensorGraph.Pass.InPlace
import TensorGraph.Pass.Placement
import TensorGraph.Pass.Transfers

/-!
Running passes one after the other, with a report of what each of them did.
-/

namespace TensorGraph

/-- The effect of one pass on the size of the program. -/
structure PassReport where
  pass : PassName
  nodesBefore : Nat
  nodesAfter : Nat
  transfersBefore : Nat
  transfersAfter : Nat
  deriving DecidableEq, Repr, Inhabited

/-- The program after one pass. -/
def PassName.run (pass : PassName) (c : Context) (p : Program) : Except Error Program :=
  match pass with
  | canonicalize => Canonical.run c p
  | placement => Placement.run c p
  | transfer => Transfers.run c p
  | fusion => Fusion.run c p
  | inplace => InPlace.run c p
  | dce => p.prune

/-- Runs passes from left to right. -/
def Program.runPasses (c : Context) (p : Program) :
    List PassName → Except Error (Program × List PassReport)
  | [] => .ok (p, [])
  | pass :: passes => do
    let next ← pass.run c p
    let entry : PassReport := {
      pass
      nodesBefore := p.nodeCount
      nodesAfter := next.nodeCount
      transfersBefore := p.transferCount
      transfersAfter := next.transferCount }
    let (final, report) ← next.runPasses c passes
    return (final, entry :: report)

end TensorGraph
