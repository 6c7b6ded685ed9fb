import TensorGraph.Error

/-!
The passes by name, in the order in which they run.
-/

namespace TensorGraph

/-- A pass over programs. -/
inductive PassName where
  | canonicalize
  | placement
  | transfer
  | fusion
  | inplace
  | dce
  deriving DecidableEq, Repr, Inhabited

namespace PassName

/-- Every pass, in the order of a standard run. -/
def all : List PassName := [canonicalize, placement, transfer, fusion, inplace, dce]

def name : PassName → String
  | canonicalize => "canonicalize"
  | placement => "placement"
  | transfer => "transfer"
  | fusion => "fusion"
  | inplace => "inplace"
  | dce => "dce"

/-- The pass of that name. -/
def ofName? (name : String) : Option PassName := all.find? fun p => p.name == name

/-- Refuses names that cannot be excluded from a run. -/
def checkExcluded : List String → Except Error Unit
  | [] => .ok ()
  | name :: names =>
    if name = "placement" then
      .error (.configuration "the placement pass cannot be excluded")
    else if (ofName? name).isNone then .error (.configuration ("unknown pass `" ++ name ++ "`"))
    else checkExcluded names

/-- The passes of a run that leaves out those with the given names. -/
def standard (excluded : List String) : Except Error (List PassName) := do
  checkExcluded excluded
  return all.filter fun p => !excluded.contains p.name

end PassName

end TensorGraph
