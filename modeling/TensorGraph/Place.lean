import TensorGraph.Kind

/-!
Where values live and what is known of them before they are computed: a kind, a rank and, once
placed, a location.
-/

namespace TensorGraph

/-- Where a buffer lives: in host memory, or on the accelerator with that number. -/
inductive Location where
  | host
  | device (ordinal : Nat)
  deriving DecidableEq, Repr, Inhabited

namespace Location

def isHost : Location → Bool
  | host => true
  | device _ => false

def name : Location → String
  | host => "host"
  | device n => s!"device{n}"

instance : ToString Location := ⟨name⟩

end Location

/-- The location a value is placed at, once it is. -/
abbrev Place := Option Location

/-- The name of a place, a question mark before placement. -/
def Place.name (place : Place) : String := (place.map Location.name).getD "?"

/-- Static type of a graph value. -/
structure Ty where
  kind : Kind
  rank : Nat
  place : Place := none
  deriving DecidableEq, Repr, Inhabited

namespace Ty

/-- The type at another place. -/
def placed (t : Ty) (place : Place) : Ty := { t with place }

def name (t : Ty) : String := t.kind.name ++ s!"[{t.rank}]@" ++ Place.name t.place

end Ty

end TensorGraph
