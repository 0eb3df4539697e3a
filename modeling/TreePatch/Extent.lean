/-! A stretch of positions, from `start` up to and not including `stop`. -/

namespace TreePatch

structure Extent where
  start : Nat
  stop : Nat
  deriving DecidableEq, Repr

namespace Extent

/-- Zero for a reversed extent. -/
def length (e : Extent) : Nat := e.stop - e.start

def isEmpty (e : Extent) : Bool := e.length == 0

def describe (e : Extent) : String := toString e.start ++ ".." ++ toString e.stop

end Extent
end TreePatch
