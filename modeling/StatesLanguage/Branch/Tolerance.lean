/-!
How many failed items a Map state puts up with.
-/
namespace StatesLanguage

structure Tolerance where
  count : Option Nat := none
  percentage : Option Float := none
  deriving Inhabited

namespace Tolerance

def isConfigured (t : Tolerance) : Bool := t.count.isSome || t.percentage.isSome

/-- The share of failed items in percent. -/
def failedPercentage (failed total : Nat) : Float :=
  Float.ofNat failed * 100.0 / Float.ofNat total

/-- Whether so many failures among so many items stay within every limit that is given. Without a
limit no failure is put up with. -/
def allows (t : Tolerance) (failed total : Nat) : Bool :=
  t.isConfigured && t.count.all (fun n => failed ≤ n) &&
    t.percentage.all fun p => 0 < total && failedPercentage failed total ≤ p

end Tolerance

end StatesLanguage
