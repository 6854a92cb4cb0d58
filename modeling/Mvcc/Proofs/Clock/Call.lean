import Mvcc.Clock.Call
import Mvcc.Proofs.Clock.Mark

/-!
# Calls without interference

An uninterrupted call computes `Oracle.next`.
-/

namespace Mvcc.Oracle

def carry : Nat → CallStage × Oracle → CallStage × Oracle
  | 0, call => call
  | stages + 1, call => carry stages (call.2.proceed call.1)

/-- A call that takes its stages without interleaving is `Oracle.next`. -/
theorem carry_eq_next (o : Oracle) :
    carry 7 (.counted o.count.counter, o.count) =
      match o.next with
      | .ok time o' => (.ended (.ok time), o')
      | .error e o' => (.ended (.error e), o') := by
  unfold next
  by_cases hgreatest : Timestamp.greatest < o.count.counter
  · simp only [carry, proceed, hgreatest, if_true]
  · by_cases hreserved : o.count.counter ≤ o.count.reserved
    · simp only [carry, proceed, hgreatest, hreserved, if_true, if_false]
    · cases hstore : o.count.mark.store (o.count.blockEnd o.count.counter) with
      | error e =>
        simp only [carry, proceed, reserve, hgreatest, hreserved, hstore, Except.map, if_false]
      | ok mark =>
        simp only [carry, proceed, reserve, hgreatest, hreserved, hstore, Except.map, if_false]
        rfl

end Mvcc.Oracle
