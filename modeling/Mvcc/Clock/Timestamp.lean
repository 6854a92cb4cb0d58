/-!
# Logical timestamps

One strictly increasing sequence of timestamps orders every begin and every commit. A transaction
is known by its begin timestamp.
-/

namespace Mvcc

abbrev Timestamp := UInt64

/-- A transaction's identity, equal to its begin timestamp. -/
abbrev TxnId := Timestamp

/-- The greatest timestamp to be returned, so that timestamps fit a signed word. -/
def Timestamp.greatest : Timestamp := 0x7FFFFFFFFFFFFFFF

end Mvcc
