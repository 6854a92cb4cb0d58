/-!
# Counters

The event counts exported as metrics.
-/

namespace Mvcc

structure Counters where
  timestampsIssued : Nat
  timestampReservations : Nat
  txnsCreated : Nat
  txnsCommitted : Nat
  txnsRolledBack : Nat
  txnTimeouts : Nat
  txnCacheHits : Nat
  keepAliveFailures : Nat
  resolutionsApplied : Nat
  resolutionsDropped : Nat
  writeConflicts : Nat
  deriving DecidableEq, Repr

namespace Counters

def zero : Counters := ⟨0, 0, 0, 0, 0, 0, 0, 0, 0, 0, 0⟩

def add (a b : Counters) : Counters where
  timestampsIssued := a.timestampsIssued + b.timestampsIssued
  timestampReservations := a.timestampReservations + b.timestampReservations
  txnsCreated := a.txnsCreated + b.txnsCreated
  txnsCommitted := a.txnsCommitted + b.txnsCommitted
  txnsRolledBack := a.txnsRolledBack + b.txnsRolledBack
  txnTimeouts := a.txnTimeouts + b.txnTimeouts
  txnCacheHits := a.txnCacheHits + b.txnCacheHits
  keepAliveFailures := a.keepAliveFailures + b.keepAliveFailures
  resolutionsApplied := a.resolutionsApplied + b.resolutionsApplied
  resolutionsDropped := a.resolutionsDropped + b.resolutionsDropped
  writeConflicts := a.writeConflicts + b.writeConflicts

/-- The counters under the names of their metrics, without the parts all names share. -/
def listing (c : Counters) : List (String × Nat) :=
  [("timestamps_issued", c.timestampsIssued),
    ("timestamp_reservations", c.timestampReservations),
    ("txns_created", c.txnsCreated),
    ("txns_committed", c.txnsCommitted),
    ("txns_rolled_back", c.txnsRolledBack),
    ("txn_timeouts", c.txnTimeouts),
    ("txn_cache_hits", c.txnCacheHits),
    ("keepalive_failures", c.keepAliveFailures),
    ("resolutions_applied", c.resolutionsApplied),
    ("resolutions_dropped", c.resolutionsDropped),
    ("write_conflicts", c.writeConflicts)]

end Counters

end Mvcc
