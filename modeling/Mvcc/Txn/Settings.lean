import Mvcc.Txn.Error

/-!
# Settings of transactions

The heartbeat interval, the timeout and the cache of finished transactions.
-/

namespace Mvcc

/-- How a ledger treats its transactions; times are in milliseconds. -/
structure TxnSettings where
  keepAliveInterval : UInt64
  /-- The keep-alive timeout of active transactions. -/
  timeout : UInt64
  /-- Slack added to the timeout for clock drift. -/
  timeoutSlack : UInt64
  /-- Capacity of the cache of finished transactions. -/
  completedCapacity : UInt64
  /-- Lifetime of its entries. -/
  completedLifetime : UInt64
  deriving DecidableEq, Repr

namespace TxnSettings

def standard : TxnSettings := ⟨15000, 150000, 1000, 65536, 30000⟩

instance : Inhabited TxnSettings := ⟨standard⟩

/-- Refuse settings under which live transactions could time out. -/
def validate (s : TxnSettings) : Except SettingsFault Unit :=
  if s.keepAliveInterval = 0 then .error .zeroInterval
  else if s.timeout ≤ s.keepAliveInterval then
    .error (.intervalNotBelowTimeout s.keepAliveInterval s.timeout)
  else if s.completedCapacity = 0 then .error .zeroCompletedCache
  else .ok ()

end TxnSettings

end Mvcc
