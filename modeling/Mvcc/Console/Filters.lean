import Mvcc.Console.State

/-!
# Schema filters by name
-/

namespace Mvcc.Console

def saveFilter (name : String) (filter : DdlFilter) : TxnM Console Unit :=
  modify fun c => { c with filters := c.filters.insert name filter }

def filterFor (id : TxnId) (settings : DdlSettings) : TxnM Console DdlFilter := do
  let owner ← onEnv (Environment.view id)
  pure (.new owner settings.cacheSize.toNat settings.cacheLifetime)

def visible (name : String) (filter : DdlFilter) (txn : TxnId) : TxnM Console Bool := do
  let (visible, filter) := filter.isVisibleBy txn
  saveFilter name filter
  pure visible

def reload (name : String) (filter : DdlFilter) : TxnM Console Unit := do
  saveFilter name (← asking filter.reload)

/-- Names of filters in the order of the filters; those of equal filters stay in order. -/
def sorted (filters : List (String × DdlFilter)) : List String :=
  (filters.mergeSort fun f g => (f.2.compare g.2).isLE).map (·.1)

end Mvcc.Console
