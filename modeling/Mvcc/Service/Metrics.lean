import Mvcc.Service.Counters
import Mvcc.Service.Network
import Mvcc.Service.Settings
import Mvcc.Text.Base64
import Mvcc.Text.Utf8

/-!
# Metrics

The exported metrics, served under one path, optionally behind credentials.
-/

namespace Mvcc

inductive MetricKind where
  | counter
  | histogram
  deriving DecidableEq, Repr

namespace MetricKind

def name : MetricKind → String
  | .counter => "counter"
  | .histogram => "histogram"

def ending : MetricKind → String
  | .counter => "_total"
  | .histogram => "_seconds"

end MetricKind

structure Metric where
  label : String
  kind : MetricKind
  help : String
  deriving DecidableEq, Repr

namespace Metric

def all : List Metric :=
  [⟨"timestamps_issued", .counter, "Timestamps handed out by the oracle"⟩,
    ⟨"timestamp_reservations", .counter, "High-water mark reservations persisted"⟩,
    ⟨"timestamp_reserve_latency", .histogram, "Latency of persisting a timestamp block"⟩,
    ⟨"txns_created", .counter, "Transactions created"⟩,
    ⟨"txns_committed", .counter, "Transactions committed"⟩,
    ⟨"txns_rolled_back", .counter, "Transactions rolled back"⟩,
    ⟨"txn_timeouts", .counter, "Active transactions observed past their keep-alive timeout"⟩,
    ⟨"txn_cache_hits", .counter, "Completed-transaction cache hits"⟩,
    ⟨"keepalive_failures", .counter, "Heartbeat writes that failed"⟩,
    ⟨"resolutions_applied", .counter, "Cell stamps rolled forward"⟩,
    ⟨"resolutions_dropped", .counter, "Resolve events dropped on a full queue"⟩,
    ⟨"write_conflicts", .counter, "Write-write conflicts detected"⟩]

def name (metric : Metric) : String := "stratum_" ++ metric.label ++ metric.kind.ending

def lines (metric : Metric) : List String :=
  ["# HELP " ++ metric.name ++ " " ++ metric.help,
    "# TYPE " ++ metric.name ++ " " ++ metric.kind.name]

def description : List String := (all.flatMap lines).mergeSort fun a b => !decide (b < a)

end Metric

namespace Exporter

/-- A request, with the values of its authorization headers. -/
structure Request where
  target : String
  authorization : List String
  deriving DecidableEq, Repr

inductive Status where
  | ok
  | unauthorized
  | notFound
  deriving DecidableEq, Repr

def Status.code : Status → Nat
  | .ok => 200
  | .unauthorized => 401
  | .notFound => 404

def Request.path (request : Request) : String :=
  String.ofList (request.target.toList.takeWhile fun c => c ≠ '?' && c ≠ '#')

def authorization (auth : Credentials) : String :=
  "Basic " ++ Text.Base64.encode (Text.toUtf8 (auth.user ++ ":" ++ auth.password))

/-- The answer to a request. Of several authorization headers the first counts. -/
def answer (auth : Option Credentials) (request : Request) : Status :=
  if request.path ≠ "/metrics" then .notFound
  else if auth.all fun auth => request.authorization.head? = some (authorization auth) then .ok
  else .unauthorized

inductive Fault where
  | badAddress
  /-- The address could not be bound. -/
  | deaf (fault : IoFault)
  deriving DecidableEq, Repr

def Fault.message : Fault → String
  | .badAddress => "invalid socket address syntax"
  | .deaf fault => "error creating server listener: " ++ fault.message

/-- Export metrics at an address, which is in figures. -/
def listen (network : Network) (address : String) : Except Fault Network := do
  let some place := Text.Address.parse? address | throw .badAddress
  (network.listen place).mapError .deaf

end Exporter

end Mvcc
