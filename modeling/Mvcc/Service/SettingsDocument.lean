import Mvcc.Document.Grammar
import Mvcc.Document.Value
import Mvcc.Service.Settings
import Mvcc.Text.Utf8

/-!
# Settings in documents

Settings are read section by section. Missing ones have their defaults, and unknown names are
ignored. The result is validated.
-/

namespace Mvcc

open Document (Node Dialect Section Source)

namespace TxnSettings

def names : List String :=
  ["keep_alive_interval_ms", "timeout_ms", "timeout_fudge_ms", "completed_cache_size",
    "completed_cache_ttl_ms"]

def ofNode? (source : Source) (node : Node) : Option TxnSettings := do
  let part ← Section.read? source names node
  let s := standard
  some {
    keepAliveInterval := ← part.get? "keep_alive_interval_ms" source.word? s.keepAliveInterval
    timeout := ← part.get? "timeout_ms" source.word? s.timeout
    timeoutSlack := ← part.get? "timeout_fudge_ms" source.word? s.timeoutSlack
    completedCapacity := ← part.get? "completed_cache_size" source.word? s.completedCapacity
    completedLifetime := ← part.get? "completed_cache_ttl_ms" source.word? s.completedLifetime }

end TxnSettings

/-- Credentials in a section; both parts have to be there. -/
def Credentials.ofNode? (source : Source) (node : Node) : Option Credentials := do
  let part ← Section.read? source ["user", "password"] node
  some ⟨← part.require? "user" source.text?, ← part.require? "password" source.text?⟩

def OracleSettings.ofNode? (source : Source) (standard : OracleSettings) (node : Node) :
    Option OracleSettings := do
  let part ← Section.read? source ["block_size", "high_water_mark_path"] node
  some {
    blockSize := ← part.get? "block_size" source.word? standard.blockSize
    markPath := ← part.get? "high_water_mark_path" source.text? standard.markPath }

def ResolverSettings.ofNode? (source : Source) (standard : ResolverSettings) (node : Node) :
    Option ResolverSettings := do
  let part ← Section.read? source ["threads", "queue_size"] node
  some {
    threads := ← part.get? "threads" source.word? standard.threads
    queueSize := ← part.get? "queue_size" source.word? standard.queueSize }

def DdlSettings.ofNode? (source : Source) (standard : DdlSettings) (node : Node) :
    Option DdlSettings := do
  let part ← Section.read? source ["cache_size", "cache_ttl_ms"] node
  some {
    cacheSize := ← part.get? "cache_size" source.word? standard.cacheSize
    cacheLifetime := ← part.get? "cache_ttl_ms" source.word? standard.cacheLifetime }

def LogSettings.ofNode? (source : Source) (standard : LogSettings) (node : Node) :
    Option LogSettings := do
  let part ← Section.read? source ["dir", "level"] node
  some {
    dir := ← part.get? "dir" (source.optional? source.text?) standard.dir
    level := ← part.get? "level" source.text? standard.level }

inductive DocumentFault where
  | unreadable
  /-- The text does not parse, or has the wrong shape. -/
  | refused
  | invalid (fault : ServiceFault)
  deriving DecidableEq, Repr

namespace ServiceSettings

def names : List String :=
  ["listen", "metrics_listen", "metrics_auth", "oracle", "txn", "resolver", "ddl", "log"]

def ofDocument? (dialect : Dialect) (root : Node) : Option ServiceSettings := do
  let source : Source := ⟨dialect, root⟩
  let part ← Section.read? source names root
  let s := standard
  some {
    listen := ← part.get? "listen" source.text? s.listen
    metricsListen := ← part.get? "metrics_listen" (source.optional? source.text?) s.metricsListen
    metricsAuth := ←
      part.get? "metrics_auth" (source.optional? (Credentials.ofNode? source)) s.metricsAuth
    oracle := ← part.get? "oracle" (OracleSettings.ofNode? source s.oracle) s.oracle
    txn := ← part.get? "txn" (TxnSettings.ofNode? source) s.txn
    resolver := ← part.get? "resolver" (ResolverSettings.ofNode? source s.resolver) s.resolver
    ddl := ← part.get? "ddl" (DdlSettings.ofNode? source s.ddl) s.ddl
    log := ← part.get? "log" (LogSettings.ofNode? source s.log) s.log }

def ofText (text : String) : Except DocumentFault ServiceSettings := do
  let some settings := (Document.parse? text).bind (ofDocument? .indented) | throw .refused
  settings.validate.mapError .invalid
  pure settings

/-- The validated settings in a file, given its content if there is such a file. -/
def ofFile (content : Option Bytes) : Except DocumentFault ServiceSettings := do
  let some raw := content | throw .unreadable
  let text ← (Text.ofUtf8 raw).mapError fun _ => .unreadable
  ofText text

end ServiceSettings

def DocumentFault.context (path : String) : DocumentFault → String
  | .unreadable => "read config " ++ path
  | .refused | .invalid _ => "load config " ++ path

end Mvcc
