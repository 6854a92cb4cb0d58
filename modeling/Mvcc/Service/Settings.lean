import Mvcc.Schema.Demarcation
import Mvcc.Service.LogLevel
import Mvcc.Txn.Settings

/-!
# Settings of the service

Every setting has a default, except the credentials, which are given together or not at all.
-/

namespace Mvcc

structure Credentials where
  user : String
  password : String
  deriving DecidableEq, Repr

structure OracleSettings where
  blockSize : UInt64
  markPath : String
  deriving DecidableEq, Repr

structure ResolverSettings where
  threads : UInt64
  queueSize : UInt64
  deriving DecidableEq, Repr

structure DdlSettings where
  cacheSize : UInt64
  cacheLifetime : UInt64
  deriving DecidableEq, Repr

structure LogSettings where
  dir : Option String
  level : String
  deriving DecidableEq, Repr

structure ServiceSettings where
  listen : String
  metricsListen : Option String
  metricsAuth : Option Credentials
  oracle : OracleSettings
  txn : TxnSettings
  resolver : ResolverSettings
  ddl : DdlSettings
  log : LogSettings
  deriving DecidableEq, Repr

inductive ServiceFault where
  | txn (fault : SettingsFault)
  | zeroBlock
  | zeroResolver
  | zeroDdlCache
  | logLevel (text : String)
  deriving DecidableEq, Repr

def ServiceFault.message : ServiceFault → String
  | .txn fault => (TxnError.settings fault).message
  | .zeroBlock => "oracle.block_size must be positive"
  | .zeroResolver => "resolver.threads and resolver.queue_size must be positive"
  | .zeroDdlCache => "ddl.cache_size must be positive"
  | .logLevel text => LogLevel.refusal text

namespace ServiceSettings

def standardAddress : String := "127.0.0.1:7420"

def standard : ServiceSettings where
  listen := standardAddress
  metricsListen := none
  metricsAuth := none
  oracle := ⟨8192, "stratum.hwm"⟩
  txn := .standard
  resolver := ⟨4, 16384⟩
  ddl := ⟨UInt64.ofNat DdlFilter.standardCapacity, DdlFilter.standardLifetime⟩
  log := ⟨none, "info"⟩

instance : Inhabited ServiceSettings := ⟨standard⟩

def logLevel? (s : ServiceSettings) : Option LogLevel := LogLevel.parse? s.log.level

def validate (s : ServiceSettings) : Except ServiceFault Unit := do
  s.txn.validate.mapError .txn
  if s.oracle.blockSize = 0 then throw .zeroBlock
  if s.resolver.threads = 0 ∨ s.resolver.queueSize = 0 then throw .zeroResolver
  if s.ddl.cacheSize = 0 then throw .zeroDdlCache
  if s.logLevel?.isNone then throw (.logLevel s.log.level)

end ServiceSettings

end Mvcc
