/-!
# Failures of timestamp allocation
-/

namespace Mvcc

/-- What the operating system, or the device in its place, answers to a failed request. -/
inductive IoFault where
  | storeDisabled
  | noSuchFile
  | isDirectory
  | notDirectory
  | unreachable
  | refused
  | addressInUse
  | addressUnavailable
  | invalidArgument
  | badAddress
  | badService
  | badName
  | unknownName
  deriving DecidableEq, Repr

def IoFault.message : IoFault → String
  | .storeDisabled => "store disabled"
  | .noSuchFile => "No such file or directory (os error 2)"
  | .isDirectory => "Is a directory (os error 21)"
  | .notDirectory => "Not a directory (os error 20)"
  | .unreachable => "Network is unreachable (os error 101)"
  | .refused => "Connection refused (os error 111)"
  | .addressInUse => "Address already in use (os error 98)"
  | .addressUnavailable => "Cannot assign requested address (os error 99)"
  | .invalidArgument => "Invalid argument (os error 22)"
  | .badAddress => "invalid socket address"
  | .badService => "invalid port value"
  | .badName => "failed to lookup address information: Name or service not known"
  | .unknownName => "failed to lookup address information: Temporary failure in name resolution"

inductive MarkFault where
  | length (bytes : Nat) (path : String)
  | checksum (path : String)
  deriving DecidableEq, Repr

def MarkFault.message : MarkFault → String
  | .length bytes path => s!"{bytes} bytes in {path}"
  | .checksum path => s!"checksum mismatch in {path}"

inductive FrameFault where
  | truncatedRequest (bytes : Nat)
  | truncatedResponse (bytes : Nat)
  | invalidTimestamp (value : Int)
  | noFreeCaller
  deriving DecidableEq, Repr

def FrameFault.message : FrameFault → String
  | .truncatedRequest bytes => s!"truncated request: {bytes} bytes"
  | .truncatedResponse bytes => s!"truncated response: {bytes} bytes"
  | .invalidTimestamp value => s!"invalid timestamp {value}"
  | .noFreeCaller => "no free caller id"

inductive TimestampError where
  /-- The reservation could not be stored. -/
  | persistence (fault : IoFault)
  | corrupt (fault : MarkFault)
  | exhausted
  /-- An invalid frame. -/
  | protocol (fault : FrameFault)
  | closed
  | io (fault : IoFault)
  deriving DecidableEq, Repr

def TimestampError.kind : TimestampError → String
  | .persistence _ => "Persistence"
  | .corrupt _ => "Corrupt"
  | .exhausted => "Exhausted"
  | .protocol _ => "Protocol"
  | .closed => "Closed"
  | .io _ => "Io"

def TimestampError.message : TimestampError → String
  | .persistence fault => "failed to persist timestamp reservation: " ++ fault.message
  | .corrupt fault => "corrupt high-water mark: " ++ fault.message
  | .exhausted => "timestamp space exhausted"
  | .protocol fault => "protocol violation: " ++ fault.message
  | .closed => "timestamp connection closed"
  | .io fault => fault.message

end Mvcc
