import Mvcc.Clock.Client
import Mvcc.Clock.Connection
import Mvcc.Text.HostName

/-!
# The network

Timestamp servers are reached by address, where the host is reachable. A host may be named; without
a network only the local name resolves.
-/

namespace Mvcc

structure Network where
  /-- Whether any host is reachable. -/
  connected : Bool
  /-- The oracles served on this machine, by address. -/
  servers : List (String × Oracle)
  /-- Other addresses in use on this machine. -/
  busy : List Text.Address

namespace Network

def unreachable : Network := ⟨false, [], []⟩

def splitService? (address : String) : Option (List Char × List Char) :=
  let reversed := address.toList.reverse
  match reversed.dropWhile (· ≠ ':') with
  | [] => none
  | _ :: host => some (host.reverse, (reversed.takeWhile (· ≠ ':')).reverse)

def service? : List Char → Option Nat
  | '+' :: text => Text.Address.service? text
  | text => Text.Address.service? text

def resolve (name : List Char) : Except IoFault Text.Host :=
  match Text.HostName.host? name with
  | some host => .ok host
  | none =>
    if Text.HostName.isOwn name then .ok Text.HostName.ownHost
    else if Text.HostName.isName name then .error .unknownName
    else .error .badName

def locate (address : String) : Except IoFault Text.Address :=
  match Text.Address.parse? address with
  | some found => .ok found
  | none => do
    let some (name, service) := splitService? address | throw .badAddress
    let some service := service? service | throw .badService
    pure ⟨← resolve name, service⟩

/-- Why there is no way to a host without a network. Hosts with a long number fail for want of an
address of one's own, before a way is looked for. -/
def noWay (host : Text.Host) : IoFault :=
  match host.unwrapped with
  | .short _ => .unreachable
  | .long groups zone =>
    if Text.Host.isMany groups then .unreachable
    else if Text.Host.isLinkBound groups && zone = 0 then .invalidArgument
    else .addressUnavailable

def reach (network : Network) (address : String) : Except IoFault Unit := do
  let found ← locate address
  if !network.connected then throw (noWay found.host)

def dial (network : Network) (address : String) : Except IoFault Oracle := do
  network.reach address
  let some oracle := network.servers.lookup address | throw .refused
  pure oracle

/-- Check that this machine may listen at a host. Without a network any four bytes may be its own,
but of the longer numbers only the one that stands for all. -/
def checkOwn (host : Text.Host) : Except IoFault Unit :=
  match host.unwrapped with
  | .short _ => .ok ()
  | .long groups zone =>
    if Text.Host.isMany groups || (Text.Host.isLinkBound groups && zone = 0) then
      .error .invalidArgument
    else if host.isAny then .ok ()
    else .error .addressUnavailable

def taken (network : Network) : List Text.Address :=
  network.busy ++ network.servers.filterMap fun server => Text.Address.parse? server.1

def listen (network : Network) (address : Text.Address) : Except IoFault Network := do
  checkOwn address.host
  if network.taken.any address.collides then throw .addressInUse
  pure { network with busy := address :: network.busy }

/-- Request timestamps from a server over one connection: those received, and the failure if there
was one. A server whose oracle fails closes the connection. -/
def fetch : Nat → Oracle → List Timestamp × Option TimestampError
  | 0, _ => ([], none)
  | count + 1, oracle =>
    match Oracle.next oracle with
    | .error _ _ => ([], some .closed)
    | .ok time oracle =>
      let (times, failure) := fetch count oracle
      (time :: times, failure)

def probe (network : Network) (address : String) : Except TimestampError Timestamp :=
  match network.dial address with
  | .error fault => .error (.io fault)
  | .ok oracle =>
    match Oracle.next oracle with
    | .ok time _ => .ok time
    | .error _ _ => .error .closed

end Network

end Mvcc
