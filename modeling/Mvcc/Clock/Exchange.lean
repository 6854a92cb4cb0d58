import Mvcc.Clock.Link

/-!
# Timestamps over the network

One oracle serves any number of links, each of them with a client of its own.
-/

namespace Mvcc

/-- A host and the links to it, in the order in which they were opened. -/
structure Exchange where
  host : Host
  links : List Link

namespace Exchange

inductive Event where
  | connect
  | on (link : Nat) (event : Link.Event)
  /-- A call to the oracle takes its next step. -/
  | proceed (call : Nat)
  /-- The pending store of an oracle call fails. -/
  | refuse (call : Nat) (e : TimestampError)

def opened (mark : Mark) (blockSize : UInt64) : Exchange :=
  ⟨(Host.closed mark).step (.start blockSize), []⟩

/-- The link of a number. A link that was not opened yet is as one that was just opened. -/
def link (x : Exchange) (number : Nat) : Link := x.links.getD number .opened

def step (x : Exchange) : Event → Exchange
  | .connect => { x with links := x.links ++ [.opened] }
  | .on number event =>
    match x.links[number]? with
    | some l =>
      let (l, host) := l.step x.host event
      ⟨host, x.links.set number l⟩
    | none => x
  | .proceed call => { x with host := x.host.step (.proceed call) }
  | .refuse call e => { x with host := x.host.step (.refuse call e) }

def run (x : Exchange) (events : List Event) : Exchange := events.foldl step x

/-- A call on a link returned a timestamp. -/
def Returned (x : Exchange) (number ask : Nat) (time : Timestamp) : Prop :=
  (x.link number).asks ask = some (.ended (.ok time))

end Exchange

end Mvcc
