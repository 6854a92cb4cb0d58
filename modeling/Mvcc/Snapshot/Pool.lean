import Mvcc.Snapshot.Worker

/-!
# A pool of workers

Readers enqueue events and workers dequeue them, in interleaved steps. The owner of the queue spawns
the workers and requests their abort. A request does not interrupt a worker: it may finish its event
and take further ones until it yields. Then its task ends, and an unfinished event is lost. The
queue is dropped with its owner and the last worker; readers may outlive it.
-/

namespace Mvcc

def Workshop.drop {σ : Type} (shop : Workshop σ) : Workshop σ :=
  { shop with status := shop.status.drop }

/-- A queue with its workers and the record of the offered events. The queue is running from the
start of its workers to the request to stop. -/
structure ResolverPool (σ : Type) where
  queue : ResolveQueue
  shop : Workshop σ
  owned : Bool
  /-- Whether the queue was dropped: its owner and all workers are gone. -/
  closed : Bool
  /-- The spawned workers whose tasks have not ended. -/
  crew : List Nat
  /-- Workers in the middle of an event. -/
  busy : List (Nat × ResolveEvent)
  /-- Every offered event, and whether it was enqueued. -/
  offered : List (ResolveEvent × Bool)
  /-- Events dequeued so far. -/
  handed : List ResolveEvent
  finished : List (ResolveEvent × Resolution)
  /-- Events whose workers were aborted in the middle of them. -/
  cutShort : List ResolveEvent
  /-- Events still queued when the queue was dropped. -/
  discarded : List ResolveEvent

namespace ResolverPool

variable {σ : Type}

def new (workers size : Nat) (shop : Workshop σ) : ResolverPool σ :=
  ⟨.new workers size, shop, true, false, [], [], [], [], [], [], []⟩

inductive Event (σ : Type) where
  | start
  | shutdown
  | offer (event : ResolveEvent)
  | take (worker : Nat)
  | finish (worker : Nat)
  /-- A worker yields; its task ends if an abort was requested. -/
  | yield (worker : Nat)
  /-- The owner is dropped. -/
  | release
  /-- The tables or the supplier state change otherwise. -/
  | meanwhile (tables : Tables) (supplier : σ)

/-- Spawn the workers. Doing so again, or after a shutdown, changes nothing. -/
def start (p : ResolverPool σ) : ResolverPool σ :=
  if p.queue.running || p.queue.stopped then p
  else { p with queue := p.queue.start, crew := List.range p.queue.workers }

/-- Refuse further events and request the workers to stop. -/
def shutdown (p : ResolverPool σ) : ResolverPool σ := { p with queue := p.queue.shutdown }

/-- The queue is closed once it has neither owner nor workers. -/
def vacate (p : ResolverPool σ) : ResolverPool σ :=
  if p.owned || !p.crew.isEmpty then p
  else { p with
    queue := { p.queue with waiting := [] }
    closed := true
    discarded := p.discarded ++ p.queue.waiting }

def release (p : ResolverPool σ) : ResolverPool σ :=
  { p with queue := { p.queue with running := false }, owned := false }.vacate

/-- A worker that was asked to stop is gone; its unfinished event is cut short. -/
def dismiss (p : ResolverPool σ) (worker : Nat) : ResolverPool σ :=
  { p with
    crew := p.crew.erase worker
    busy := p.busy.filter (·.1 ≠ worker)
    cutShort := p.cutShort ++ (p.busy.filter (·.1 = worker)).map (·.2) }

def yield (p : ResolverPool σ) (worker : Nat) : ResolverPool σ :=
  if p.queue.running then p else (p.dismiss worker).vacate

/-- Offer an event; the result is whether it was accepted. A closed queue accepts none. -/
def offer (p : ResolverPool σ) (event : ResolveEvent) : Bool × ResolverPool σ :=
  let (taken, queue) := if p.closed then (false, p.queue) else p.queue.offer event
  (taken, { p with
    queue := queue
    shop := if taken then p.shop else p.shop.drop
    offered := p.offered ++ [(event, taken)] })

/-- A worker takes the first waiting event, whether or not it was asked to stop. -/
def take (p : ResolverPool σ) (worker : Nat) : ResolverPool σ :=
  if worker ∈ p.crew ∧ p.busy.lookup worker = none then
    match p.queue.waiting with
    | event :: waiting =>
      { p with
        queue := { p.queue with waiting := waiting }
        busy := (worker, event) :: p.busy
        handed := p.handed ++ [event] }
    | [] => p
  else p

variable [CellHolder σ] [Supplier σ]

def finish (p : ResolverPool σ) (worker : Nat) : ResolverPool σ :=
  match p.busy.lookup worker with
  | none => p
  | some event =>
    let resolution := (p.shop.resolve event.table event.row event.writer).1
    { p with
      shop := p.shop.handle event
      busy := p.busy.erase (worker, event)
      finished := p.finished ++ [(event, resolution)] }

/-- Only an owner can start or stop the workers, and only once. -/
def step (p : ResolverPool σ) : Event σ → ResolverPool σ
  | .start => if p.owned then p.start else p
  | .shutdown => if p.owned then p.shutdown else p
  | .offer event => (p.offer event).2
  | .take worker => p.take worker
  | .finish worker => p.finish worker
  | .yield worker => p.yield worker
  | .release => if p.owned then p.release else p
  | .meanwhile tables supplier =>
    { p with shop := { p.shop with tables := tables, supplier := supplier } }

def run (p : ResolverPool σ) (events : List (Event σ)) : ResolverPool σ := events.foldl step p

end ResolverPool

end Mvcc
