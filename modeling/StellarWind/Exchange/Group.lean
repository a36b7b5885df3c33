import StellarWind.Exchange.Worker

/-!
# A group in step

All workers of a group go through the rounds together. In each round the bytes
of one worker reach every other worker whose buffer has the same size.
-/

namespace StellarWind

namespace Exchange

/-- What each worker gets when worker `root` broadcasts and the local bytes are
as listed. -/
def deliver (root : Nat) (buffers : List (List UInt8)) :
    List (Except ExchangeError (List UInt8)) :=
  match buffers[root]? with
  | none => buffers.map fun _ => .error (.invalidRank root buffers.length)
  | some sent => buffers.zipIdx.map fun (bytes, rank) =>
    if rank = root then .ok bytes
    else if sent.length = bytes.length then .ok sent
    else .error (.sizeMismatch root bytes.length sent.length)

def groupRound (workers : List Worker) (root : Nat) : List Worker :=
  let ready := workers.map (·.prepare root)
  let arrived := deliver root (ready.map (·.buffer.contents))
  List.zipWith (fun w bytes => w.settle root bytes) ready arrived

def groupRounds (workers : List Worker) : List Worker :=
  (List.range workers.length).foldl groupRound workers

structure Ready where
  handles : List Nat
  worker : Worker
  seat : Seat

def ready (task : Task) (seat : Seat) : Except (Abort ExchangeError) Ready :=
  match opening task seat with
  | (.error a, _) => .error a
  | (.ok (_, .error cause), _) => .error (.error cause)
  | (.ok (handles, .ok worker), seat') => .ok ⟨handles, worker, seat'⟩

/-- Run an exchange on all workers of a group. If one of them cannot begin there
is no exchange. -/
def synchronizeGroup (members : List (Task × Seat)) :
    Except (Abort ExchangeError) (List (Outcome Seat)) := do
  let opened ← members.mapM fun (task, seat) => ready task seat
  let finished := groupRounds (opened.map (·.worker))
  return List.zipWith (fun r w => Outcome.late members.length r.handles w r.seat) opened finished

/-- Run exchanges one after the other, each with the cells that the last one left;
the outcomes of each worker in order. -/
def synchronizeGroupTimes : Nat → List (Task × Seat) →
    Except (Abort ExchangeError) (List (List (Outcome Seat)))
  | 0, members => .ok (members.map fun _ => [])
  | n + 1, members => do
    let outcomes ← synchronizeGroup members
    let next := List.zipWith (fun (task, _) (o : Outcome Seat) =>
      ({ task with cells := o.cells }, o.endpoint)) members outcomes
    return List.zipWith List.cons outcomes (← synchronizeGroupTimes n next)

end Exchange

end StellarWind
