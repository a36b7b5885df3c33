import StellarWind.Exchange.Endpoint
import StellarWind.Exchange.Share

/-!
# One worker's part in an exchange

An exchange has one round per worker. In the round of worker `root` every worker
first makes its buffer ready (`prepare`), then the bytes of `root` reach
everyone, then every worker takes over what arrived (`settle`). A worker that has
failed goes on through all rounds, so that the others are not left waiting, but
changes no cell any more.

`synchronize` runs a worker on a channel of its own. `Group` runs all workers of
a group in step with the same `opening`, `prepare`, `settle` and `closing`.
-/

namespace StellarWind

namespace Exchange

/-- What a worker writes in its log. -/
inductive Event where
  | began
  | finished
  | packingFailed (rank : Nat) (cause : ExchangeError)
deriving DecidableEq

def Event.text : Event → String
  | began => "INFO Begin communication of wind grid"
  | finished => "INFO Finished communication of wind grid"
  | packingFailed rank cause =>
    "WARN Rank " ++ toString rank ++ " failed to pack its partition: " ++ cause.message

/-- What an exchange did on one worker. -/
structure Report where
  rounds : Nat
  capacity : Nat
  sent : Nat
  received : Nat
deriving DecidableEq, Repr

/-- A worker between two rounds. -/
structure Worker where
  rank : Nat
  owned : CellRange
  buffer : Buffer
  cells : List Cell
  sent : Nat
  received : Nat
  failure : Option ExchangeError
  events : List Event

namespace Worker

def fail (w : Worker) (cause : ExchangeError) : Worker :=
  { w with failure := w.failure.or (some cause) }

/-- Make the buffer ready for the round of `root`. In its own round a worker packs
its share, or the abort mark if it cannot. -/
def prepare (w : Worker) (root : Nat) : Worker :=
  let rewound := w.buffer.rewind
  if root = w.rank then
    match (packShare w.cells w.owned).on rewound with
    | (.ok sent, buffer) => { w with buffer, sent }
    | (.error cause, buffer) =>
      let marked := ((Transfer.packInt abortMark).on buffer.rewind).2
      { w with
        buffer := marked
        events := w.events ++ [Event.packingFailed w.rank cause]
        failure := w.failure.or (some cause) }
  else { w with buffer := rewound }

/-- The error that ends an exchange in the middle: the share cannot be packed, and then
the abort mark does not fit either. -/
def stop? (w : Worker) (root : Nat) : Option ExchangeError :=
  if root = w.rank then
    match (packShare w.cells w.owned).on w.buffer.rewind with
    | (.ok _, _) => none
    | (.error _, buffer) =>
      match (Transfer.packInt abortMark).on buffer.rewind with
      | (.ok (), _) => none
      | (.error cause, _) => some cause
  else none

/-- Take over what arrived in the round of `root`. -/
def settle (w : Worker) (root : Nat) : Except ExchangeError (List UInt8) → Worker
  | .error cause => w.fail cause
  | .ok bytes =>
    let filled := w.buffer.overwrite 0 bytes
    if root = w.rank || w.failure.isSome then { w with buffer := filled }
    else
      match (mergeShare root).on w.cells filled.rewind with
      | (.ok received, cells, buffer) =>
        { w with buffer, cells, received := w.received + received }
      | (.error cause, cells, buffer) => Worker.fail { w with buffer, cells } cause

def verdict (w : Worker) (rounds : Nat) : Except ExchangeError Report :=
  match w.failure with
  | some cause => .error cause
  | none => .ok ⟨rounds, w.buffer.capacity, w.sent, w.received⟩

end Worker

/-! ### Opening and closing -/

section

variable {σ : Type} [Endpoint σ]

def registerAll : List Composite → σ → Except (Abort ExchangeError) (List Nat) × σ
  | [], e => (.ok [], e)
  | c :: rest, e =>
    match Endpoint.register c e with
    | (.error a, e') => (.error a, e')
    | (.ok handle, e') =>
      match registerAll rest e' with
      | (.error a, e'') => (.error a, e'')
      | (.ok handles, e'') => (.ok (handle :: handles), e'')

def freeAll : List Nat → σ → Except ExchangeError Unit × σ
  | [], e => (.ok (), e)
  | handle :: rest, e =>
    match Endpoint.free handle e with
    | (.error cause, e') => (.error cause, e')
    | (.ok (), e') => freeAll rest e'

/-- What a worker brings to an exchange. -/
structure Task where
  cells : List Cell
  owned : CellRange
  /-- The largest share of the group. -/
  limit : Nat

/-- How an exchange begins on a worker: with the registered handles and a worker
that is ready, or with handles and an error that ends it before the first
round. -/
def opening (task : Task) (e : σ) :
    Except (Abort ExchangeError) (List Nat × Except ExchangeError Worker) × σ :=
  match registerAll Cell.schema.layouts e with
  | (.error a, e') => (.error a, e')
  | (.ok handles, e') =>
    match Cell.schema.capacity e' handles task.limit with
    | .error (.fault x) => (.error (.fault x), e')
    | .error (.error cause) => (.ok (handles, .error cause), e')
    | .ok capacity =>
      match Buffer.allocate capacity with
      | .error _ => (.error (.fault .outOfMemory), e')
      | .ok buffer =>
        (.ok (handles, .ok {
          rank := Endpoint.rank e'
          owned := task.owned
          buffer := buffer
          cells := task.cells
          sent := 0
          received := 0
          failure := none
          events := [] }), e')

/-- How an exchange ends on a worker: the handles are released, and an error while
doing so takes precedence over the result. -/
def closing (handles : List Nat) (result : Except ExchangeError Report) (e : σ) :
    Except ExchangeError Report × σ :=
  match freeAll handles e with
  | (.error cause, e') => (.error cause, e')
  | (.ok (), e') => (result, e')

end

structure Outcome (σ : Type) where
  result : Except (Abort ExchangeError) Report
  cells : List Cell
  events : List Event
  endpoint : σ

/-- The events of an exchange: a beginning, what the worker wrote, and an end if
there was a result. -/
def logOf (events : List Event) : Except ExchangeError Report → List Event
  | .ok _ => .began :: (events ++ [.finished])
  | .error _ => .began :: events

/-- The outcome of an exchange that ended before its first round. -/
def Outcome.early {σ : Type} (task : Task) (result : Except (Abort ExchangeError) Report) (e : σ) :
    Outcome σ :=
  ⟨result, task.cells, [.began], e⟩

/-- The outcome of a worker that went through `rounds` rounds. -/
def Outcome.late {σ : Type} [Endpoint σ] (rounds : Nat) (handles : List Nat) (w : Worker) (e : σ) :
    Outcome σ :=
  let (result, e') := closing handles (w.verdict rounds) e
  ⟨reported result, w.cells, logOf w.events result, e'⟩

/-! ### A worker on a channel of its own -/

section

variable {σ : Type} [Channel σ]

def round (w : Worker) (e : σ) (root : Nat) : Worker × σ :=
  let ready := w.prepare root
  let bytes := ready.buffer.contents
  match Channel.broadcast bytes root e with
  | (.ok arrived, e') => (ready.settle root (.ok arrived), e')
  | (.error cause, e') =>
    let buffer := ready.buffer.overwrite 0 (Channel.leftover bytes root e)
    (Worker.settle { ready with buffer } root (.error cause), e')

/-- The rounds of the given workers on a channel, up to one that ends the exchange. -/
def rounds (w : Worker) (e : σ) : List Nat → Worker × σ
  | [] => (w, e)
  | root :: later =>
    match w.stop? root with
    | some cause => ({ w.prepare root with failure := some cause }, e)
    | none =>
      let (w', e') := round w e root
      rounds w' e' later

def synchronize (task : Task) (e : σ) : Outcome σ :=
  match opening task e with
  | (.error a, e') => .early task (.error a) e'
  | (.ok (handles, .error cause), e') =>
    let (result, e'') := closing handles (.error cause) e'
    .early task (reported result) e''
  | (.ok (handles, .ok w), e') =>
    let n := Endpoint.size e'
    let (w', e'') := rounds w e' (List.range n)
    .late n handles w' e''

/-- Run exchanges one after the other, each with the cells that the last one left. -/
def synchronizeTimes : Nat → Task → σ → List (Outcome σ)
  | 0, _, _ => []
  | n + 1, task, e =>
    let outcome := synchronize task e
    outcome :: synchronizeTimes n { task with cells := outcome.cells } outcome.endpoint

end

end Exchange

end StellarWind
