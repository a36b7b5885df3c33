import StellarWind.Wire.Error

/-!
# The meeting point of a group

Workers that share a process broadcast through a slot and a barrier. In each call
the sending worker puts its bytes into the slot, everyone passes the barrier,
everyone else takes the bytes out of the slot, and everyone passes the barrier
again. The barrier opens when as many workers have arrived as there are in the
group.

`State.step?` is one atomic step of one worker, and is `none` when that worker
has to wait or is done. A schedule is a list of ranks, so that every way in
which the workers can be interleaved is a schedule.
-/

namespace StellarWind

namespace Hub

/-- One call of a worker: the sending rank and the worker's own bytes. -/
structure Call where
  root : Nat
  bytes : List UInt8
deriving DecidableEq

/-- What a call gave: its failure, if it had one, and the worker's bytes after it. -/
structure Answer where
  failure : Option ExchangeError
  bytes : List UInt8
deriving DecidableEq

/-- Where a worker stands in its current call. -/
inductive Stage where
  /-- About to put its bytes into the slot, if it is the sender. -/
  | enter
  | arriveFirst
  /-- At the barrier until its generation is over. -/
  | leaveFirst (generation : Nat)
  /-- About to take bytes from the slot, unless it is the sender. -/
  | receive
  | arriveSecond (answer : Answer)
  | leaveSecond (generation : Nat) (answer : Answer)
deriving DecidableEq

structure Member where
  stage : Stage
  /-- The calls still to finish, the current one first. -/
  calls : List Call
  answers : List Answer
deriving DecidableEq

/-- The meeting point and all workers, in the order of ranks. -/
structure State where
  slot : List UInt8
  /-- How many workers have arrived in this generation of the barrier. -/
  arrived : Nat
  generation : Nat
  members : List Member
deriving DecidableEq

def start (calls : List (List Call)) : State :=
  ⟨[], 0, 0, calls.map fun cs => ⟨.enter, cs, []⟩⟩

namespace State

def size (s : State) : Nat := s.members.length

def setMember (s : State) (rank : Nat) (m : Member) : State :=
  { s with members := s.members.set rank m }

/-- One more worker at the barrier; the last one opens it. -/
def arrive (s : State) : State :=
  if s.arrived + 1 < s.size then { s with arrived := s.arrived + 1 }
  else { s with arrived := 0, generation := s.generation + 1 }

/-- What a worker takes from the slot. -/
def receive (s : State) (rank : Nat) (call : Call) : Answer :=
  if rank = call.root then ⟨none, call.bytes⟩
  else if s.slot.length = call.bytes.length then ⟨none, s.slot⟩
  else ⟨some (.sizeMismatch call.root call.bytes.length s.slot.length), call.bytes⟩

/-- One atomic step of a worker, if it can take one. -/
def step? (s : State) (rank : Nat) : Option State :=
  match s.members[rank]? with
  | none => none
  | some m =>
    match m.calls with
    | [] => none
    | call :: later =>
      match m.stage with
      | .enter =>
        if call.root < s.size then
          let published := if rank = call.root then { s with slot := call.bytes } else s
          some (published.setMember rank { m with stage := .arriveFirst })
        else
          let refused : Answer := ⟨some (.invalidRank call.root s.size), call.bytes⟩
          some (s.setMember rank ⟨.enter, later, m.answers ++ [refused]⟩)
      | .arriveFirst =>
        some (s.arrive.setMember rank { m with stage := .leaveFirst s.generation })
      | .leaveFirst generation =>
        if generation = s.generation then none
        else some (s.setMember rank { m with stage := .receive })
      | .receive =>
        some (s.setMember rank { m with stage := .arriveSecond (s.receive rank call) })
      | .arriveSecond answer =>
        some (s.arrive.setMember rank { m with stage := .leaveSecond s.generation answer })
      | .leaveSecond generation answer =>
        if generation = s.generation then none
        else some (s.setMember rank ⟨.enter, later, m.answers ++ [answer]⟩)

/-- Let workers step in the order of a schedule; one that has to wait is passed over. -/
def run (s : State) (schedule : List Nat) : State :=
  schedule.foldl (fun s rank => (s.step? rank).getD s) s

def isDone (s : State) : Bool := s.members.all (·.calls.isEmpty)

end State

def stepsPerCall : Nat := 6

/-- The schedule in which the workers take turns. -/
def turns (workers passes : Nat) : List Nat :=
  (List.replicate passes (List.range workers)).flatten

def answers (calls : List (List Call)) : List (List Answer) :=
  let passes := stepsPerCall * (calls.map List.length).foldl max 0
  ((start calls).run (turns calls.length passes)).members.map (·.answers)

end Hub

end StellarWind
