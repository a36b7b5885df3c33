/-!
# Errors of an exchange

What can go wrong while records are packed, sent and merged. Each error says its
cause; `message` gives the wording.
-/

namespace StellarWind

/-- The kinds of scalar that a record is made of. -/
inductive ScalarKind where
  | int
  | double
deriving DecidableEq, Repr

namespace ScalarKind

def size : ScalarKind → Nat
  | int => 4
  | double => 8

def name : ScalarKind → String
  | int => "Int"
  | double => "Double"

end ScalarKind

/-- Why a value cannot be carried by a field, or a carried value not be taken. -/
inductive FieldProblem where
  | indexTooLarge (value : Nat)
  | countTooLarge (value : Nat)
  | negativeIndex (wire : Int)
  | negativeCount (wire : Int)
  | wrongSize (declared actual : Nat)
  | wrongKind (layout : String) (declared held : ScalarKind)
  | notADouble
  | noMember (index : Nat)
  /-- A decoder refused the value for a reason of its own. -/
  | refused (reason : String)
deriving DecidableEq, Repr

def FieldProblem.message : FieldProblem → String
  | indexTooLarge value => "index " ++ toString value ++ " exceeds the 32-bit wire range"
  | countTooLarge value => toString value ++ " exceeds the 32-bit wire range"
  | negativeIndex wire => "negative index " ++ toString wire
  | negativeCount wire => "negative count " ++ toString wire
  | wrongSize declared actual =>
    "declared " ++ toString declared ++ " doubles but the record holds " ++ toString actual
  | wrongKind layout declared held =>
    "layout '" ++ layout ++ "' declares " ++ declared.name ++ " but the value holds " ++ held.name
  | notADouble => "expected a double, found an int"
  | noMember index => "no member at index " ++ toString index
  | refused reason => reason

/-- What is wrong with the layout of a composite type. -/
inductive LayoutProblem where
  | noMembers
  | overlap (member : String) (offset : Nat)
  | beyondExtent (member : String) (stop extent : Nat)
deriving DecidableEq, Repr

def LayoutProblem.message : LayoutProblem → String
  | noMembers => "no members"
  | overlap member offset =>
    "member '" ++ member ++ "' at offset " ++ toString offset ++ " overlaps the previous member"
  | beyondExtent member stop extent =>
    "member '" ++ member ++ "' ends at byte " ++ toString stop ++ " beyond the extent of " ++
      toString extent

/-- What is wrong with a plan. -/
inductive PlanProblem where
  | noWorkers
  | outOfRange (rank stop total : Nat)
  | overlap (cell first second : Nat)
  | unowned (cell : Nat)
deriving DecidableEq, Repr

def PlanProblem.message : PlanProblem → String
  | noWorkers => "cannot partition a grid over zero workers"
  | outOfRange rank stop total =>
    "rank " ++ toString rank ++ " claims cells up to " ++ toString stop ++
      " but the grid has " ++ toString total
  | overlap cell first second =>
    "cell " ++ toString cell ++ " is claimed by both rank " ++ toString first ++
      " and rank " ++ toString second
  | unowned cell => "cell " ++ toString cell ++ " has no owner"

/-- What can go wrong in an exchange. -/
inductive ExchangeError where
  | bufferOverflow (capacity position requested : Nat)
  | allocationFailed (bytes : Nat)
  | sizeMismatch (root expected actual : Nat)
  | invalidRank (rank size : Nat)
  | cellIndexOutOfRange (index : Int) (cells : Nat)
  | roundAborted (root : Nat)
  | invalidField (field : String) (problem : FieldProblem)
  | invalidLayout (name : String) (problem : LayoutProblem)
  | unknownType (handle : Nat)
  | invalidPlan (problem : PlanProblem)
  | emptyGroup
  /-- The meeting point of a group was left in an unusable state. -/
  | poisoned
deriving DecidableEq, Repr

def ExchangeError.message : ExchangeError → String
  | bufferOverflow capacity position requested =>
    "communication buffer of " ++ toString capacity ++ " bytes cannot fit " ++
      toString requested ++ " more bytes at offset " ++ toString position
  | allocationFailed bytes =>
    "unable to allocate " ++ toString bytes ++ " bytes for the communication buffer"
  | sizeMismatch root expected actual =>
    "broadcast from rank " ++ toString root ++ " expected " ++ toString expected ++
      " bytes but received " ++ toString actual
  | invalidRank rank size =>
    "rank " ++ toString rank ++ " is outside a group of " ++ toString size ++ " workers"
  | cellIndexOutOfRange index cells =>
    "cell index " ++ toString index ++ " is outside the local grid of " ++ toString cells ++
      " cells"
  | roundAborted root => "rank " ++ toString root ++ " aborted its broadcast round"
  | invalidField field problem =>
    "field '" ++ field ++ "' cannot be transferred: " ++ problem.message
  | invalidLayout name problem =>
    "composite type '" ++ name ++ "' has an invalid layout: " ++ problem.message
  | unknownType handle =>
    "composite type handle " ++ toString handle ++ " is not registered with the transport"
  | invalidPlan problem => "invalid partition plan: " ++ problem.message
  | emptyGroup =>
    "worker group could not be started: a worker group needs at least one worker"
  | poisoned => "collective hub was poisoned by a panicking worker"

def ExchangeError.kind : ExchangeError → String
  | .bufferOverflow _ _ _ => "BufferOverflow"
  | .allocationFailed _ => "AllocationFailed"
  | .sizeMismatch _ _ _ => "SizeMismatch"
  | .invalidRank _ _ => "InvalidRank"
  | .cellIndexOutOfRange _ _ => "CellIndexOutOfRange"
  | .roundAborted _ => "RoundAborted"
  | .invalidField _ _ => "InvalidField"
  | .invalidLayout _ _ => "InvalidLayout"
  | .unknownType _ => "UnknownType"
  | .invalidPlan _ => "Partition"
  | .emptyGroup => "WorkerGroup"
  | .poisoned => "Poisoned"

end StellarWind
