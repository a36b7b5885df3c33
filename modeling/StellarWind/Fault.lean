import StellarWind.Number.Count

/-!
# Faults

An operation can end in three ways: with a result, with an error that it
reports, or with a fault, which is a condition that no operation reports as an
error of its own. Faults have no text.
-/

namespace StellarWind

/-- Why a computation could not go on. -/
inductive Fault where
  | overflow
  | outOfBounds
  /-- A random value was asked for from an empty or unbounded range. -/
  | emptyRange
  | outOfMemory
deriving DecidableEq, Repr

/-- How an operation without a result ends: with a reported error or with a fault. -/
inductive Abort (ε : Type) where
  | error (cause : ε)
  | fault (fault : Fault)
deriving DecidableEq, Repr

namespace Abort

def map {ε δ : Type} (f : ε → δ) : Abort ε → Abort δ
  | error cause => error (f cause)
  | fault x => fault x

end Abort

/-- The result of a computation that only reports errors, among those that can
also end in a fault. -/
def reported {ε α : Type} : Except ε α → Except (Abort ε) α
  | .ok a => .ok a
  | .error cause => .error (.error cause)

/-- The result of a computation that only faults, among those that can also
report an error. -/
def faulting {ε α : Type} : Except Fault α → Except (Abort ε) α
  | .ok a => .ok a
  | .error x => .error (.fault x)

/-- A count, if it stays in the 64-bit range. -/
def checked (n : Nat) : Except Fault Nat :=
  if n < Count.range64 then .ok n else .error .overflow

def checkedSum (ns : List Nat) : Except Fault Nat := ns.foldlM (fun sum n => checked (sum + n)) 0

end StellarWind
