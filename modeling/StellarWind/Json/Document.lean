import StellarWind.Json.Value
import StellarWind.Number.Binary64
import StellarWind.Number.Count
import StellarWind.Space.Vec3

/-!
# Documents of a type

`Document α` says how values of `α` stand in a document. A record is an object
with its fields as members, or an array of them in order; members with other
names are passed over. A choice is the name of the alternative, or an object
with that name as its only key.
-/

namespace StellarWind

/-- A type whose values can be written to and read from documents. -/
class Document (α : Type) where
  toJson : α → Json
  ofJson? : Json → Option α

export Document (toJson ofJson?)

namespace Json

/-! ### Numbers, lists -/

def nat? (bound : Nat) : Json → Option Nat
  | .number n => n.toNat? bound
  | _ => none

def items? : Json → Option (List Json)
  | .array items => some items
  | _ => none

def ofNat (n : Nat) : Json := .number (.ofNat n)

def ofString (s : String) : Json := .text (some s)

/-! ### Records -/

/-- The members of an object by their keys, if all keys have a value. -/
def members? : List (Option String × Json) → Option (List (String × Json))
  | [] => some []
  | (k, v) :: rest => do return (← k, v) :: (← members? rest)

/-- The fields of a record by their names; `none` for one that is missing. Of a
known name there is at most one. -/
def fields? (names : List String) : Json → Option (List (Option Json))
  | .array items =>
    if items.length ≤ names.length then
      some (items.map some ++ List.replicate (names.length - items.length) none)
    else none
  | .object ms => do
    let members ← members? ms
    if names.all fun n => (members.filter (·.1 == n)).length ≤ 1 then
      return names.map fun n => List.lookup n members
    else none
  | _ => none

def required {α : Type} [Document α] (field : Option Json) : Option α := field.bind ofJson?

/-- A field that has a value when it is missing. -/
def defaulted {α : Type} [Document α] (default : α) : Option Json → Option α
  | none => some default
  | some j => ofJson? j

def record (names : List String) (fields : List Json) : Json :=
  .object (names.zipWith (fun k v => (some k, v)) fields)

/-! ### Choices -/

/-- The name of an alternative and what it holds. -/
def choice? : Json → Option (String × Option Json)
  | .text (some name) => some (name, none)
  | .object [(some name, v)] => some (name, some v)
  | _ => none

def name? (j : Json) : Option String :=
  match choice? j with
  | some (name, none) | some (name, some .null) => some name
  | _ => none

def choice (name : String) (v : Json) : Json := .object [(some name, v)]

end Json

/-! ### Basic types -/

instance : Document Nat where
  toJson := Json.ofNat
  ofJson? := Json.nat? Count.range64

instance : Document Float where
  toJson x :=
    match Numeral.ofFloat? x with
    | some n => .number n
    | none => .null
  ofJson?
    | .number n => n.toFloat?
    | _ => none

instance : Document Binary64 where
  toJson x := toJson x.toFloat
  ofJson? j := (ofJson? j).map Binary64.ofFloat

instance {α : Type} [Document α] : Document (List α) where
  toJson xs := .array (xs.map toJson)
  ofJson? j := do (← j.items?).mapM ofJson?

instance {α : Type} [Document α] : Document (Vec3 α) where
  toJson v := toJson v.toList
  ofJson? j := do Vec3.ofList? (← ofJson? j)

end StellarWind
