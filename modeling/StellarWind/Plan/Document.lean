import StellarWind.Json.Document
import StellarWind.Plan.Basic

/-!
# Plans in documents
-/

namespace StellarWind

def Share.keys : List String := ["rank", "start", "stop"]

instance : Document Share where
  toJson s := .record Share.keys [toJson s.rank, toJson s.range.start, toJson s.range.stop]
  ofJson? j := do
    match ← j.fields? Share.keys with
    | [rank, start, stop] =>
      return ⟨← Json.required rank, ⟨← Json.required start, ← Json.required stop⟩⟩
    | _ => none

def Plan.keys : List String := ["total_cells", "partitions"]

instance : Document Plan where
  toJson p := .record Plan.keys [toJson p.total, toJson p.shares]
  ofJson? j := do
    match ← j.fields? Plan.keys with
    | [total, shares] => return ⟨← Json.required total, ← Json.required shares⟩
    | _ => none

end StellarWind
