import StellarWind.Json.Document
import StellarWind.Number.Count
import StellarWind.Photon.Segment
import StellarWind.Photon.Waveband

/-!
# Photons in documents
-/

namespace StellarWind

def Waveband.name : Waveband → String
  | .visible => "Visible"
  | .ultraviolet => "Uv"
  | .xray => "Xray"

instance : Document Waveband where
  toJson w := .ofString w.name
  ofJson? j := do
    let name ← j.name?
    Waveband.all.find? (·.name == name)

def Origin.name : Origin → String
  | .star => "Star"
  | .boundaryLayer => "BoundaryLayer"
  | .disk => "Disk"
  | .wind => "Wind"
  | .agn => "Agn"

instance : Document Origin where
  toJson o := .ofString o.name
  ofJson? j := do
    let name ← j.name?
    Origin.all.find? (·.name == name)

instance : Document CoordSystem where
  toJson c := .ofString c.name
  ofJson? j := do CoordSystem.ofName? (← j.name?)

def PacketId.keys : List String := ["plasma", "packet"]

instance : Document PacketId where
  toJson i := .record PacketId.keys [toJson i.cell, toJson i.packet]
  ofJson? j := do
    match ← j.fields? PacketId.keys with
    | [cell, packet] => return ⟨← Json.required cell, ← Json.required packet⟩
    | _ => none

def Segment.keys : List String :=
  ["freq", "weight", "ds", "direction", "position", "scatters", "id", "origin"]

instance : Document Segment where
  toJson s := .record Segment.keys [toJson s.freq, toJson s.weight, toJson s.length,
    toJson s.direction, toJson s.position, toJson s.scatters, toJson s.id, toJson s.origin]
  ofJson? j := do
    match ← j.fields? Segment.keys with
    | [freq, weight, length, direction, position, scatters, id, origin] =>
      return {
        freq := ← Json.required freq
        weight := ← Json.required weight
        length := ← Json.required length
        direction := ← Json.required direction
        position := ← Json.required position
        scatters := ← scatters.bind (Json.nat? Count.range32)
        id := ← Json.required id
        origin := ← Json.required origin }
    | _ => none

end StellarWind
