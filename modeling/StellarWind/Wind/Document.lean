import StellarWind.Json.Document
import StellarWind.Photon.Document
import StellarWind.Wind.Mesh

/-!
# Cells and meshes in documents

A cell has its fields under the names of its schema. A mesh may leave fields
out; they have the values of the default mesh.
-/

namespace StellarWind

def Standing.name : Standing → String
  | .all => "All"
  | .partly => "Partial"
  | .outside => "Outside"
  | .ignored => "Ignored"
  | .unassigned => "Unassigned"
  | .other code => "Other(" ++ toString code.toInt ++ ")"

instance : Document Standing where
  toJson
    | .other code => .choice "Other" (.number (.ofInt code.toInt))
    | s => .ofString s.name
  ofJson? j :=
    match j.choice? with
    | some ("Other", some (.number n)) => n.toInt32?.map .other
    | _ => do
      let name ← j.name?
      [.all, .partly, .outside, .ignored, .unassigned].find? (·.name == name)

def Cone.keys : List String := ["offset", "slope"]

instance : Document Cone where
  toJson c := .record Cone.keys [toJson c.offset, toJson c.slope]
  ofJson? j := do
    match ← j.fields? Cone.keys with
    | [offset, slope] => return ⟨← Json.required offset, ← Json.required slope⟩
    | _ => none

instance {α : Type} [Document α] : Document (Tensor3 α) where
  toJson t := toJson t.toList
  ofJson? j := do Tensor3.ofList? (← ofJson? j)

def Cell.keys : List String := Cell.schema.fields.map (·.name)

instance : Document Cell where
  toJson c := .record Cell.keys [toJson c.domain, toJson c.domainIndex, toJson c.tallyIndex,
    toJson c.position, toJson c.centroid, toJson c.r, toJson c.rCenter, toJson c.theta,
    toJson c.thetaCenter, toJson c.dtheta, toJson c.dr, toJson c.cone, toJson c.velocity,
    toJson c.gradient, toJson c.divergence, toJson c.dvdsMean, toJson c.dvdsMax,
    toJson c.volume, toJson c.gamma, toJson c.gammaCenter, toJson c.fudge, toJson c.standing]
  ofJson? j := do
    match ← j.fields? Cell.keys with
    | [domain, domainIndex, tallyIndex, position, centroid, r, rCenter, theta, thetaCenter,
        dtheta, dr, cone, velocity, gradient, divergence, dvdsMean, dvdsMax, volume, gamma,
        gammaCenter, fudge, standing] =>
      return {
        domain := ← Json.required domain
        domainIndex := ← Json.required domainIndex
        tallyIndex := ← Json.required tallyIndex
        position := ← Json.required position
        centroid := ← Json.required centroid
        r := ← Json.required r
        rCenter := ← Json.required rCenter
        theta := ← Json.required theta
        thetaCenter := ← Json.required thetaCenter
        dtheta := ← Json.required dtheta
        dr := ← Json.required dr
        cone := ← Json.required cone
        velocity := ← Json.required velocity
        gradient := ← Json.required gradient
        divergence := ← Json.required divergence
        dvdsMean := ← Json.required dvdsMean
        dvdsMax := ← Json.required dvdsMax
        volume := ← Json.required volume
        gamma := ← Json.required gamma
        gammaCenter := ← Json.required gammaCenter
        fudge := ← Json.required fudge
        standing := ← Json.required standing }
    | _ => none

def Mesh.keys : List String :=
  ["coord_system", "n_x", "n_z", "r_min", "r_max", "v0", "r0", "fudge_fraction"]

instance : Document Mesh where
  toJson m := .record Mesh.keys [toJson m.system, toJson m.columns, toJson m.rows, toJson m.rMin,
    toJson m.rMax, toJson m.speed, toJson m.radius, toJson m.fudgeFraction]
  ofJson? j := do
    match ← j.fields? Mesh.keys with
    | [system, columns, rows, rMin, rMax, speed, radius, fudgeFraction] =>
      let d := Mesh.default
      return {
        system := ← Json.defaulted d.system system
        columns := ← Json.defaulted d.columns columns
        rows := ← Json.defaulted d.rows rows
        rMin := ← Json.defaulted d.rMin rMin
        rMax := ← Json.defaulted d.rMax rMax
        speed := ← Json.defaulted d.speed speed
        radius := ← Json.defaulted d.radius radius
        fudgeFraction := ← Json.defaulted d.fudgeFraction fudgeFraction }
    | _ => none

end StellarWind
