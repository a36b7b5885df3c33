import StellarWind.Json.Document
import StellarWind.Spectrum.Basic

/-!
# Spectra in documents
-/

namespace StellarWind

def Band.keys : List String :=
  ["f1", "f2", "min_fraction", "nat_fraction", "used_fraction", "flux", "weight", "nphot"]

instance : Document Band where
  toJson b := .record Band.keys [toJson b.lower, toJson b.upper, toJson b.minFraction,
    toJson b.naturalFraction, toJson b.usedFraction, toJson b.flux, toJson b.weight,
    toJson b.photons]
  ofJson? j := do
    match ← j.fields? Band.keys with
    | [lower, upper, least, natural, used, flux, weight, photons] =>
      return {
        lower := ← Json.required lower
        upper := ← Json.required upper
        minFraction := ← Json.required least
        naturalFraction := ← Json.required natural
        usedFraction := ← Json.required used
        flux := ← Json.required flux
        weight := ← Json.required weight
        photons := ← Json.required photons }
    | _ => none

namespace Spectrum

instance : Document Spectrum where
  toJson s := .record ["bands"] [toJson s.bands]
  ofJson? j := do
    match ← j.fields? ["bands"] with
    | [bands] => return ⟨← Json.required bands⟩
    | _ => none

def Recipe.edgeKeys : List String := ["edges", "min_fraction"]

def Recipe.logKeys : List String := ["f_min", "f_max", "count"]

instance : Document Recipe where
  toJson
    | .edges values minFraction =>
      .choice "edges" (.record Recipe.edgeKeys [toJson values, toJson minFraction])
    | .logUniform low high count =>
      .choice "log_uniform" (.record Recipe.logKeys [toJson low, toJson high, toJson count])
  ofJson? j := do
    match ← j.choice? with
    | ("edges", some held) =>
      match ← held.fields? Recipe.edgeKeys with
      | [values, minFraction] =>
        return .edges (← Json.required values) (← Json.required minFraction)
      | _ => none
    | ("log_uniform", some held) =>
      match ← held.fields? Recipe.logKeys with
      | [low, high, count] =>
        return .logUniform (← Json.required low) (← Json.required high) (← Json.required count)
      | _ => none
    | _ => none

end Spectrum

end StellarWind
