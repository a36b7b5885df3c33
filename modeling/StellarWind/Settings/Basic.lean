import StellarWind.Spectrum.Document
import StellarWind.Wind.Document

/-!
# Settings of a run

`Settings.check` gives the first thing that is wrong with settings.
`Settings.read` takes them from a document, in which any of them may be missing,
and checks them; `Settings.write` gives the document.
-/

namespace StellarWind

/-- The settings of one run. -/
structure Settings where
  workers : Nat
  mesh : Mesh
  recipe : Spectrum.Recipe
  /-- The number of segments sampled in each cell. -/
  photonsPerCell : Nat
  seed : Nat
  freqMin : Float
  freqMax : Float

inductive SettingsError where
  /-- There is no text to read. -/
  | unreadable
  /-- The text is not a document of settings. -/
  | malformed
  | noWorkers
  | badFrequencies (low high : Float)
  | mesh (cause : MeshError)
  | spectrum (cause : Spectrum.Problem)

namespace SettingsError

/-- The setting that has a wrong value, and the reason, for errors of one setting. -/
def setting? : SettingsError → Option (String × String)
  | noWorkers => some ("workers", "at least one worker is required")
  | badFrequencies low high =>
    some ("freq_min", "need 0 < freq_min < freq_max, got " ++ NumberStyle.message.render low ++
      " and " ++ NumberStyle.message.render high)
  | _ => none

def message (e : SettingsError) : String :=
  match e.setting?, e with
  | some (name, reason), _ => "invalid setting '" ++ name ++ "': " ++ reason
  | none, mesh cause => cause.message
  | none, spectrum cause => cause.message
  | none, unreadable => "cannot read configuration"
  | none, _ => "cannot parse configuration"

def kind : SettingsError → String
  | unreadable => "Io"
  | malformed => "Parse"
  | noWorkers | badFrequencies _ _ => "Invalid"
  | mesh _ => "Geometry"
  | spectrum _ => "Bands"

end SettingsError

namespace Settings

/-- Four workers on the default mesh. -/
def default : Settings where
  workers := 4
  mesh := .default
  recipe := .default
  photonsPerCell := 100
  seed := 42
  freqMin := 1e14
  freqMax := 1e18

def spectrum [Elementary] (s : Settings) : Except (Abort SettingsError) Spectrum :=
  s.recipe.build.mapError (Abort.map .spectrum)

/-- Check all settings, in the order of the workers, the frequencies, the mesh and
the spectrum. -/
def check [Elementary] (s : Settings) : Except (Abort SettingsError) Unit :=
  if s.workers = 0 then .error (.error .noWorkers)
  else if !(s.freqMin > 0 && s.freqMax > s.freqMin) then
    .error (.error (.badFrequencies s.freqMin s.freqMax))
  else match s.mesh.check with
    | .error cause => .error (.error (.mesh cause))
    | .ok () => s.spectrum.map fun _ => ()

/-! ### Documents -/

def keys : List String :=
  ["workers", "layout", "bands", "photons_per_cell", "seed", "freq_min", "freq_max"]

instance : Document Settings where
  toJson s := .record keys [toJson s.workers, toJson s.mesh, toJson s.recipe,
    toJson s.photonsPerCell, toJson s.seed, toJson s.freqMin, toJson s.freqMax]
  ofJson? j := do
    match ← j.fields? keys with
    | [workers, mesh, recipe, photonsPerCell, seed, freqMin, freqMax] =>
      return {
        workers := ← Json.defaulted default.workers workers
        mesh := ← Json.defaulted default.mesh mesh
        recipe := ← Json.defaulted default.recipe recipe
        photonsPerCell := ← Json.defaulted default.photonsPerCell photonsPerCell
        seed := ← Json.defaulted default.seed seed
        freqMin := ← Json.defaulted default.freqMin freqMin
        freqMax := ← Json.defaulted default.freqMax freqMax }
    | _ => none

def write (s : Settings) : String := (toJson s).pretty

def read [Elementary] (text : String) : Except (Abort SettingsError) Settings := do
  match (Json.parse? text).bind ofJson? with
  | none => .error (.error .malformed)
  | some (s : Settings) =>
    s.check
    return s

/-- The settings in a file; `none` for a file that is not there. -/
def load [Elementary] (bytes : Option ByteArray) : Except (Abort SettingsError) Settings :=
  match bytes.bind String.fromUTF8? with
  | none => .error (.error .unreadable)
  | some text => read text

end Settings

end StellarWind
