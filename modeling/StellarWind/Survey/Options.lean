import StellarWind.Survey.Report

/-!
# Options of the command line

Options replace single settings. They are written `--name value` or
`--name=value`, and some have a short name, `-n value` or `-nvalue`.
-/

namespace StellarWind

namespace Survey

/-- What the command line asks for. -/
structure Options where
  config : Option String
  workers : Option Nat
  /-- The number of columns and of rows. -/
  cells : Option Nat
  photons : Option Nat
  seed : Option Nat
  spherical : Bool

namespace Options

def none : Options := ⟨.none, .none, .none, .none, .none, false⟩

/-- Replace settings. The number of cells counts for rows and columns. -/
def apply (o : Options) (s : Settings) : Settings :=
  { s with
    workers := o.workers.getD s.workers
    photonsPerCell := o.photons.getD s.photonsPerCell
    seed := o.seed.getD s.seed
    mesh := { s.mesh with
      system := if o.spherical then .spherical else s.mesh.system
      columns := o.cells.getD s.mesh.columns
      rows := o.cells.getD s.mesh.rows } }

/-- The settings of a run: those of the file if one is given, with the options
applied. The file is checked by itself first. -/
def settings [Elementary] (o : Options) (file : Option (Option ByteArray)) :
    Except (Abort SettingsError) Settings := do
  match file with
  | .none => return o.apply .default
  | some bytes => return o.apply (← Settings.load bytes)

def survey [Elementary] (o : Options) (file : Option (Option ByteArray)) :
    List String × Except (Abort Failure) Unit :=
  match o.settings file with
  | .error a => ([], .error (a.map .settings))
  | .ok s => run s

/-! ### Arguments -/

/-- A count of 64 bits that an argument spells. -/
def count? (s : String) : Option Nat :=
  let ds := match s.toList with
    | '+' :: rest => rest
    | cs => cs
  if !ds.isEmpty && ds.all Char.isDigit && Numeral.value ds < Count.range64 then
    some (Numeral.value ds)
  else .none

def set? (o : Options) (name value : String) : Option Options :=
  match name with
  | "--config" | "-c" => some { o with config := some value }
  | "--workers" | "-w" => (count? value).map fun n => { o with workers := some n }
  | "--cells" => (count? value).map fun n => { o with cells := some n }
  | "--photons" | "-p" => (count? value).map fun n => { o with photons := some n }
  | "--seed" | "-s" => (count? value).map fun n => { o with seed := some n }
  | _ => .none

/-- The name and the value of an argument that holds both: a long name up to an
equals sign, or a short name, after which the sign may be left out. -/
def splitValue (arg : String) : Option (String × String) :=
  match arg.toList with
  | '-' :: '-' :: cs =>
    match cs.dropWhile (· != '=') with
    | [] => .none
    | _ :: value =>
      some (String.ofList ('-' :: '-' :: cs.takeWhile (· != '=')), String.ofList value)
  | '-' :: c :: '=' :: value => some (String.ofList ['-', c], String.ofList value)
  | '-' :: c :: v :: value => some (String.ofList ['-', c], String.ofList (v :: value))
  | _ => .none

def read? (o : Options) : List String → Option Options
  | [] => some o
  | arg :: rest =>
    if arg == "--spherical" then read? { o with spherical := true } rest
    else match splitValue arg with
      | some (name, value) => (o.set? name value).bind (read? · rest)
      | .none =>
        match rest with
        | [] => .none
        | value :: rest' => (o.set? arg value).bind (read? · rest')

end Options

end Survey

end StellarWind
