import StellarWind.Survey.Site

/-!
# Failures of a survey

How the command line names what went wrong: by the kind of failure and the
values that belong to it.
-/

namespace StellarWind

def quotation (s : String) : String := "\"" ++ s ++ "\""

/-- A problem with a spectrum with its values. -/
def Spectrum.Problem.dump (p : Spectrum.Problem) : String :=
  let fields (fs : List (String × String)) :=
    " \x7b " ++ ", ".intercalate (fs.map fun (name, value) => name ++ ": " ++ value) ++ " \x7d"
  p.kind ++ match p with
    | .tooFewEdges count => "(" ++ toString count ++ ")"
    | .tooManyBands count => fields [("count", toString count), ("max", toString bandLimit)]
    | .invalidEdge index value =>
      fields [("index", toString index), ("value", NumberStyle.dump.render value)]
    | .notIncreasing index lower upper =>
      fields [("index", toString index), ("lower", NumberStyle.dump.render lower),
        ("upper", NumberStyle.dump.render upper)]

def MeshError.dump : MeshError → String
  | e@(.invalid problem) => e.kind ++ "(" ++ quotation problem.message ++ ")"
  | e@(.rangeOutOfBounds range cells) =>
    e.kind ++ " \x7b start: " ++ toString range.start ++ ", end: " ++ toString range.stop ++
      ", cells: " ++ toString cells ++ " \x7d"

def SettingsError.dump (e : SettingsError) : String :=
  e.kind ++ match e.setting?, e with
    | some (name, reason), _ =>
      " \x7b name: " ++ quotation name ++ ", reason: " ++ quotation reason ++ " \x7d"
    | none, mesh cause => "(" ++ cause.dump ++ ")"
    | none, spectrum cause => "(" ++ cause.dump ++ ")"
    | none, _ => ""

namespace Survey

/-- Why a survey failed. -/
inductive Failure where
  | settings (cause : SettingsError)
  | site (cause : SiteError)
  /-- A worker's cells are not those of a grid that was defined in one piece. -/
  | diverged

def Failure.text : Failure → String
  | settings cause => "Error: " ++ cause.dump
  | site (.mesh cause) => "Error: " ++ cause.dump
  | site (.exchange cause) => "Error: " ++ quotation cause.message
  | diverged => "Error: " ++ quotation "worker grids diverged"

/-- The exit code after a failure or a fault. -/
def exitCode : Abort Failure → Nat
  | .error _ => 1
  | .fault _ => 101

end Survey

end StellarWind
