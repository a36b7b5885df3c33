import StellarWind.Decimal.Exact
import StellarWind.Decimal.Rounded
import StellarWind.Decimal.Shortest
import StellarWind.Decimal.Text
import StellarWind.Exchange.Endpoint
import StellarWind.Exchange.Group
import StellarWind.Exchange.Hub
import StellarWind.Exchange.Share
import StellarWind.Exchange.Worker
import StellarWind.Fault
import StellarWind.Json.Document
import StellarWind.Json.Numeral
import StellarWind.Json.Token
import StellarWind.Json.Value
import StellarWind.Main
import StellarWind.Number.Binary64
import StellarWind.Number.Count
import StellarWind.Number.Functions
import StellarWind.Photon.Document
import StellarWind.Photon.Energy
import StellarWind.Photon.Segment
import StellarWind.Photon.Waveband
import StellarWind.Plan.Basic
import StellarWind.Plan.Document
import StellarWind.Random.ChaCha
import StellarWind.Random.Sampler
import StellarWind.Random.Source
import StellarWind.Settings.Basic
import StellarWind.Space.CoordSystem
import StellarWind.Space.Vec3
import StellarWind.Spectrum.Band
import StellarWind.Spectrum.Basic
import StellarWind.Spectrum.Document
import StellarWind.Spectrum.Table
import StellarWind.Survey.Crew
import StellarWind.Survey.Failure
import StellarWind.Survey.Options
import StellarWind.Survey.Report
import StellarWind.Survey.Sampling
import StellarWind.Survey.Site
import StellarWind.Tally.Basic
import StellarWind.Tally.Parts
import StellarWind.Wind.Cell
import StellarWind.Wind.Document
import StellarWind.Wind.Grid
import StellarWind.Wind.Mesh
import StellarWind.Wire.Buffer
import StellarWind.Wire.Bytes
import StellarWind.Wire.Composite
import StellarWind.Wire.Error
import StellarWind.Wire.Registry
import StellarWind.Wire.Schema
import StellarWind.Proofs.Wire.Record
import StellarWind.Proofs.Wind.CellRecord
import StellarWind.Proofs.Exchange.Share
import StellarWind.Proofs.Exchange.Opening
import StellarWind.Proofs.Exchange.Turn
import StellarWind.Proofs.Exchange.Grids
import StellarWind.Proofs.Exchange.Rounds
import StellarWind.Proofs.Exchange.Convergence
import StellarWind.Proofs.Plan.Balanced
import StellarWind.Proofs.Plan.Offsets
import StellarWind.Proofs.Wind.Grid
import StellarWind.Proofs.Survey.Crew
import StellarWind.Proofs.Wind.CellBytes
import StellarWind.Proofs.Exchange.Meeting
import StellarWind.Proofs.Tally.Counting
import StellarWind.Proofs.Exchange.Lockstep
import StellarWind.Proofs.Random.Packets
import StellarWind.Proofs.Tally.Routing
import StellarWind.Proofs.Exchange.Kept
import StellarWind.Proofs.Wind.InPlace
import StellarWind.Proofs.Survey.Actions
import StellarWind.Proofs.Exchange.Planned
import StellarWind.Proofs.Exchange.Merging
import StellarWind.Proofs.Json.Document
import StellarWind.Proofs.Json.Overlay
import StellarWind.Proofs.Settings.Document
import StellarWind.Proofs.Settings.Overlay
import StellarWind.Proofs.Survey.Sampling
import StellarWind.Proofs.Survey.Running
import StellarWind.Proofs.Survey.Verdict
import StellarWind.Proofs.Survey.Extent
import StellarWind.Proofs.Survey.Attempts
import StellarWind.Proofs.Wire.Sizing
import StellarWind.Proofs.Wire.Members
import StellarWind.Proofs.Wire.Cursor
import StellarWind.Proofs.Wire.Layout
import StellarWind.Proofs.Exchange.Room
import StellarWind.Proofs.Wind.Defining
import StellarWind.Proofs.Plan.Tiling
import StellarWind.Proofs.Tally.Extremes
import StellarWind.Proofs.Tally.Installing
import StellarWind.Proofs.Number.Sign
import StellarWind.Proofs.Tally.Mirror
import StellarWind.Proofs.Spectrum.Fractions
import StellarWind.Proofs.Exchange.Registrations
