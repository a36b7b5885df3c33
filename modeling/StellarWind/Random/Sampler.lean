import StellarWind.Number.Functions
import StellarWind.Photon.Segment
import StellarWind.Random.Source
import StellarWind.Wind.Cell

/-!
# Sampled segments

A sampler makes up path segments inside cells: positions near the centre, equal
chances for all directions, and frequencies that are uniform on a logarithmic
scale. Now and then a segment continues the packet of the one before; otherwise
packets are numbered in order.
-/

namespace StellarWind

/-- A packet that segments belong to. -/
structure Packet where
  id : PacketId
  origin : Origin
  scatters : Nat
deriving DecidableEq

/-- A maker of segments. -/
structure Sampler (γ : Type) where
  source : γ
  low : Float
  high : Float
  next : Nat
  /-- The packet of the last segment. -/
  last : Option Packet

/-- A computation with a sampler; what was done before a fault stays done. -/
abbrev Sampling (γ : Type) := ExceptT Fault (StateM (Sampler γ))

namespace Sampler

variable {γ : Type}

def ofSource (source : γ) (low high : Float) : Sampler γ := ⟨source, low, high, 0, none⟩

def draw {α : Type} (d : Draw γ α) : Sampling γ α := ExceptT.mk fun s =>
  let (result, source) := d.run.run s.source
  (result, { s with source })

variable [RandomSource γ]

/-- The chance that a segment continues the last packet: three in ten. -/
def reentry : UInt64 := 5534023222112865280

/-- A unit vector, all directions alike. -/
def direction [Elementary] : Sampling γ (Vec3 Float) := do
  let cosTheta ← draw (Draw.uniform true (-1) 1)
  let sinTheta := (greatest (1 - cosTheta * cosTheta) 0).sqrt
  let phi ← draw (Draw.uniform false 0 (2 * pi))
  return ⟨sinTheta * Elementary.cos phi, sinTheta * Elementary.sin phi, cosTheta⟩

/-- A frequency, uniform on a logarithmic scale. -/
def frequency [Elementary] : Sampling γ Float := do
  let s ← get
  if s.high ≤ s.low then return s.low
  else
    let exponent ← draw (Draw.uniform false (Elementary.log s.low) (Elementary.log s.high))
    return Elementary.exp exponent

def newPacket (cell : Nat) : Sampling γ Packet := do
  let s ← get
  set { s with next := s.next + 1 }
  let n ← draw (Draw.below Origin.all.length)
  let scatters ← draw (Draw.below 4)
  return ⟨⟨cell, s.next⟩, Origin.all.getD n .star, scatters⟩

/-- The packet of the next segment: the last one, or a new one. -/
def packet (cell : Nat) : Sampling γ Packet := do
  let chosen ← match (← get).last with
    | none => newPacket cell
    | some previous =>
      if ← draw (Draw.chance reentry) then pure previous else newPacket cell
  modify fun s => { s with last := some chosen }
  return chosen

/-- How far a cell reaches; a cell without an extent counts as one long. -/
def extentOf (c : Cell) : Float := if c.dr.toFloat > 0 then c.dr.toFloat else 1

def sample [Elementary] (c : Cell) : Sampling γ Segment := do
  let extent := extentOf c
  let packet ← packet c.tallyIndex
  let x ← draw (Draw.uniform true (-0.25) 0.25)
  let y ← draw (Draw.uniform true (-0.25) 0.25)
  let z ← draw (Draw.uniform true (-0.25) 0.25)
  let freq ← frequency
  let weight ← draw (Draw.uniform false 0.5 1.5)
  let part ← draw (Draw.uniform true 0.01 1)
  let direction ← direction
  return {
    freq := freq
    weight := weight
    length := extent * part
    direction := direction
    position := c.centroid.value.add ((⟨x, y, z⟩ : Vec3 Float).scale extent)
    scatters := packet.scatters
    id := packet.id
    origin := packet.origin }

def run {α : Type} (m : Sampling γ α) (s : Sampler γ) : Except Fault α × Sampler γ := m.run s

end Sampler

end StellarWind
