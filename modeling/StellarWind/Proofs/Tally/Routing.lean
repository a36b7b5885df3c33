import StellarWind.Proofs.Except
import StellarWind.Proofs.Tally.Openings
import StellarWind.Tally.Basic

/-!
# Where segments go

A segment is added to several sums of a tally, each under a condition of its own.
`Tally.routed` says what a whole run amounts to: each sum is taken, in the order of the
run, over the segments that meet its condition, and nothing else changes. It is a function
of the tally and the run alone, without regard to the range of the counts, and the tally of
two runs is that of the one behind the other (`routed_append`).

No count grows by more than one with a segment, so that counts below a limit stay below it
and the length of the run together (`Below.routed`).
-/

namespace StellarWind

variable [Elementary] [Addition]

/-! ## Sums in order

Sums of doubles depend on the order of their terms, and so the order of the run is kept in all of
them.
-/

/-- Add a quantity of each segment to a sum, in order. -/
def addUp (f : Segment → Binary64) (start : Binary64) (ss : List Segment) : Binary64 :=
  ss.foldl (fun sum s => Addition.plus sum (f s)) start

omit [Elementary] in
theorem addUp_append (f : Segment → Binary64) (start : Binary64) (ss ss' : List Segment) :
    addUp f start (ss ++ ss') = addUp f (addUp f start ss) ss' :=
  List.foldl_append

/-- The number of photons that a segment stands for. -/
def Segment.photons (s : Segment) : Float := s.weighted / (planck * s.freq)

/-! ## Parts of a tally

Each part has a function `after` that gives it the segments that it is concerned with, and for each
of them what comes after two lists is what comes after one behind the other.
-/

/-- The sums of a band over the given segments. -/
def BandTally.after (b : BandTally) (ss : List Segment) : BandTally where
  freqSum := addUp (fun s => .store (s.freq * s.weighted)) b.freqSum ss
  freqSquareSum := addUp (fun s => .store (s.freq * s.freq * s.weighted)) b.freqSquareSum ss
  intensity := addUp (fun s => .store s.weighted) b.intensity ss
  count := b.count + ss.length
  lowest := ss.foldl (fun f s => f.least (.ofFloat s.freq)) b.lowest
  highest := ss.foldl (fun f s => f.greatest (.ofFloat s.freq)) b.highest

theorem BandTally.after_append (b : BandTally) (ss ss' : List Segment) :
    b.after (ss ++ ss') = (b.after ss).after ss' := by
  simp only [after, addUp_append, List.length_append, List.foldl_append, Nat.add_assoc]

def FluxTally.after (f : FluxTally) (vs : List (Vec3 Float)) : FluxTally where
  vector := vs.foldl (fun sum v => sum.plus v.store) f.vector
  magnitude := vs.foldl (fun sum v => Addition.plus sum (.store v.norm)) f.magnitude

theorem FluxTally.after_append (f : FluxTally) (vs vs' : List (Vec3 Float)) :
    f.after (vs ++ vs') = (f.after vs).after vs' := by
  simp only [after, List.foldl_append]

/-- The flux vectors of the segments in a waveband. -/
def fluxesIn (w : Waveband) (steps : List (CoordSystem × Segment)) : List (Vec3 Float) :=
  (steps.filter fun p => Waveband.classify p.2.freq = w).map fun p => p.2.flux p.1

omit [Addition] in
theorem fluxesIn_append (w : Waveband) (steps steps' : List (CoordSystem × Segment)) :
    fluxesIn w (steps ++ steps') = fluxesIn w steps ++ fluxesIn w steps' := by
  simp only [fluxesIn, List.filter_append, List.map_append]

def FluxTallies.after (f : FluxTallies) (steps : List (CoordSystem × Segment)) : FluxTallies where
  visible := f.visible.after (fluxesIn .visible steps)
  ultraviolet := f.ultraviolet.after (fluxesIn .ultraviolet steps)
  xray := f.xray.after (fluxesIn .xray steps)

theorem FluxTallies.after_append (f : FluxTallies) (steps steps' : List (CoordSystem × Segment)) :
    f.after (steps ++ steps') = (f.after steps).after steps' := by
  simp only [after, fluxesIn_append, FluxTally.after_append]

theorem FluxTallies.after_singleton (f : FluxTallies) (system : CoordSystem) (s : Segment) :
    f.after [(system, s)] = f.add (s.flux system) (Waveband.classify s.freq) := by
  cases h : Waveband.classify s.freq <;> simp [after, fluxesIn, h] <;> rfl

namespace OriginCounts

omit [Elementary] [Addition]

/-! ### Counts by origin

One count for each origin and one for all. A list of segments raises each by the number of the
segments that belong to it.
-/

theorem get_empty (o : Origin) : empty.get o = 0 := by
  cases o <;> rfl

/-- The counts with one more packet of an origin. -/
def more (c : OriginCounts) (o : Origin) : OriginCounts :=
  { c with total := c.total + 1 }.set (c.get o + 1) o

theorem total_more (c : OriginCounts) (o : Origin) : (c.more o).total = c.total + 1 := by
  cases o <;> rfl

theorem get_more (c : OriginCounts) (o o' : Origin) :
    (c.more o).get o' = c.get o' + if o = o' then 1 else 0 := by
  cases o <;> cases o' <;> rfl

/-- The counts with the packets that begin with the given segments. -/
def after (c : OriginCounts) (ss : List Segment) : OriginCounts :=
  ss.foldl (fun c s => c.more s.origin) c

theorem after_append (c : OriginCounts) (ss ss' : List Segment) :
    c.after (ss ++ ss') = (c.after ss).after ss' :=
  List.foldl_append

theorem total_after (c : OriginCounts) (ss : List Segment) :
    (c.after ss).total = c.total + ss.length := by
  induction ss generalizing c with
  | nil => rfl
  | cons s ss ih =>
      show ((c.more s.origin).after ss).total = _
      rw [ih, total_more, List.length_cons]
      omega

theorem get_after (c : OriginCounts) (ss : List Segment) (o : Origin) :
    (c.after ss).get o = c.get o + ss.countP (·.origin = o) := by
  induction ss generalizing c with
  | nil => rfl
  | cons s ss ih =>
      show ((c.more s.origin).after ss).get o = _
      rw [ih, get_more, List.countP_cons]
      simp only [decide_eq_true_eq]
      omega

end OriginCounts

namespace BandTable

omit [Elementary] [Addition]

/-! ### Bands and their slots

A slot takes the segments in its band if it is in use. Whether a band holds a frequency is decided
by its edges alone.
-/

/-- Whether a segment belongs to the band of slot `i`. -/
def takes (t : BandTable) (i : Fin bandLimit) (s : Segment) : Bool :=
  decide (i.val < t.count) &&
    (decide ((t.slots.get i).lower < s.freq) && decide (s.freq ≤ (t.slots.get i).upper))

theorem holds_eq_takes (t : BandTable) (i : Fin bandLimit) (s : Segment) :
    t.holds s.freq i = t.takes i s := rfl

/-- A band that is not in use takes no segment. -/
theorem filter_takes_of_count_le (t : BandTable) {i : Fin bandLimit}
    (h : t.count ≤ i.val) (ss : List Segment) : ss.filter (t.takes i) = [] := by
  rw [List.filter_eq_nil_iff]
  intro s _
  simp [takes, Nat.not_lt.mpr h]

theorem head?_matching (t : BandTable) (s : Segment) (i : Fin bandLimit) :
    (t.matching s.freq).head? = some i ↔ t.takes i s ∧ ∀ j < i, ¬ t.takes j s := by
  have hholds : t.holds s.freq = (t.takes · s) := funext fun j => t.holds_eq_takes j s
  rw [matching, hholds, List.head?_filter, List.find?_eq_some_iff_getElem]
  refine and_congr_right fun _ => ?_
  -- The slots are listed in order, so the place of a slot in the list is its number.
  simp only [List.getElem_finRange, List.length_finRange, Bool.not_eq_true', Bool.not_eq_true]
  constructor
  · rintro ⟨n, hn, rfl, hbefore⟩ j hj
    exact hbefore j.val hj
  · intro hbefore
    exact ⟨i.val, i.isLt, rfl, fun j hj => hbefore ⟨j, _⟩ hj⟩

end BandTable

omit [Elementary] [Addition] in
theorem get_ofFn {α : Type} {n : Nat} (f : Fin n → α) (i : Fin n) :
    (Vector.ofFn f).get i = f i := by
  show (Vector.ofFn f)[i.val] = f i
  simp

namespace Tally

/-! ## The tally of a run

The conditions are those of the program, taken together in one place. A condition looks at the
segment, but for that of the packets, which looks at the last packet too.
-/

/-- The tally after a run: every sum over the segments that are routed to it. -/
def routed (t : Tally) (steps : List (CoordSystem × Segment)) : Tally :=
  let ss := steps.map Prod.snd
  { t with
    intensity := addUp (fun s => .store s.weighted) t.intensity ss
    directIntensity :=
      addUp (fun s => .store s.weighted) t.directIntensity (ss.filter (·.scatters = 0))
    scatteredIntensity :=
      addUp (fun s => .store s.weighted) t.scatteredIntensity (ss.filter (·.scatters ≠ 0))
    pathLength := addUp (fun s => .ofFloat s.length) t.pathLength ss
    segments := t.segments + ss.length
    freqSum := addUp (fun s => .store (s.freq * s.weighted)) t.freqSum ss
    flux := t.flux.after steps
    bandTallies := Vector.ofFn fun i => (t.bandTallies.get i).after (ss.filter (t.bands.takes i))
    ionizing := addUp (fun s => .store s.photons) t.ionizing (ionizers ss)
    directIonizing :=
      addUp (fun s => .store s.photons) t.directIonizing ((ionizers ss).filter (·.scatters = 0))
    scatteredIonizing :=
      addUp (fun s => .store s.photons) t.scatteredIonizing ((ionizers ss).filter (·.scatters ≠ 0))
    ionization := addUp (fun s => .store s.weighted) t.ionization
      ((ionizers ss).filter (photonEnergy ·.freq < ionizationCeiling))
    origins := t.origins.after (openings t.last ss)
    ionizingPackets := t.ionizingPackets + (openings t.lastIonizing (ionizers ss)).length
    last := lastOf t.last ss
    lastIonizing := lastOf t.lastIonizing (ionizers ss) }

theorem routed_nil (t : Tally) : t.routed [] = t := by
  have hslots : (Vector.ofFn fun i => (t.bandTallies.get i).after []) = t.bandTallies := by
    apply Vector.ext
    intro i hi
    rw [Vector.getElem_ofFn]
    rfl
  show { t with bandTallies := Vector.ofFn fun i => (t.bandTallies.get i).after [] } = t
  rw [hslots]

theorem routed_append (t : Tally) (steps steps' : List (CoordSystem × Segment)) :
    t.routed (steps ++ steps') = (t.routed steps).routed steps' := by
  simp only [routed, List.map_append, List.filter_append, ionizers_append, addUp_append,
    openings_append, FluxTallies.after_append, BandTally.after_append, OriginCounts.after_append,
    List.length_append, List.foldl_append, Nat.add_assoc, lastOf, get_ofFn]

/-- What the segments of a run are counted as. -/
def effects : Tally → List (CoordSystem × Segment) → List Effect
  | _, [] => []
  | t, p :: rest => t.effect p.2 :: (t.routed [p]).effects rest

theorem get_routed (t : Tally) (steps : List (CoordSystem × Segment)) (i : Fin bandLimit) :
    (t.routed steps).bandTallies.get i =
      (t.bandTallies.get i).after ((steps.map Prod.snd).filter (t.bands.takes i)) :=
  get_ofFn _ i

/-! ## Counts below a limit

Every count is a number of some of the segments, and the count of all segments is the largest from
a blank tally. So it alone decides whether a run overflows.
-/

omit [Elementary] [Addition] in
/-- The bands fit their slots, and every count is below a limit. -/
structure Below (t : Tally) (limit : Nat) : Prop where
  fits : t.bands.count ≤ bandLimit
  segments : t.segments < limit
  slots : ∀ i, (t.bandTallies.get i).count < limit
  total : t.origins.total < limit
  origin : ∀ o, t.origins.get o < limit
  ionizing : t.ionizingPackets < limit

/-- Every count is a 64-bit number. -/
abbrev InRange (t : Tally) : Prop := t.Below Count.range64

omit [Elementary] [Addition] in
theorem get_blank (index cell : Nat) (i : Fin bandLimit) :
    (blank index cell).bandTallies.get i = .empty := by
  show (Vector.replicate bandLimit BandTally.empty)[i.val] = _
  rw [Vector.getElem_replicate]

omit [Elementary] [Addition] in
theorem below_blank (index cell : Nat) {table : BandTable} (h : table.count ≤ bandLimit) :
    Below { blank index cell with bands := table } 1 where
  fits := h
  segments := Nat.one_pos
  slots := fun i => by
    show ((blank index cell).bandTallies.get i).count < 1
    rw [get_blank]
    exact Nat.one_pos
  total := Nat.one_pos
  origin := fun o => (OriginCounts.get_empty o).trans_lt Nat.one_pos
  ionizing := Nat.one_pos

omit [Elementary] [Addition] in
theorem Below.mono {t : Tally} {m n : Nat} (h : t.Below m) (hmn : m ≤ n) : t.Below n where
  fits := h.fits
  segments := h.segments.trans_le hmn
  slots := fun i => (h.slots i).trans_le hmn
  total := h.total.trans_le hmn
  origin := fun o => (h.origin o).trans_le hmn
  ionizing := h.ionizing.trans_le hmn

/-- A run raises each count by its length at most: it counts some of its segments. -/
theorem Below.routed {t : Tally} {limit : Nat} (h : t.Below limit)
    (steps : List (CoordSystem × Segment)) : (t.routed steps).Below (limit + steps.length) := by
  have hlength : (steps.map Prod.snd).length = steps.length := List.length_map _
  -- Each count goes up by the length of some part of the run.
  have hopen := length_openings_le t.last (steps.map Prod.snd)
  constructor
  case fits => exact h.fits
  case segments =>
    have := h.segments
    show t.segments + (steps.map Prod.snd).length < _
    omega
  case slots =>
    intro i
    have := h.slots i
    have hle := List.length_filter_le (t.bands.takes i) (steps.map Prod.snd)
    rw [get_routed]
    show (t.bandTallies.get i).count + _ < _
    omega
  case total =>
    have := h.total
    show (t.origins.after _).total < _
    rw [OriginCounts.total_after]
    omega
  case origin =>
    intro o
    have := h.origin o
    have hle := List.countP_le_length (p := fun s : Segment => decide (s.origin = o))
      (l := openings t.last (steps.map Prod.snd))
    show (t.origins.after _).get o < _
    rw [OriginCounts.get_after]
    omega
  case ionizing =>
    have := h.ionizing
    have hle := length_openings_le t.lastIonizing (ionizers (steps.map Prod.snd))
    have hle' := List.length_filter_le (fun s => ionizes s.freq) (steps.map Prod.snd)
    show t.ionizingPackets + _ < _
    rw [ionizers] at hle ⊢
    omega

/-- From a blank tally the number of segments is the largest count. -/
theorem inRange_routed_blank_iff (index cell : Nat) {table : BandTable}
    (h : table.count ≤ bandLimit) (steps : List (CoordSystem × Segment)) :
    (routed { blank index cell with bands := table } steps).InRange ↔
      steps.length < Count.range64 := by
  constructor
  · intro hrange
    have hsegments := hrange.segments
    show steps.length < _
    rwa [← List.length_map (f := Prod.snd), ← Nat.zero_add (List.length _)]
  · intro hlength
    exact ((below_blank index cell h).routed steps).mono (by omega)

end Tally

end StellarWind
