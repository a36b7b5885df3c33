import Mathlib.Data.List.DropRight
import StellarWind.Proofs.Number.Stored
import StellarWind.Proofs.Tally.Bands

/-!
# Extremes of the bands

The lowest and the highest frequency of a band start from infinity and from zero. Neither
start is a frequency that the band can hold: its edges are finite and positive. So after any
run of records and resets, the extremes of a band that has counted a segment since the last
reset are frequencies of such segments, and they lie between the edges of the band.
-/

namespace StellarWind

/-! ## The extremes of one band

The lowest and the highest frequency are the same choice in two orders. A band takes frequencies
above its lower edge, which is above zero, and up to its upper edge, which is below infinity, so
that each start loses against the first frequency.
-/

/-- A band between two edges that has counted the given frequencies. -/
structure BandTally.Extremes (b : BandTally) (lower upper : Float) (freqs : List Float) :
    Prop where
  count : b.count = freqs.length
  untouched : b.count = 0 ↔ b.lowest = .infinity ∧ b.highest = .zero
  inside : 0 < b.count → lower < b.lowest.toFloat ∧ b.lowest.toFloat ≤ b.highest.toFloat ∧
    b.highest.toFloat ≤ upper
  least : 0 < b.count → b.lowest.toFloat ∈ freqs ∧ ∀ f ∈ freqs, b.lowest.toFloat ≤ f
  greatest : 0 < b.count → b.highest.toFloat ∈ freqs ∧ ∀ f ∈ freqs, f ≤ b.highest.toFloat

namespace BandTally

section

variable {lower upper : Float} {ss : List Segment}

/-- Choosing among stored frequencies is choosing among the frequencies. -/
theorem toFloat_foldl {choose : Binary64 → Binary64 → Binary64} {pick : Float → Float → Float}
    (hpick : ∀ x y, (choose x y).toFloat = pick x.toFloat y.toFloat) (start : Binary64)
    (ss : List Segment) :
    (ss.foldl (fun f s => choose f (.ofFloat s.freq)) start).toFloat =
      (ss.map (·.freq)).foldl pick start.toFloat := by
  induction ss generalizing start with
  | nil => rfl
  | cons s ss ih =>
      rw [List.foldl_cons, ih, hpick, Binary64.toFloat_ofFloat]
      rfl

/-- A choice among the frequencies of a band, from a start that comes before none that lies
between its edges. -/
theorem foldl_freq {first : Float → Float → Prop} {pick : Float → Float → Float}
    {choose : Binary64 → Binary64 → Binary64} (h : Double.Chooses first pick)
    (htrans : ∀ {x y z : Float}, first x y → first y z → first x z)
    (hpick : ∀ x y, (choose x y).toFloat = pick x.toFloat y.toFloat)
    {start : Binary64} (hstart : start.toFloat.isNaN = false)
    (hlast : ∀ f, lower < f → f ≤ upper → ¬ first start.toFloat f)
    (hss : ∀ s ∈ ss, withinEdges lower upper s.freq) (hne : ss ≠ []) :
    (ss.foldl (fun f s => choose f (.ofFloat s.freq)) start).toFloat ∈ ss.map (·.freq) ∧
      ∀ f ∈ ss.map (·.freq),
        first (ss.foldl (fun f s => choose f (.ofFloat s.freq)) start).toFloat f := by
  have hwithin : ∀ f ∈ ss.map (·.freq), lower < f ∧ f ≤ upper :=
    List.forall_mem_map.mpr fun s hs => withinEdges_iff.mp (hss s hs)
  rw [toFloat_foldl hpick]
  apply h.foldl_of_start htrans hstart
  · exact fun f hf => Double.isNaN_right_of_lt (hwithin f hf).1
  · exact fun f hf => hlast f (hwithin f hf).1 (hwithin f hf).2
  · exact mt List.map_eq_nil_iff.mp hne

/-- Neither start is left once a band has counted a frequency between its edges. -/
theorem extremes_after [Elementary] [Addition] (hlower : 0 < lower) (hupper : upper < infinity)
    (hss : ∀ s ∈ ss, withinEdges lower upper s.freq) :
    (empty.after ss).Extremes lower upper (ss.map (·.freq)) := by
  have hcount : (empty.after ss).count = ss.length := Nat.zero_add _
  have hne (h : 0 < (empty.after ss).count) : ss ≠ [] := List.length_pos_iff.mp (hcount ▸ h)
  have hleast (h : 0 < (empty.after ss).count) :
      (empty.after ss).lowest.toFloat ∈ ss.map (·.freq) ∧
        ∀ f ∈ ss.map (·.freq), (empty.after ss).lowest.toFloat ≤ f :=
    foldl_freq Double.chooses_least Double.le_trans Binary64.toFloat_least (by decide +kernel)
      (fun f _ hle => Double.not_le_of_lt (Double.lt_of_le_of_lt hle hupper)) hss (hne h)
  have hgreatest (h : 0 < (empty.after ss).count) :
      (empty.after ss).highest.toFloat ∈ ss.map (·.freq) ∧
        ∀ f ∈ ss.map (·.freq), f ≤ (empty.after ss).highest.toFloat :=
    foldl_freq Double.chooses_greatest (fun hyx hzy => Double.le_trans hzy hyx)
      Binary64.toFloat_greatest (by decide +kernel)
      (fun f hlt _ => Double.not_le_of_lt (Double.lt_trans hlower hlt)) hss (hne h)
  have hinside (h : 0 < (empty.after ss).count) : lower < (empty.after ss).lowest.toFloat ∧
      (empty.after ss).lowest.toFloat ≤ (empty.after ss).highest.toFloat ∧
      (empty.after ss).highest.toFloat ≤ upper := by
    refine ⟨?_, (hleast h).2 _ (hgreatest h).1, ?_⟩
    · obtain ⟨s, hs, heq⟩ := List.mem_map.mp (hleast h).1
      exact heq ▸ (withinEdges_iff.mp (hss s hs)).1
    · obtain ⟨s, hs, heq⟩ := List.mem_map.mp (hgreatest h).1
      exact heq ▸ (withinEdges_iff.mp (hss s hs)).2
  refine ⟨hcount.trans (List.length_map _).symm, ⟨fun h => ?_, fun h => ?_⟩, hinside, hleast,
    hgreatest⟩
  · obtain rfl := List.length_eq_zero_iff.mp (hcount ▸ h)
    exact ⟨rfl, rfl⟩
  · -- A band that has counted a segment has its lowest frequency below infinity.
    refine Nat.eq_zero_of_not_pos fun hpos => Double.lt_irrefl infinity ?_
    obtain ⟨-, hle, hle'⟩ := hinside hpos
    have hlt := Double.lt_of_le_of_lt (Double.le_trans hle hle') hupper
    rwa [h.1] at hlt

end

end BandTally

namespace Tally

/-! ## Runs of records and resets

The segments that matter are those since the last reset. The induction is on the run from its end,
since a further event adds one segment to them or takes all away. A count may be at the end of its
range at any moment of the run, so that the room is asked for at every past.
-/

/-- What may happen to a tally. -/
inductive Event where
  | record (system : CoordSystem) (s : Segment)
  | reset

def Event.segment? : Event → Option Segment
  | record _ s => some s
  | reset => none

/-- The tally after an event, if its segment can be recorded. -/
def follow [Elementary] [Addition] (t : Tally) : Event → Except Fault Tally
  | .record system s =>
    match t.record system s with
    | (.ok _, t') => .ok t'
    | (.error fault, _) => .error fault
  | .reset => .ok t.reset

def followAll [Elementary] [Addition] (t : Tally) (events : List Event) : Except Fault Tally :=
  events.foldlM follow t

/-- The segments that were recorded since the last reset. -/
def recent (events : List Event) : List Segment :=
  (events.rtakeWhile (·.segment?.isSome)).filterMap Event.segment?

theorem recent_record (events : List Event) (system : CoordSystem) (s : Segment) :
    recent (events ++ [.record system s]) = recent events ++ [s] := by
  rw [recent, List.rtakeWhile_concat_pos _ _ _ rfl, List.filterMap_append]
  rfl

theorem recent_reset (events : List Event) : recent (events ++ [.reset]) = [] := by
  rw [recent, List.rtakeWhile_concat_neg _ _ _ Bool.false_ne_true]
  rfl

theorem length_recent_le (events : List Event) : (recent events).length ≤ events.length :=
  (List.length_filterMap_le _ _).trans (List.rtakeWhile_suffix _ _).length_le

section

variable [Elementary] [Addition] {t : Tally} {table : BandTable}

/-! ### Since the last reset

This is the invariant of a run: the bands hold the segments since the last reset, and no count knows
of any others. A segment adds to these, and a reset leaves none.
-/

/-- The bands hold the given segments, which is all that the tally has counted. -/
structure Since (t : Tally) (table : BandTable) (ss : List Segment) : Prop where
  banded : t.Banded table ss
  segments : t.segments = ss.length
  below : t.Below (ss.length + 1)

theorem since_blank (index cell : Nat) (h : table.count ≤ bandLimit) :
    Since { blank index cell with bands := table } table [] :=
  ⟨banded_blank index cell table, rfl, below_blank index cell h⟩

theorem Since.inRange {ss : List Segment} (h : t.Since table ss)
    (hroom : ss.length < Count.range64) : t.InRange :=
  h.below.mono hroom

theorem Since.routed {ss : List Segment} (h : t.Since table ss) (p : CoordSystem × Segment) :
    (t.routed [p]).Since table (ss ++ [p.2]) where
  banded := h.banded.routed [p]
  segments := by
    show t.segments + 1 = _
    rw [h.segments, List.length_append, List.length_singleton]
  below := by
    rw [List.length_append, List.length_singleton]
    exact h.below.routed [p]

/-- An event keeps what is known since the last reset, if there is room for its segment. -/
theorem Since.follow {events : List Event} (h : t.Since table (recent events)) (e : Event)
    (hbefore : (recent events).length < Count.range64)
    (hroom : (recent (events ++ [e])).length < Count.range64) :
    ∃ t', t.follow e = .ok t' ∧ t'.Since table (recent (events ++ [e])) := by
  cases e with
  | record system s =>
      have hnext := h.routed (system, s)
      rw [recent_record] at hroom ⊢
      refine ⟨_, ?_, hnext⟩
      rw [Tally.follow, record_ok (p := (system, s)) (h.inRange hbefore) (hnext.inRange hroom)]
  | reset =>
      refine ⟨t.reset, rfl, ?_⟩
      have hfits := h.below.fits
      rw [recent_reset, ← h.banded.bands]
      exact since_blank t.index t.cell hfits

theorem Since.follow_overflow {events : List Event} (h : t.Since table (recent events)) {e : Event}
    (hbefore : (recent events).length < Count.range64)
    (hfull : Count.range64 ≤ (recent (events ++ [e])).length) :
    t.follow e = .error .overflow := by
  cases e with
  | record system s =>
      have hnext := h.routed (system, s)
      rw [recent_record, ← hnext.segments] at hfull
      have hfault := record_overflow (p := (system, s)) (h.inRange hbefore)
        fun hrange => absurd hrange.segments (Nat.not_lt.mpr hfull)
      rcases hrun : t.record system s with ⟨fault | effect, m⟩ <;> rw [hrun] at hfault <;>
        cases hfault
      rw [Tally.follow, hrun]
  | reset =>
      rw [recent_reset] at hfull
      exact absurd hfull (by decide)

/-! ### Runs event by event

Runs are taken apart at their end, because what is recent is decided by the last events.
-/

theorem followAll_concat (t : Tally) (events : List Event) (e : Event) :
    t.followAll (events ++ [e]) = t.followAll events >>= fun t' => t'.follow e := by
  rw [followAll, followAll, List.foldlM_append]
  simp only [List.foldlM_cons, List.foldlM_nil, bind_pure]

/-- After any run with room for the segments between two resets, the bands hold the segments
since the last reset. -/
theorem exists_followAll (index cell : Nat) (hcount : table.count ≤ bandLimit)
    {events : List Event} (hroom : ∀ past, past <+: events → (recent past).length < Count.range64) :
    ∃ t, followAll { blank index cell with bands := table } events = .ok t ∧
      t.Since table (recent events) := by
  induction events using List.reverseRecOn with
  | nil => exact ⟨_, rfl, since_blank index cell hcount⟩
  | append_singleton events e ih =>
      have hpast (past : List Event) (h : past <+: events) : past <+: events ++ [e] :=
        h.trans (List.prefix_append events [e])
      obtain ⟨t, hrun, hsince⟩ := ih fun past h => hroom past (hpast past h)
      obtain ⟨t', hstep, hsince'⟩ := hsince.follow e (hroom _ (hpast _ (List.prefix_refl _)))
        (hroom _ (List.prefix_refl _))
      refine ⟨t', ?_, hsince'⟩
      rw [followAll_concat, hrun, ok_bind, hstep]

/-- The first event without room stops the run. -/
theorem followAll_overflow (index cell : Nat) (hcount : table.count ≤ bandLimit)
    {events : List Event}
    (hfull : ∃ past, past <+: events ∧ Count.range64 ≤ (recent past).length) :
    followAll { blank index cell with bands := table } events = .error .overflow := by
  induction events using List.reverseRecOn with
  | nil =>
      obtain ⟨past, hpast, hle⟩ := hfull
      rw [List.prefix_nil.mp hpast] at hle
      exact absurd hle (by decide)
  | append_singleton events e ih =>
      by_cases hbefore : ∃ past, past <+: events ∧ Count.range64 ≤ (recent past).length
      · rw [followAll_concat, ih hbefore]
        rfl
      · have hroom (past : List Event) (h : past <+: events) :
            (recent past).length < Count.range64 :=
          Nat.lt_of_not_le fun hle => hbefore ⟨past, h, hle⟩
        obtain ⟨t, hrun, hsince⟩ := exists_followAll index cell hcount hroom
        -- Only the whole run is left as the part that has no room.
        obtain ⟨past, hpast, hle⟩ := hfull
        obtain rfl | hpast := List.prefix_concat_iff.mp hpast
        · rw [followAll_concat, hrun, ok_bind]
          exact hsince.follow_overflow (hroom _ (List.prefix_refl _)) hle
        · exact absurd ⟨past, hpast, hle⟩ hbefore

/-- After any run of records and resets, every band of a spectrum has counted the segments
since the last reset with a frequency between its edges. Its extremes are the lowest and the
highest of these frequencies, and they are where they started exactly when there is none. Only
a run with too many segments between two resets overflows. -/
theorem followAll_extremes {edges : List Float} {minFraction : Float} {s : Spectrum}
    (h : Spectrum.ofEdges edges minFraction = .ok s) (index cell : Nat) (events : List Event) :
    ∃ table, BandTable.ofSpectrum s = .ok table ∧
      ((∀ past, past <+: events → (recent past).length < Count.range64) →
        ∃ t bs, followAll { blank index cell with bands := table } events = .ok t ∧
          t.activeBands = .ok bs ∧ bs.length = edges.length - 1 ∧
          ∀ i lower upper, edges[i]? = some lower → edges[i + 1]? = some upper →
            ∃ b, bs[i]? = some b ∧ b.Extremes lower upper
              (((recent events).filter fun s => withinEdges lower upper s.freq).map (·.freq))) ∧
      ((∃ past, past <+: events ∧ Count.range64 ≤ (recent past).length) →
        followAll { blank index cell with bands := table } events = .error .overflow) := by
  have hedges : Spectrum.Admits edges := Spectrum.ofEdges_eq_ok_iff.mp ⟨s, h⟩
  obtain ⟨table, htable, hholds⟩ := BandTable.exists_holds h
  refine ⟨table, htable, fun hroom => ?_, followAll_overflow index cell hholds.fit⟩
  obtain ⟨t, hrun, hsince⟩ := exists_followAll index cell hholds.fit hroom
  obtain ⟨bs, hbs, hlength, hbands⟩ := hsince.banded.exists_activeBands hholds
  refine ⟨t, bs, hrun, hbs, hlength, fun i lower upper hlower hupper => ?_⟩
  obtain ⟨hlt, -⟩ := List.getElem?_eq_some_iff.mp hupper
  have hget : bs[i]? = some bs[i] := List.getElem?_eq_getElem (by omega)
  refine ⟨bs[i], hget, ?_⟩
  rw [hbands i lower upper _ hlower hupper hget]
  apply BandTally.extremes_after
  · exact (hedges.edge lower (List.mem_of_getElem? hlower)).2
  · exact Double.lt_infinity (hedges.edge upper (List.mem_of_getElem? hupper)).1
  · exact fun s hs => (List.mem_filter.mp hs).2

end

/-- A run with a segment in each of two bands, a reset, and then two segments in the second
band with one that is not a number between them. -/
def restarted : List Event :=
  [.record .spherical (segmentOf 2e14 0 .star), .record .spherical (segmentOf 9e15 1 .disk),
    .reset, .record .cylindrical (segmentOf 5e15 2 .wind),
    .record .spherical (segmentOf (0 / 0) 3 .star), .record .spherical (segmentOf 2e15 4 .disk)]

theorem followAll_extremes_restarted : ∃ s table t b c,
    Spectrum.ofEdges [1e14, 1e15, 1e16] 0 = .ok s ∧ BandTable.ofSpectrum s = .ok table ∧
      followAll { blank 0 0 with bands := table } restarted = .ok t ∧
      t.activeBands = .ok [b, c] ∧ b.count = 0 ∧ b.lowest = .infinity ∧ b.highest = .zero ∧
      c.count = 2 ∧ c.lowest.toFloat = 2e15 ∧ c.highest.toFloat = 5e15 := by
  obtain ⟨s, hs⟩ : ∃ s, Spectrum.ofEdges [1e14, 1e15, 1e16] 0 = .ok s :=
    Spectrum.ofEdges_eq_ok_iff.mpr ⟨by decide, by decide, by decide +kernel, by decide +kernel⟩
  obtain ⟨table, htable, hok, -⟩ := followAll_extremes hs 0 0 restarted
  have hroom (past : List Event) (h : past <+: restarted) :
      (recent past).length < Count.range64 := by
    have hle := (length_recent_le past).trans h.length_le
    exact hle.trans_lt (by decide)
  obtain ⟨t, bs, hrun, hbs, hlength, hbands⟩ := hok hroom
  obtain ⟨b, hb, hfirst⟩ := hbands 0 1e14 1e15 rfl rfl
  obtain ⟨c, hc, hsecond⟩ := hbands 1 1e15 1e16 rfl rfl
  have hnone : ((recent restarted).filter fun s => withinEdges 1e14 1e15 s.freq).map (·.freq) =
      [] := by decide +kernel
  have htwo : ((recent restarted).filter fun s => withinEdges 1e15 1e16 s.freq).map (·.freq) =
      [5e15, 2e15] := by decide +kernel
  -- Since the restart no segment is in the first band, and two are in the second.
  rw [hnone] at hfirst
  rw [htwo] at hsecond
  obtain ⟨hlowest, hhighest⟩ := hfirst.untouched.mp hfirst.count
  have hpos : 0 < c.count := hsecond.count ▸ Nat.two_pos
  obtain ⟨hmem, hle⟩ := hsecond.least hpos
  obtain ⟨hmem', hle'⟩ := hsecond.greatest hpos
  rw [List.forall_mem_cons, List.forall_mem_singleton] at hle hle'
  have hpair : bs = [b, c] := by
    match bs, hlength with
    | [x, y], _ => cases hb; cases hc; rfl
  have hlt : (2e15 : Float) < 5e15 := by decide +kernel
  refine ⟨s, table, t, b, c, hs, htable, hrun, hpair ▸ hbs, hfirst.count, hlowest, hhighest,
    hsecond.count, (List.mem_pair.mp hmem).resolve_left fun heq => ?_,
    (List.mem_pair.mp hmem').resolve_right fun heq => ?_⟩
  · rw [heq] at hle
    exact Double.not_le_of_lt hlt hle.2
  · rw [heq] at hle'
    exact Double.not_le_of_lt hlt hle'.1

end Tally

end StellarWind
