import StellarWind.Proofs.Tally.Recording

/-!
# Counting packets

A tally counts a packet when it is not the one of the segment before, and an ionizing
packet when it is not the one of the ionizing segment before. Over a whole run these
counts are numbers of `openings`, of all segments and of the ionizing ones. They are
the numbers of distinct packets exactly when no packet comes back after another one.
-/

namespace StellarWind

/-- Every segment has one of the origins. -/
theorem sum_countP_origin (ss : List Segment) :
    (Origin.all.map fun o => ss.countP (·.origin = o)).sum = ss.length := by
  induction ss with
  | nil => rfl
  | cons s ss ih =>
      simp only [Origin.all, List.map_cons, List.map_nil, List.sum_cons, List.sum_nil,
        List.countP_cons] at ih ⊢
      cases s.origin <;> simp <;> omega

namespace Tally

section

variable [Elementary] [Addition]

/-! ## What is reported

The reports of a run say at which segments a packet is counted. Each of them looks at the packet
that is remembered when its segment comes, and so do the openings, so that both are followed
from the front of the run.
-/

theorem countP_newPacket (t : Tally) (steps : List (CoordSystem × Segment)) :
    (t.effects steps).countP (·.newPacket) = (openings t.last (steps.map Prod.snd)).length := by
  induction steps generalizing t with
  | nil => rfl
  | cons p rest ih =>
      have hnew : (t.effect p.2).newPacket = decide (t.last ≠ some p.2.id) := rfl
      have hlast : (t.routed [p]).last = some p.2.id := rfl
      rw [effects, List.countP_cons, ih, hlast, hnew, List.map_cons, openings_cons]
      by_cases h : t.last = some p.2.id
      · simp [h]
      · simp [h]

theorem countP_newIonizing (t : Tally) (steps : List (CoordSystem × Segment)) :
    (t.effects steps).countP (·.newIonizing) =
      (openings t.lastIonizing (ionizers (steps.map Prod.snd))).length := by
  induction steps generalizing t with
  | nil => rfl
  | cons p rest ih =>
      have hnew : (t.effect p.2).newIonizing =
          (ionizes p.2.freq && decide (t.lastIonizing ≠ some p.2.id)) := rfl
      have hlast : (t.routed [p]).lastIonizing = lastOf t.lastIonizing (ionizers [p.2]) := rfl
      rw [effects, List.countP_cons, ih, hlast, hnew, List.map_cons]
      by_cases hion : ionizes p.2.freq = true
      · by_cases h : t.lastIonizing = some p.2.id
        · simp [ionizers, lastOf, openings_cons, hion, h]
        · simp [ionizers, lastOf, openings_cons, hion, h]
      · simp [ionizers, lastOf, hion]

/-! ## The counts of a fresh cell

From a blank tally every count is a number of segments of the run: of all, of the openings, of the
openings of an origin, or of the openings among the ionizing ones.
-/

/-- A blank tally has counted nothing and remembers no packet. -/
theorem counts_routed_blank (index cell : Nat) (table : BandTable)
    (steps : List (CoordSystem × Segment)) :
    let t := routed { blank index cell with bands := table } steps
    t.origins.total = (openings none (steps.map Prod.snd)).length ∧
      (∀ o, t.origins.get o = (openings none (steps.map Prod.snd)).countP (·.origin = o)) ∧
      t.ionizingPackets = (openings none (ionizers (steps.map Prod.snd))).length := by
  refine ⟨(OriginCounts.total_after _ _).trans (Nat.zero_add _), fun o => ?_, Nat.zero_add _⟩
  refine (OriginCounts.get_after _ _ o).trans ?_
  show OriginCounts.empty.get o + _ = _
  rw [OriginCounts.get_empty, Nat.zero_add]
  rfl

/-- Over every run from a blank tally, packets are counted at their openings, and
ionizing packets at their openings among the ionizing segments. -/
theorem recordAll_blank_counts (index cell : Nat) {table : BandTable}
    (h : table.count ≤ bandLimit) {steps : List (CoordSystem × Segment)}
    (hsteps : steps.length < Count.range64) :
    ∃ effects t, ({ blank index cell with bands := table } : Tally).recordAll steps =
        (.ok effects, t) ∧
      t.segments = steps.length ∧
      t.origins.total = (openings none (steps.map Prod.snd)).length ∧
      (∀ o, t.origins.get o = (openings none (steps.map Prod.snd)).countP (·.origin = o)) ∧
      (Origin.all.map t.origins.get).sum = t.origins.total ∧
      t.ionizingPackets = (openings none (ionizers (steps.map Prod.snd))).length ∧
      t.ionizingPackets ≤ t.origins.total ∧ t.origins.total ≤ t.segments ∧
      effects.countP (·.newPacket) = t.origins.total ∧
      effects.countP (·.newIonizing) = t.ionizingPackets ∧
      (t.origins.total = ((steps.map Prod.snd).map (·.id)).toFinset.card ↔
        ∀ x y, [x, y, x].Sublist ((steps.map Prod.snd).map (·.id)) → x = y) := by
  let start : Tally := { blank index cell with bands := table }
  have hstart : start.InRange := (below_blank index cell h).mono (by decide)
  have hrun := recordAll_ok hstart ((inRange_routed_blank_iff index cell h steps).mpr hsteps)
  have hsegments : (start.routed steps).segments = steps.length := by
    show 0 + (steps.map Prod.snd).length = _
    rw [Nat.zero_add, List.length_map]
  obtain ⟨htotal, horigin, hionizing⟩ := counts_routed_blank index cell table steps
  -- What is left is about the openings in the list of segments.
  refine ⟨_, _, hrun, hsegments, htotal, horigin, ?_, hionizing, ?_, ?_, ?_, ?_, ?_⟩
  · rw [funext horigin, sum_countP_origin, htotal]
  · rw [hionizing, htotal]
    exact length_openings_filter_le _ none none _
  · have hle := length_openings_le none (steps.map Prod.snd)
    rwa [List.length_map, ← htotal, ← hsegments] at hle
  · rw [htotal]
    exact start.countP_newPacket steps
  · rw [hionizing]
    exact start.countP_newIonizing steps
  · rw [htotal]
    exact length_openings_eq_card_iff _

end

/-- A run in which packet 0 comes back after packet 1, which does not ionize. -/
def interrupted : List (CoordSystem × Segment) :=
  [(.spherical, segmentOf 5e15 0 .star), (.cylindrical, segmentOf 1e14 1 .disk),
    (.spherical, segmentOf 5e15 0 .star), (.spherical, segmentOf 6e15 0 .wind)]

theorem recordAll_blank_counts_interrupted :
    ∃ effects t, (blank 0 0).recordAll interrupted = (.ok effects, t) ∧ t.segments = 4 ∧
      t.origins.total = 3 ∧ t.origins.star = 2 ∧ t.origins.disk = 1 ∧ t.origins.wind = 0 ∧
      t.ionizingPackets = 1 ∧ effects.countP (·.newPacket) = 3 ∧
      t.origins.total ≠ ((interrupted.map Prod.snd).map (·.id)).toFinset.card := by
  obtain ⟨effects, t, hrun, hsegments, htotal, horigin, -, hionizing, -, -, hnew, -, hdistinct⟩ :=
    recordAll_blank_counts 0 0 (show BandTable.empty.count ≤ bandLimit by decide)
      (show interrupted.length < Count.range64 by decide)
  have htotal' : t.origins.total = 3 := htotal.trans (by decide)
  refine ⟨effects, t, hrun, hsegments, htotal', (horigin .star).trans (by decide),
    (horigin .disk).trans (by decide), (horigin .wind).trans (by decide),
    hionizing.trans (by decide), hnew.trans htotal', ?_⟩
  intro hcard
  have := hdistinct.mp hcard ⟨0, 0⟩ ⟨0, 1⟩ (by decide)
  exact absurd this (by decide)

end Tally

end StellarWind
