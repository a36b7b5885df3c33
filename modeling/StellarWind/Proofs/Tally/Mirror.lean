import StellarWind.Proofs.Number.Sign
import StellarWind.Proofs.Tally.Recording

/-!
# Mirror images

A cylindrical domain is symmetric about its plane. The image of a segment that starts off the
plane has the same flux up to the sign of zero (`Segment.alike_flux_mirror`), wherever the
segment itself goes. So tallies do not tell segments from their images, and a run with any of
its segments replaced by their images fills them equally (`Tally.recordAll_mirror`).
-/

namespace StellarWind

/-! ## Vectors

The image of a vector has the other sign in its last component. A length is made of squares and
does not see this, and a unit vector is a quotient by the length.
-/

namespace Vec3

/-- Vectors with equal components, where the two zeros are equal. -/
structure Alike (u v : Vec3 Float) : Prop where
  x : Double.Alike u.x v.x
  y : Double.Alike u.y v.y
  z : Double.Alike u.z v.z

theorem Alike.refl (u : Vec3 Float) : u.Alike u := ⟨.refl u.x, .refl u.y, .refl u.z⟩

theorem Alike.symm {u v : Vec3 Float} (h : u.Alike v) : v.Alike u := ⟨h.x.symm, h.y.symm, h.z.symm⟩

theorem Alike.add {u u' v v' : Vec3 Float} (hu : u.Alike u') (hv : v.Alike v') :
    (u.add v).Alike (u'.add v') :=
  ⟨hu.x.add hv.x, hu.y.add hv.y, hu.z.add hv.z⟩

theorem Alike.norm_eq {u v : Vec3 Float} (h : u.Alike v) : u.norm = v.norm := by
  rw [norm, norm, dot, dot, h.x.mul_self, h.y.mul_self, h.z.mul_self]

/-- The image of a vector on the other side of the plane. -/
def mirror (v : Vec3 Float) : Vec3 Float := { v with z := -v.z }

theorem mirror_mirror (v : Vec3 Float) : v.mirror.mirror = v := by
  rw [mirror, mirror, Double.neg_neg]

theorem norm_mirror (v : Vec3 Float) : v.mirror.norm = v.norm := by
  show (v.x * v.x + v.y * v.y + -v.z * -v.z).sqrt = _
  rw [Double.neg_mul_neg]
  rfl

/-- A vector without a direction has a zero where its image should have the other one. -/
theorem unit_mirror (v : Vec3 Float) :
    v.mirror.unit.x = v.unit.x ∧ v.mirror.unit.y = v.unit.y ∧
      Double.Alike v.mirror.unit.z (-v.unit.z) := by
  unfold unit
  rw [norm_mirror]
  dsimp only
  split
  · exact ⟨rfl, rfl, by decide +kernel⟩
  · refine ⟨rfl, rfl, ?_⟩
    show Double.Alike (-v.z / v.norm) (-(v.z / v.norm))
    rw [Double.neg_div]
    exact .refl _

end Vec3

/-! ## Segments

The flux is taken in the frame of the midpoint of a segment, and its last component changes sign
where the segment starts below the plane. It is the start that decides and not the midpoint, so that
of a segment and its image off the plane one is folded and the other is not.
-/

namespace Segment

open Double (Alike)

variable {s : Segment}

/-- The image of a segment on the other side of the plane. -/
def mirror (s : Segment) : Segment :=
  { s with position := s.position.mirror, direction := s.direction.mirror }

theorem mirror_mirror (s : Segment) : s.mirror.mirror = s := by
  rw [mirror, mirror]
  simp only [Vec3.mirror_mirror]

variable [Elementary]

/-- The flux in the frame of the midpoint, before it is folded to the upper side. -/
def crossing (s : Segment) : Vec3 Float :=
  Vec3.cylindrical s.midpoint (s.direction.unit.scale s.weighted)

theorem flux_of_below (h : s.position.z < 0) :
    s.flux .cylindrical = { s.crossing with z := -s.crossing.z } := if_pos h

theorem flux_of_not_below (h : ¬ s.position.z < 0) : s.flux .cylindrical = s.crossing := if_neg h

/-- The frame depends on the distance of the midpoint from the axis and not on its side, so
that only the part along the axis changes, also where the segment crosses the plane. -/
theorem crossing_mirror (s : Segment) :
    s.mirror.crossing.x = s.crossing.x ∧ s.mirror.crossing.y = s.crossing.y ∧
      Alike s.mirror.crossing.z (-s.crossing.z) := by
  obtain ⟨hx, hy, hz⟩ : s.mirror.direction.unit.x = s.direction.unit.x ∧
      s.mirror.direction.unit.y = s.direction.unit.y ∧
      Alike s.mirror.direction.unit.z (-s.direction.unit.z) := s.direction.unit_mirror
  have hmidx : s.mirror.midpoint.x = s.midpoint.x := by
    rw [midpoint, Vec3.add, Vec3.scale, hx]
    rfl
  have hmidy : s.mirror.midpoint.y = s.midpoint.y := by
    rw [midpoint, Vec3.add, Vec3.scale, hy]
    rfl
  have hweighted : s.mirror.weighted = s.weighted := rfl
  refine ⟨?_, ?_, ?_⟩
  · simp only [crossing, Vec3.cylindrical, Vec3.scale, hmidx, hmidy, hx, hy, hweighted]
  · simp only [crossing, Vec3.cylindrical, Vec3.scale, hmidx, hmidy, hx, hy, hweighted]
  · show Alike (s.mirror.direction.unit.z * s.weighted) (-(s.direction.unit.z * s.weighted))
    rw [← Double.neg_mul]
    exact hz.mul_right s.weighted

theorem alike_flux_of_above (h : 0 < s.position.z) :
    (s.flux .cylindrical).Alike (s.mirror.flux .cylindrical) := by
  obtain ⟨hx, hy, hz⟩ := s.crossing_mirror
  have habove : ¬ s.position.z < 0 := fun hbelow =>
    Double.lt_irrefl _ (Double.lt_trans h hbelow)
  have hbelow : s.mirror.position.z < 0 := Double.neg_lt_zero_iff.mpr h
  rw [flux_of_not_below habove, flux_of_below hbelow]
  refine ⟨?_, ?_, ?_⟩
  · show Alike s.crossing.x s.mirror.crossing.x
    rw [hx]
    exact .refl _
  · show Alike s.crossing.y s.mirror.crossing.y
    rw [hy]
    exact .refl _
  · show Alike s.crossing.z (-s.mirror.crossing.z)
    have hfolded := hz.neg.symm
    rwa [Double.neg_neg] at hfolded

/-- Folding makes up for the side on which a segment starts. -/
theorem alike_flux_mirror (h : s.position.z < 0 ∨ 0 < s.position.z) :
    (s.flux .cylindrical).Alike (s.mirror.flux .cylindrical) := by
  obtain hbelow | habove := h
  · -- The image starts above the plane, and its image is the segment.
    have himage : 0 < s.mirror.position.z := by
      apply Double.neg_lt_zero_iff.mp
      show - -s.position.z < 0
      rwa [Double.neg_neg]
    have halike := alike_flux_of_above himage
    rw [mirror_mirror] at halike
    exact halike.symm
  · exact alike_flux_of_above habove

end Segment

/-! ## Steps that take no notice of the flux

Only one of the steps of a segment looks at where the segment is, and it changes the flux. All
others copy the flux, whichever way they decide and whether or not they fail.
-/

namespace Recording

/-- The second step does what the first one does, whatever the flux is, and leaves the flux. -/
def Carries (r r' : Recording Unit) : Prop :=
  ∀ t f, r'.on { t with flux := f } = ((r.on t).1, { (r.on t).2 with flux := f })

theorem carries_pure : Carries (pure ()) (pure ()) := fun _ _ => rfl

theorem Carries.bind {r r' : Recording Unit} {k k' : Unit → Recording Unit} (h : Carries r r')
    (hk : Carries (k ()) (k' ())) : Carries (r >>= k) (r' >>= k') := by
  intro t f
  have hfirst := h t f
  rcases hrun : r.on t with ⟨fault | u, m⟩ <;> rw [hrun] at hfirst
  · have hstop : (r >>= k).on t = (.error fault, m) := run_bind_error hrun
    rw [hstop]
    exact run_bind_error hfirst
  · have hgo : (r >>= k).on t = (k ()).on m := run_bind_ok hrun
    rw [hgo]
    exact (run_bind_ok hfirst).trans (hk m f)

theorem Carries.forM {α : Type} {xs : List α} {r r' : α → Recording Unit}
    (h : ∀ x, Carries (r x) (r' x)) : Carries (xs.forM r) (xs.forM r') := by
  induction xs with
  | nil => exact carries_pure
  | cons x xs ih => exact (h x).bind ih

theorem carries_modify {g g' : Tally → Tally}
    (h : ∀ t f, g' { t with flux := f } = { g t with flux := f }) :
    Carries (modify g) (modify g') :=
  fun t f => Prod.ext rfl (h t f)

theorem carries_within {α : Type} {get : Tally → α} {set : Tally → α → Tally}
    {g g' : α → Except Fault Unit × α} (hget : ∀ t f, get { t with flux := f } = get t)
    (hset : ∀ t f a, set { t with flux := f } a = { set t a with flux := f })
    (hg : ∀ a, g' a = g a) : Carries (within get set g) (within get set g') := by
  intro t f
  show ((g' (get _)).1, set _ (g' (get _)).2) =
    ((g (get t)).1, { set t (g (get t)).2 with flux := f })
  rw [hget, hset, hg]

theorem carries_when {c c' : Tally → Prop} [DecidablePred c] [DecidablePred c']
    {r r' : Recording Unit} (hc : ∀ t f, c' { t with flux := f } ↔ c t) (h : Carries r r') :
    Carries (get >>= fun t => if c t then r else pure ())
      (get >>= fun t => if c' t then r' else pure ()) := by
  intro t f
  show (if c' _ then r' else pure ()).on _ =
    (((if c t then r else pure ()).on t).1,
      { ((if c t then r else pure ()).on t).2 with flux := f })
  by_cases hif : c t
  · rw [if_pos hif, if_pos ((hc t f).mpr hif)]
    exact h t f
  · rw [if_neg hif, if_neg (mt (hc t f).mp hif)]
    rfl

section

variable [Elementary] [Addition] (s : Segment) (position direction : Vec3 Float)

/-! ### The steps around the flux

All steps but one take no notice of positions and directions, and none but this one looks at the
flux.
-/

theorem carries_addBand (i : Fin bandLimit) :
    Carries (addBand s i) (addBand { s with position, direction } i) :=
  carries_when (fun _ _ => Iff.rfl)
    (carries_within (fun _ _ => rfl) (fun _ _ _ => rfl) fun _ => rfl)

omit [Elementary] [Addition] in
theorem carries_checkBands : Carries checkBands checkBands := by
  intro t f
  show (if bandLimit < t.bands.count then throw .outOfBounds else pure () : Recording Unit).on _ =
    (((if bandLimit < t.bands.count then throw .outOfBounds else pure () : Recording Unit).on t).1,
      { ((if bandLimit < t.bands.count then throw .outOfBounds else pure () :
        Recording Unit).on t).2 with flux := f })
  split <;> rfl

omit [Elementary] [Addition] in
theorem carries_countPacket :
    Carries (countPacket s) (countPacket { s with position, direction }) :=
  carries_when (fun _ _ => Iff.rfl)
    ((carries_within (fun _ _ => rfl) (fun _ _ _ => rfl) fun _ => rfl).bind
      (carries_modify fun _ _ => rfl))

omit [Elementary] [Addition] in
theorem carries_countIonizing :
    Carries (countIonizing s) (countIonizing { s with position, direction }) :=
  carries_when (fun _ _ => Iff.rfl)
    ((carries_within (fun _ _ => rfl) (fun _ _ _ => rfl) fun _ => rfl).bind
      (carries_modify fun _ _ => rfl))

theorem carries_addIonization : Carries (modify (·.addIonization s))
    (modify (·.addIonization { s with position, direction })) := by
  apply carries_modify
  intro t f
  unfold Tally.addIonization
  dsimp only
  split <;> rfl

/-- The steps of a segment that come after the flux. -/
def afterFlux (s : Segment) : Recording Unit := do
  (List.finRange bandLimit).forM (addBand s)
  checkBands
  countPacket s
  countIonizing s
  modify (·.addIonization s)

theorem carries_afterFlux : Carries (afterFlux s) (afterFlux { s with position, direction }) :=
  (Carries.forM (carries_addBand s position direction)).bind <| carries_checkBands.bind <|
    (carries_countPacket s position direction).bind <|
    (carries_countIonizing s position direction).bind <| carries_addIonization s position direction

theorem on_segment_of_room (system : CoordSystem) {t : Tally}
    (h : t.segments + 1 < Count.range64) :
    (segment system s).on t = (afterFlux s).on
      (({ t.addPath s with segments := t.segments + 1 } : Tally).addFlux system s) := by
  have hcount : countSegment.on (t.addPath s) =
      (.ok (), { t.addPath s with segments := t.segments + 1 }) := by
    show ((countUp t.segments).1, { t.addPath s with segments := (countUp t.segments).2 }) = _
    rw [countUp_ok h]
  exact (run_bind_ok rfl).trans ((run_bind_ok hcount).trans (run_bind_ok rfl))

theorem on_segment_of_full (system : CoordSystem) {t : Tally}
    (h : ¬ t.segments + 1 < Count.range64) :
    (segment system s).on t = (.error .overflow, t.addPath s) := by
  have hcount : countSegment.on (t.addPath s) = (.error .overflow, t.addPath s) := by
    show ((countUp t.segments).1, { t.addPath s with segments := (countUp t.segments).2 }) = _
    rw [countUp_overflow h]
    rfl
  exact (run_bind_ok rfl).trans (run_bind_error hcount)

/-- The same segment at another place makes a difference for the flux only. -/
theorem on_segment_elsewhere (system : CoordSystem) (t : Tally) (f : FluxTallies) :
    (segment system { s with position, direction }).on { t with flux := f } =
      (((segment system s).on t).1, { ((segment system s).on t).2 with
        flux := if t.segments + 1 < Count.range64 then
            f.add (({ s with position, direction } : Segment).flux system)
              (Waveband.classify s.freq)
          else f }) := by
  by_cases h : t.segments + 1 < Count.range64
  · rw [if_pos h, on_segment_of_room s system h,
      on_segment_of_room _ system (t := { t with flux := f }) h]
    exact carries_afterFlux s position direction
      (({ t.addPath s with segments := t.segments + 1 } : Tally).addFlux system s)
      (f.add (({ s with position, direction } : Segment).flux system) (Waveband.classify s.freq))
  · rw [if_neg h, on_segment_of_full s system h,
      on_segment_of_full _ system (t := { t with flux := f }) h]
    rfl

end

end Recording

/-! ## Tallies

A sum of alike vectors is alike, and the magnitudes are the same because a length does not see the
sign of a zero. So alike tallies stay alike when one gets a segment and the other its image.
-/

/-- Flux sums with equal vectors, where the two zeros are equal, and the same magnitude. -/
structure FluxTally.Alike (f g : FluxTally) : Prop where
  vector : f.vector.value.Alike g.vector.value
  magnitude : f.magnitude = g.magnitude

theorem FluxTally.Alike.refl (f : FluxTally) : f.Alike f := ⟨.refl f.vector.value, rfl⟩

/-- A sum of stored vectors stands for the sum of the vectors. -/
theorem Vec3.value_plus [Elementary] (u : Vec3 Binary64) (v : Vec3 Float) :
    (u.plus v.store).value = u.value.add v := by
  show Vec3.mk _ _ _ = Vec3.mk _ _ _
  simp only [plus, store, map, Addition.plus, Binary64.toFloat_store]
  rfl

theorem FluxTally.Alike.add [Elementary] {f g : FluxTally} {u v : Vec3 Float} (h : f.Alike g)
    (huv : u.Alike v) : (f.add u).Alike (g.add v) where
  vector := by
    show (f.vector.plus u.store).value.Alike (g.vector.plus v.store).value
    rw [Vec3.value_plus, Vec3.value_plus]
    exact h.vector.add huv
  magnitude := by
    show Addition.plus f.magnitude (.store u.norm) = Addition.plus g.magnitude (.store v.norm)
    rw [h.magnitude, huv.norm_eq]

namespace Tally

section

variable [Elementary] {t t' : Tally}

/-- Tallies with alike flux sums in every waveband that are otherwise the same. -/
structure Alike (t t' : Tally) : Prop where
  flux : ∀ w, (t.flux.get w).Alike (t'.flux.get w)
  rest : t' = { t with flux := t'.flux }

omit [Elementary] in
theorem Alike.refl (t : Tally) : t.Alike t := ⟨fun w => .refl (t.flux.get w), rfl⟩

/-- The same segment at another place, which makes a difference for the flux only. -/
theorem record_flux (t : Tally) (f : FluxTallies) (system : CoordSystem) {s s' : Segment}
    (h : s' = { s with position := s'.position, direction := s'.direction }) :
    ({ t with flux := f } : Tally).record system s' = ((t.record system s).1,
      { (t.record system s).2 with
        flux := if t.segments + 1 < Count.range64 then
            f.add (s'.flux system) (Waveband.classify s.freq)
          else f }) := by
  have hrun := Recording.on_segment_elsewhere s s'.position s'.direction system t f
  rw [← h] at hrun
  have heffect : ({ t with flux := f } : Tally).effect s' = t.effect s := by
    rw [h]
    rfl
  rw [record, record, hrun, heffect]

theorem flux_record (t : Tally) (system : CoordSystem) (s : Segment) :
    (t.record system s).2.flux = if t.segments + 1 < Count.range64 then
        t.flux.add (s.flux system) (Waveband.classify s.freq)
      else t.flux :=
  congrArg (fun r => r.2.flux) (t.record_flux t.flux system (s := s) rfl)

/-! ## Runs of images

Each step of the second run is that of the first or its image. The counts do not depend on the
flux, so that both runs stop at the same step if they stop.
-/

/-- A step of a run, and a step that may take its place: the same one, or, in a cylindrical
domain, the image of a segment that starts off the plane. -/
inductive Mirrors : CoordSystem × Segment → CoordSystem × Segment → Prop
  | same (p : CoordSystem × Segment) : Mirrors p p
  | image {s : Segment} (h : s.position.z < 0 ∨ 0 < s.position.z) :
      Mirrors (.cylindrical, s) (.cylindrical, s.mirror)

theorem Mirrors.alike_flux {p p' : CoordSystem × Segment} (h : Mirrors p p') :
    (p.2.flux p.1).Alike (p'.2.flux p'.1) := by
  cases h with
  | same => exact .refl _
  | image h => exact Segment.alike_flux_mirror h

omit [Elementary] in
theorem Mirrors.elsewhere {p p' : CoordSystem × Segment} (h : Mirrors p p') :
    p'.1 = p.1 ∧ p'.2 = { p.2 with position := p'.2.position, direction := p'.2.direction } := by
  cases h <;> exact ⟨rfl, rfl⟩

theorem Alike.record {p p' : CoordSystem × Segment} (h : t.Alike t') (hp : Mirrors p p') :
    (t'.record p'.1 p'.2).1 = (t.record p.1 p.2).1 ∧
      (t.record p.1 p.2).2.Alike (t'.record p'.1 p'.2).2 := by
  obtain ⟨hsystem, hsegment⟩ := hp.elsewhere
  have hflux := hp.alike_flux
  rw [h.rest, hsystem, record_flux t _ _ hsegment]
  rw [hsystem] at hflux
  refine ⟨rfl, ?_, rfl⟩
  intro w
  rw [flux_record]
  dsimp only
  split
  · rw [FluxTallies.get_add, FluxTallies.get_add]
    split
    · exact (h.flux w).add hflux
    · exact h.flux w
  · exact h.flux w

theorem Alike.recordAll {steps steps' : List (CoordSystem × Segment)} (h : t.Alike t')
    (hsteps : List.Forall₂ Mirrors steps steps') :
    (t'.recordAll steps').1 = (t.recordAll steps).1 ∧
      (t.recordAll steps).2.Alike (t'.recordAll steps').2 := by
  induction hsteps generalizing t t' with
  | nil => exact ⟨rfl, h⟩
  | @cons p p' rest rest' hp _ ih =>
      obtain ⟨heffect, hnext⟩ := h.record hp
      -- Both runs stop at this step, or both go on.
      rcases hr : t.record p.1 p.2 with ⟨fault | effect, m⟩ <;>
        rcases hr' : t'.record p'.1 p'.2 with ⟨fault' | effect', m'⟩ <;>
          rw [hr, hr'] at heffect hnext <;> cases heffect
      · rw [recordAll_cons_error hr, recordAll_cons_error hr']
        exact ⟨rfl, hnext⟩
      · obtain ⟨heffects, hlast⟩ := ih hnext
        rw [recordAll_cons_ok hr, recordAll_cons_ok hr', heffects]
        exact ⟨rfl, hlast⟩

/-- Over every run, tallies do not tell a segment that starts off the plane from its image:
the flux is the same up to the sign of zero, it goes to the same waveband unless the segment
cannot be counted, and everything else is the same. -/
theorem recordAll_mirror :
    (∀ s : Segment, s.position.z < 0 ∨ s.position.z > 0 →
      (s.flux .cylindrical).Alike (s.mirror.flux .cylindrical) ∧
      ∀ t : Tally, (t.record .cylindrical s.mirror).1 = (t.record .cylindrical s).1 ∧
        (t.record .cylindrical s).2.Alike (t.record .cylindrical s.mirror).2 ∧
        ∀ s' ∈ [s, s.mirror], ∀ w, (t.record .cylindrical s').2.flux.get w =
          if w = Waveband.classify s.freq ∧ t.segments + 1 < Count.range64 then
            (t.flux.get w).add (s'.flux .cylindrical)
          else t.flux.get w) ∧
    ∀ (t : Tally) (steps steps' : List (CoordSystem × Segment)),
      List.Forall₂ Mirrors steps steps' →
        (t.recordAll steps').1 = (t.recordAll steps).1 ∧
        (t.recordAll steps).2.Alike (t.recordAll steps').2 := by
  refine ⟨fun s hs => ⟨Segment.alike_flux_mirror hs, fun t => ?_⟩, fun t steps steps' h =>
    (Alike.refl t).recordAll h⟩
  obtain ⟨heffect, halike⟩ := (Alike.refl t).record (.image hs)
  refine ⟨heffect, halike, ?_⟩
  intro s' hs' w
  have hfreq : s'.freq = s.freq := by
    obtain rfl | rfl : s' = s ∨ s' = s.mirror := by simpa using hs'
    · rfl
    · rfl
  rw [flux_record, hfreq]
  by_cases hroom : t.segments + 1 < Count.range64
  · rw [if_pos hroom, FluxTallies.get_add]
    simp only [hroom, and_true]
  · rw [if_neg hroom, if_neg fun h => hroom h.2]

end

/-- A segment that starts below the plane and has its midpoint above. -/
def rising : Segment := { segmentOf 5e15 0 .star with
  position := ⟨3, 0, -1⟩, direction := ⟨0, 3, 4⟩, length := 10 }

/-- A segment without a direction, whose flux along the axis is the one zero or the other. -/
def still : Segment := { segmentOf 5e14 1 .disk with position := ⟨1, 2, 3⟩, direction := .zero }

theorem recordAll_mirror_rising :
    rising.position.z < 0 ∧ 0 < rising.midpoint.z ∧
    (rising.flux .cylindrical).Alike (rising.mirror.flux .cylindrical) ∧
    (rising.flux .cylindrical).z < 0 ∧ (rising.mirror.flux .cylindrical).z < 0 ∧
    (still.flux .cylindrical).Alike (still.mirror.flux .cylindrical) ∧
    (still.flux .cylindrical).z ≠ (still.mirror.flux .cylindrical).z ∧
    ((blank 0 0).recordAll [(.cylindrical, rising), (.cylindrical, still)]).2.Alike
      ((blank 0 0).recordAll [(.cylindrical, rising.mirror), (.cylindrical, still)]).2 := by
  have hrising : rising.position.z < 0 := by decide +kernel
  have hstill : still.position.z > 0 := by decide +kernel
  have hsteps : List.Forall₂ Mirrors [(.cylindrical, rising), (.cylindrical, still)]
      [(.cylindrical, rising.mirror), (.cylindrical, still)] :=
    .cons (.image (.inl hrising)) (.cons (.same _) .nil)
  exact ⟨hrising, by decide +kernel, (recordAll_mirror.1 rising (.inl hrising)).1,
    by decide +kernel, by decide +kernel, (recordAll_mirror.1 still (.inr hstill)).1,
    by decide +kernel, (recordAll_mirror.2 (blank 0 0) _ _ hsteps).2⟩

end Tally

end StellarWind
