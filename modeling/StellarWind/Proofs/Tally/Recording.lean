import StellarWind.Proofs.Tally.Routing

/-!
# Recording runs

A segment is recorded in steps, and a step that cannot raise its count stops the recording
with an overflow. `Recording.Does` relates a step to the change that it makes when there is
room: it makes this change if all counts are in range afterwards, and overflows otherwise.
Counts never fall, so a step that does one change and a step that does another do both in turn
(`Does.bind`), and the steps of a segment together do `Tally.routed` (`does_segment`).

So recording a run gives the tally of the run exactly if its counts are in range, and an
overflow otherwise (`recordAll_routes`). This holds whatever way two doubles are added.
-/

namespace StellarWind

/-! ## What stays

Also a recording that fails on its way has changed the tally by then. What it has not changed is
kept track of step by step.
-/

/-- Nothing that describes the cell has changed, and no band that is not in use. -/
structure Tally.Keeps (t t' : Tally) : Prop where
  index : t'.index = t.index
  cell : t'.cell = t.cell
  bands : t'.bands = t.bands
  unused : ∀ i : Fin bandLimit, t.bands.count ≤ i.val → t'.bandTallies.get i = t.bandTallies.get i

theorem Tally.Keeps.refl (t : Tally) : t.Keeps t := ⟨rfl, rfl, rfl, fun _ _ => rfl⟩

theorem Tally.Keeps.trans {t t' t'' : Tally} (h : t.Keeps t') (h' : t'.Keeps t'') :
    t.Keeps t'' where
  index := h'.index.trans h.index
  cell := h'.cell.trans h.cell
  bands := h'.bands.trans h.bands
  unused := fun i hi => (h'.unused i (h.bands ▸ hi)).trans (h.unused i hi)

/-! ## Parts that are counted

Three parts of a tally count with a check. The origins do it twice, first in all and then for the
one origin, and either may be out of range.
-/

theorem countUp_ok {n : Nat} (h : n + 1 < Count.range64) : countUp n = (.ok (), n + 1) := by
  rw [countUp, checked_ok h]

theorem countUp_overflow {n : Nat} (h : ¬ n + 1 < Count.range64) :
    countUp n = (.error .overflow, n) := by
  rw [countUp, checked_overflow (Nat.le_of_not_lt h)]

theorem BandTally.add_ok [Elementary] [Addition] {b : BandTally} (s : Segment)
    (h : b.count + 1 < Count.range64) : b.add s = (.ok (), b.after [s]) := by
  rw [add, countUp_ok h]
  rfl

theorem BandTally.add_overflow [Elementary] [Addition] {b : BandTally} (s : Segment)
    (h : ¬ b.count + 1 < Count.range64) : (b.add s).1 = .error .overflow := by
  rw [add, countUp_overflow h]

theorem OriginCounts.record_ok {c : OriginCounts} {o : Origin}
    (htotal : c.total + 1 < Count.range64) (h : c.get o + 1 < Count.range64) :
    c.record o = (.ok (), c.more o) := by
  rw [record, countUp_ok htotal, countUp_ok h]
  rfl

theorem OriginCounts.record_overflow {c : OriginCounts} {o : Origin}
    (h : ¬ (c.total + 1 < Count.range64 ∧ c.get o + 1 < Count.range64)) :
    (c.record o).1 = .error .overflow := by
  by_cases htotal : c.total + 1 < Count.range64
  · have horigin : ¬ c.get o + 1 < Count.range64 := fun horigin => h ⟨htotal, horigin⟩
    rw [record, countUp_ok htotal, countUp_overflow horigin]
  · rw [record, countUp_overflow htotal]

namespace Recording

open Tally (Keeps)

/-! ## Steps

The steps of a recording are put together as the recording is. Most change sums only, and those that
count change one part and ask for room in it.
-/

/-- Started on `t`, the step changes it to `t'` if the counts of `t'` are in range, and
overflows if they are not. Whatever comes of it, nothing changes that describes the cell. -/
structure Does (r : Recording Unit) (t t' : Tally) : Prop where
  ends : t.Keeps (r.on t).2
  grows : t'.InRange → t.InRange
  ok : t.InRange → t'.InRange → r.on t = (.ok (), t')
  overflow : t.InRange → ¬ t'.InRange → (r.on t).1 = .error .overflow

theorem does_pure (t : Tally) : Does (pure ()) t t where
  ends := .refl t
  grows := id
  ok := fun _ _ => rfl
  overflow := fun h h' => absurd h h'

/-- The first step to leave the range stops the recording, and a later one does not bring the
counts back. -/
theorem Does.bind {r : Recording Unit} {r' : Unit → Recording Unit} {t u : Tally}
    {f : Tally → Tally} (h : Does r t u) (h' : ∀ m, Does (r' ()) m (f m)) :
    Does (r >>= r') t (f u) := by
  have hstop {m : Tally} {fault : Fault} (hrun : r.on t = (.error fault, m)) :
      (r >>= r').on t = (.error fault, m) := run_bind_error hrun
  have hgo {m : Tally} (hrun : r.on t = (.ok (), m)) : (r >>= r').on t = (r' ()).on m :=
    run_bind_ok hrun
  -- The first step stops, or the second one goes on from what the first has left.
  constructor
  case ends =>
    have hends := h.ends
    rcases hrun : r.on t with ⟨fault | _, m⟩ <;> rw [hrun] at hends
    · rwa [hstop hrun]
    · rw [hgo hrun]
      exact hends.trans (h' m).ends
  case grows => exact fun hrange => h.grows ((h' u).grows hrange)
  case ok =>
    intro ht hf
    have hu := (h' u).grows hf
    rw [hgo (h.ok ht hu), (h' u).ok hu hf]
  case overflow =>
    intro ht hf
    by_cases hu : u.InRange
    · rw [hgo (h.ok ht hu), (h' u).overflow hu hf]
    · have hfault := h.overflow ht hu
      rcases hrun : r.on t with ⟨fault | _, m⟩ <;> rw [hrun] at hfault <;> cases hfault
      rw [hstop hrun]

theorem Does.congr {r : Recording Unit} {t u u' : Tally} (h : Does r t u) (heq : u = u') :
    Does r t u' := heq ▸ h

theorem Does.forM {α : Type} {xs : List α} {r : α → Recording Unit} {f : Tally → α → Tally}
    (h : ∀ t x, Does (r x) t (f t x)) (t : Tally) : Does (xs.forM r) t (xs.foldl f t) := by
  induction xs generalizing t with
  | nil => exact does_pure t
  | cons x xs ih =>
      refine Does.bind (f := fun m => xs.foldl f m) (h t x) ?_
      exact ih

/-- A step that looks at the tally first. -/
theorem does_get {r : Tally → Recording Unit} {t t' : Tally} (h : Does (r t) t t') :
    Does (get >>= r) t t' :=
  ⟨h.ends, h.grows, h.ok, h.overflow⟩

/-- A change of sums only. -/
theorem does_modify {f : Tally → Tally} {t : Tally} (hkeeps : t.Keeps (f t))
    (hcounts : (f t).InRange ↔ t.InRange) : Does (modify f) t (f t) where
  ends := hkeeps
  grows := hcounts.mp
  ok := fun _ _ => rfl
  overflow := fun h h' => absurd (hcounts.mpr h) h'

/-- A change of a part that is counted. -/
theorem does_within {α : Type} {get : Tally → α} {set : Tally → α → Tally}
    {f : α → Except Fault Unit × α} {t : Tally} {next : α}
    (hkeeps : ∀ part, t.Keeps (set t part))
    (hgrows : (set t next).InRange → t.InRange)
    (hok : (set t next).InRange → f (get t) = (.ok (), next))
    (hoverflow : t.InRange → ¬ (set t next).InRange → (f (get t)).1 = .error .overflow) :
    Does (within get set f) t (set t next) where
  ends := hkeeps (f (get t)).2
  grows := hgrows
  ok := fun _ h => by
    show ((f (get t)).1, set t (f (get t)).2) = _
    rw [hok h]
  overflow := hoverflow

/-! ## The steps of a segment

Each step is given with the part of `Tally.routed` that it accounts for, taken over the one
segment.
-/

section

variable [Elementary] [Addition] (t : Tally) (s : Segment)

theorem addPath_eq : t.addPath s = { t with
    intensity := addUp (fun s => .store s.weighted) t.intensity [s]
    directIntensity :=
      addUp (fun s => .store s.weighted) t.directIntensity ([s].filter (·.scatters = 0))
    scatteredIntensity :=
      addUp (fun s => .store s.weighted) t.scatteredIntensity ([s].filter (·.scatters ≠ 0))
    pathLength := addUp (fun s => .ofFloat s.length) t.pathLength [s] } := by
  by_cases h : s.scatters = 0 <;> simp [Tally.addPath, Segment.direct, addUp, h]

theorem addIonization_eq : t.addIonization s = { t with
    ionizing := addUp (fun s => .store s.photons) t.ionizing (ionizers [s])
    directIonizing := addUp (fun s => .store s.photons) t.directIonizing
      ((ionizers [s]).filter (·.scatters = 0))
    scatteredIonizing := addUp (fun s => .store s.photons) t.scatteredIonizing
      ((ionizers [s]).filter (·.scatters ≠ 0))
    ionization := addUp (fun s => .store s.weighted) t.ionization
      ((ionizers [s]).filter (photonEnergy ·.freq < ionizationCeiling)) } := by
  by_cases hion : ionizes s.freq = true
  · have hionizers : ionizers [s] = [s] := by simp [ionizers, hion]
    rw [Tally.addIonization, if_pos hion, hionizers]
    by_cases h : s.scatters = 0 <;>
      by_cases hceil : photonEnergy s.freq < ionizationCeiling <;>
        simp [Segment.direct, Segment.photons, addUp, h, hceil]
  · have hionizers : ionizers [s] = [] := by simp [ionizers, hion]
    rw [Tally.addIonization, if_neg hion, hionizers]
    rfl

theorem addFlux_eq (system : CoordSystem) : t.addFlux system s = { t with
    freqSum := addUp (fun s => .store (s.freq * s.weighted)) t.freqSum [s]
    flux := t.flux.after [(system, s)] } := by
  rw [Tally.addFlux, FluxTallies.after_singleton]
  rfl

theorem does_addPath : Does (modify (·.addPath s)) t (t.addPath s) :=
  does_modify ⟨rfl, rfl, rfl, fun _ _ => rfl⟩
    ⟨fun h => { h with }, fun h => { h with }⟩

theorem does_addFlux (system : CoordSystem) :
    Does (modify (·.addFlux system s)) t (t.addFlux system s) :=
  does_modify ⟨rfl, rfl, rfl, fun _ _ => rfl⟩ ⟨fun h => { h with }, fun h => { h with }⟩

theorem does_addIonization : Does (modify (·.addIonization s)) t (t.addIonization s) := by
  apply does_modify
  · rw [addIonization_eq]
    exact ⟨rfl, rfl, rfl, fun _ _ => rfl⟩
  · rw [addIonization_eq]
    exact ⟨fun h => { h with }, fun h => { h with }⟩

/-! ### Steps that count

A step that counts does so if there is room. Packets are counted at their openings, and all other
segments of a packet leave the counts as they are.
-/

omit [Elementary] [Addition] in
theorem does_countSegment : Does countSegment t { t with segments := t.segments + 1 } := by
  apply does_within
  · exact fun _ => ⟨rfl, rfl, rfl, fun _ _ => rfl⟩
  · exact fun h => { h with segments := Nat.lt_of_succ_lt h.segments }
  · exact fun h => countUp_ok h.segments
  · exact fun ht h =>
      congrArg Prod.fst (countUp_overflow fun hlt => h { ht with segments := hlt })

omit [Elementary] [Addition] in
theorem does_checkBands : Does checkBands t t where
  ends := by
    show t.Keeps ((if bandLimit < t.bands.count then throw .outOfBounds else pure () :
      Recording Unit).on t).2
    split <;> exact .refl t
  grows := id
  ok := fun h _ => by
    show (if bandLimit < t.bands.count then throw .outOfBounds else pure () : Recording Unit).on t
      = _
    rw [if_neg (Nat.not_lt.mpr h.fits)]
    rfl
  overflow := fun h h' => absurd h h'

omit [Elementary] [Addition] in
theorem does_countPacket : Does (countPacket s) t { t with
    origins := t.origins.after (openings t.last [s])
    last := lastOf t.last [s] } := by
  apply does_get
  rw [openings_cons]
  by_cases hlast : t.last = some s.id
  · rw [if_neg (not_not.mpr hlast), if_pos hlast]
    show Does _ t { t with last := some s.id }
    rw [← hlast]
    exact does_pure t
  · -- A packet that is new is counted, and then it is the last one.
    rw [if_pos hlast, if_neg hlast]
    refine Does.bind (u := { t with origins := t.origins.more s.origin })
      (f := fun t => { t with last := some s.id }) ?_ fun m => ?_
    · apply does_within
      · exact fun _ => ⟨rfl, rfl, rfl, fun _ _ => rfl⟩
      · intro h
        refine { h with total := ?_, origin := fun o => ?_ }
        · have := h.total
          rw [OriginCounts.total_more] at this
          omega
        · have := h.origin o
          rw [OriginCounts.get_more] at this
          omega
      · intro h
        have htotal := h.total
        have horigin := h.origin s.origin
        rw [OriginCounts.total_more] at htotal
        rw [OriginCounts.get_more, if_pos rfl] at horigin
        exact OriginCounts.record_ok htotal horigin
      · intro ht h
        apply OriginCounts.record_overflow
        rintro ⟨htotal, horigin⟩
        refine h { ht with total := ?_, origin := fun o => ?_ }
        · rwa [OriginCounts.total_more]
        · have := ht.origin o
          rw [OriginCounts.get_more]
          split
          · subst o
            exact horigin
          · exact this
    · exact does_modify ⟨rfl, rfl, rfl, fun _ _ => rfl⟩ ⟨fun h => { h with }, fun h => { h with }⟩

omit [Elementary] [Addition] in
theorem does_countIonizing : Does (countIonizing s) t { t with
    ionizingPackets := t.ionizingPackets + (openings t.lastIonizing (ionizers [s])).length
    lastIonizing := lastOf t.lastIonizing (ionizers [s]) } := by
  apply does_get
  by_cases hion : ionizes s.freq = true
  · -- As for all packets, in the run of the ionizing segments.
    have hionizers : ionizers [s] = [s] := by simp [ionizers, hion]
    rw [hionizers, openings_cons]
    by_cases hlast : t.lastIonizing = some s.id
    · rw [if_neg (by simp [hlast]), if_pos hlast]
      show Does _ t { t with lastIonizing := some s.id }
      rw [← hlast]
      exact does_pure t
    · rw [if_pos (by simp [hion, hlast]), if_neg hlast]
      refine Does.bind (u := { t with ionizingPackets := t.ionizingPackets + 1 })
        (f := fun t => { t with lastIonizing := some s.id }) ?_ fun m => ?_
      · apply does_within
        · exact fun _ => ⟨rfl, rfl, rfl, fun _ _ => rfl⟩
        · exact fun h => { h with ionizing := Nat.lt_of_succ_lt h.ionizing }
        · exact fun h => countUp_ok h.ionizing
        · exact fun ht h =>
            congrArg Prod.fst (countUp_overflow fun hlt => h { ht with ionizing := hlt })
      · exact does_modify ⟨rfl, rfl, rfl, fun _ _ => rfl⟩
          ⟨fun h => { h with }, fun h => { h with }⟩
  · have hionizers : ionizers [s] = [] := by simp [ionizers, hion]
    rw [hionizers, if_neg (by simp [hion])]
    exact does_pure t

/-! ## The bands of a segment

All slots are tried one after the other, and the slots that take the segment are filled. No slot is
filled twice, so that the order of the slots does not matter and all of them can be given at once.
-/

/-- The tally with a segment added to the band of one slot, if it belongs to it. -/
def fill (s : Segment) (t : Tally) (i : Fin bandLimit) : Tally :=
  { t with bandTallies :=
      t.bandTallies.set i ((t.bandTallies.get i).after ([s].filter (t.bands.takes i))) i.isLt }

omit [Elementary] [Addition] in
theorem get_set {α : Type} {n : Nat} (v : Vector α n) (i j : Fin n) (a : α) :
    (v.set i a).get j = if i = j then a else v.get j := by
  show (v.set i a)[j.val] = if i = j then a else v[j.val]
  rw [Vector.getElem_set]
  simp only [Fin.ext_iff]

theorem does_addBand (i : Fin bandLimit) : Does (addBand s i) t (fill s t i) := by
  apply does_get
  rw [t.bands.holds_eq_takes]
  by_cases htakes : t.bands.takes i s = true
  · have hfilter : [s].filter (t.bands.takes i) = [s] := List.filter_cons_of_pos htakes
    have huse : i.val < t.bands.count := by
      simp only [BandTable.takes, Bool.and_eq_true, decide_eq_true_eq] at htakes
      exact htakes.1
    -- The slot is in use, so that filling it keeps the slots that are not.
    rw [if_pos htakes, fill, hfilter]
    apply does_within
    · intro b
      refine ⟨rfl, rfl, rfl, fun j hj => ?_⟩
      rw [get_set, if_neg]
      rintro rfl
      exact absurd hj (Nat.not_le.mpr huse)
    · intro h
      refine { h with slots := fun j => ?_ }
      have hj := h.slots j
      rw [get_set] at hj
      split at hj
      · subst j
        exact Nat.lt_of_succ_lt hj
      · exact hj
    · intro h
      have hi := h.slots i
      rw [get_set, if_pos rfl] at hi
      exact BandTally.add_ok s hi
    · intro ht h
      refine BandTally.add_overflow s fun hlt => h { ht with slots := fun j => ?_ }
      rw [get_set]
      split
      · exact hlt
      · exact ht.slots j
  · have hfilter : [s].filter (t.bands.takes i) = [] := List.filter_cons_of_neg htakes
    -- A slot that takes nothing is filled with what it holds.
    have hsame : fill s t i = t := by
      have hset : t.bandTallies.set i (t.bandTallies.get i) = t.bandTallies :=
        Vector.set_getElem_self _
      rw [fill, hfilter]
      show { t with bandTallies := t.bandTallies.set i (t.bandTallies.get i) } = t
      rw [hset]
    rw [if_neg htakes, hsame]
    exact does_pure t

/-- The slots are filled one after the other, each once. -/
theorem foldl_fill {slots : List (Fin bandLimit)} (h : slots.Nodup) :
    ∃ bandTallies, slots.foldl (fill s) t = { t with bandTallies } ∧
      (∀ i ∈ slots, bandTallies.get i =
        (t.bandTallies.get i).after ([s].filter (t.bands.takes i))) ∧
      ∀ i ∉ slots, bandTallies.get i = t.bandTallies.get i := by
  induction slots generalizing t with
  | nil => exact ⟨t.bandTallies, rfl, fun i hi => absurd hi List.not_mem_nil, fun _ _ => rfl⟩
  | cons i slots ih =>
      rw [List.nodup_cons] at h
      obtain ⟨bandTallies, hfold, hin, hout⟩ := ih (fill s t i) h.2
      refine ⟨bandTallies, hfold, fun j hj => ?_, fun j hj => ?_⟩
      · obtain rfl | hj := List.mem_cons.mp hj
        · -- No later slot is this one, so that it stays as it was filled.
          rw [hout j h.1, fill, get_set, if_pos rfl]
        · have hne : i ≠ j := fun heq => h.1 (heq ▸ hj)
          rw [hin j hj, fill, get_set, if_neg hne]
      · rw [List.mem_cons, not_or] at hj
        rw [hout j hj.2, fill, get_set, if_neg (Ne.symm hj.1)]

theorem does_addBands : Does ((List.finRange bandLimit).forM (addBand s)) t { t with
    bandTallies := Vector.ofFn fun i =>
      (t.bandTallies.get i).after ([s].filter (t.bands.takes i)) } := by
  have hdoes : Does ((List.finRange bandLimit).forM (addBand s)) t _ :=
    Does.forM (fun t i => does_addBand t s i) t
  obtain ⟨bandTallies, hfold, hfilled, -⟩ := foldl_fill t s (List.nodup_finRange bandLimit)
  have hall : bandTallies = Vector.ofFn fun i =>
      (t.bandTallies.get i).after ([s].filter (t.bands.takes i)) := by
    apply Vector.ext
    intro i hi
    rw [Vector.getElem_ofFn]
    exact hfilled ⟨i, hi⟩ (List.mem_finRange _)
  rwa [hfold, hall] at hdoes

/-- All steps together route the segment. -/
theorem does_segment (system : CoordSystem) :
    Does (segment system s) t (t.routed [(system, s)]) := by
  apply Does.congr
  · exact (does_addPath t s).bind fun m => (does_countSegment m).bind fun m =>
      (does_addFlux m s system).bind fun m => (does_addBands m s).bind fun m =>
      (does_checkBands m).bind fun m => (does_countPacket m s).bind fun m =>
      (does_countIonizing m s).bind fun m => does_addIonization m s
  · -- From the first sums to the last, so that every record is made of fields of `t`.
    simp only [addPath_eq, addFlux_eq, addIonization_eq, Tally.routed, List.map_cons, List.map_nil,
      List.length_singleton]

end

end Recording

namespace Tally

/-! ## Whole runs

A run is recorded segment by segment and stops at the first overflow. Counts that are in range at
the end were in range at every step, so that it is enough to look at the end.
-/

section

variable [Elementary] [Addition] {t : Tally}

/-- Record segments one after the other, each in the frame of its own system. -/
def recordAll : Tally → List (CoordSystem × Segment) → Except Fault (List Effect) × Tally
  | t, [] => (.ok [], t)
  | t, (system, s) :: rest =>
    match t.record system s with
    | (.error fault, t') => (.error fault, t')
    | (.ok effect, t') =>
      match recordAll t' rest with
      | (.error fault, t'') => (.error fault, t'')
      | (.ok effects, t'') => (.ok (effect :: effects), t'')

theorem record_ok (h : t.InRange) {p : CoordSystem × Segment} (h' : (t.routed [p]).InRange) :
    t.record p.1 p.2 = (.ok (t.effect p.2), t.routed [p]) := by
  rw [record, (Recording.does_segment t p.2 p.1).ok h h']
  rfl

theorem record_overflow (h : t.InRange) {p : CoordSystem × Segment}
    (h' : ¬ (t.routed [p]).InRange) : (t.record p.1 p.2).1 = .error .overflow := by
  have hfault := (Recording.does_segment t p.2 p.1).overflow h h'
  rw [record]
  dsimp only
  rw [hfault]
  rfl

theorem keeps_record (t : Tally) (p : CoordSystem × Segment) : t.Keeps (t.record p.1 p.2).2 :=
  (Recording.does_segment t p.2 p.1).ends

theorem recordAll_cons_ok {p : CoordSystem × Segment} {rest : List (CoordSystem × Segment)}
    {effect : Effect} {m : Tally} (h : t.record p.1 p.2 = (.ok effect, m)) :
    t.recordAll (p :: rest) =
      ((m.recordAll rest).1.map (effect :: ·), (m.recordAll rest).2) := by
  rw [recordAll, h]
  dsimp only
  rcases m.recordAll rest with ⟨fault | effects, last⟩ <;> rfl

theorem recordAll_cons_error {p : CoordSystem × Segment} {rest : List (CoordSystem × Segment)}
    {fault : Fault} {m : Tally} (h : t.record p.1 p.2 = (.error fault, m)) :
    t.recordAll (p :: rest) = (.error fault, m) := by
  rw [recordAll, h]

theorem routed_cons (t : Tally) (p : CoordSystem × Segment) (rest : List (CoordSystem × Segment)) :
    t.routed (p :: rest) = (t.routed [p]).routed rest :=
  t.routed_append [p] rest

theorem InRange.of_routed {steps : List (CoordSystem × Segment)} (h : (t.routed steps).InRange) :
    t.InRange := by
  induction steps generalizing t with
  | nil => rwa [routed_nil] at h
  | cons p rest ih =>
      rw [routed_cons] at h
      exact (Recording.does_segment t p.2 p.1).grows (ih h)

theorem keeps_recordAll (t : Tally) (steps : List (CoordSystem × Segment)) :
    t.Keeps (t.recordAll steps).2 := by
  induction steps generalizing t with
  | nil => exact .refl t
  | cons p rest ih =>
      have hkeeps := t.keeps_record p
      rcases hrun : t.record p.1 p.2 with ⟨fault | effect, m⟩ <;> rw [hrun] at hkeeps
      · rwa [recordAll_cons_error hrun]
      · rw [recordAll_cons_ok hrun]
        exact hkeeps.trans (ih m)

/-- A run whose counts stay in range gives the tally of the run. -/
theorem recordAll_ok (h : t.InRange) {steps : List (CoordSystem × Segment)}
    (h' : (t.routed steps).InRange) :
    t.recordAll steps = (.ok (t.effects steps), t.routed steps) := by
  induction steps generalizing t with
  | nil =>
      rw [routed_nil]
      rfl
  | cons p rest ih =>
      rw [routed_cons] at h' ⊢
      have hnext := InRange.of_routed h'
      rw [recordAll_cons_ok (record_ok h hnext), ih hnext h']
      rfl

/-- A run whose counts leave the range stops at the segment that brings them out of it. -/
theorem recordAll_overflow (h : t.InRange) {steps : List (CoordSystem × Segment)}
    (h' : ¬ (t.routed steps).InRange) : (t.recordAll steps).1 = .error .overflow := by
  induction steps generalizing t with
  | nil =>
      rw [routed_nil] at h'
      exact absurd h h'
  | cons p rest ih =>
      rw [routed_cons] at h'
      by_cases hnext : (t.routed [p]).InRange
      · rw [recordAll_cons_ok (record_ok h hnext), ih hnext h']
        rfl
      · have hfault := record_overflow h hnext
        rcases hrun : t.record p.1 p.2 with ⟨fault | effect, m⟩ <;> rw [hrun] at hfault <;>
          cases hfault
        rw [recordAll_cons_error hrun]

/-! ### What is reported

The band of a segment is looked up in the table, and the table is the same at every step.
-/

/-- What is reported of a segment: its waveband, and the first band that it belongs to. -/
structure Reports (table : BandTable) (s : Segment) (e : Effect) : Prop where
  waveband : e.waveband = Waveband.classify s.freq
  band : ∀ i, e.band = some i ↔ table.takes i s ∧ ∀ j < i, ¬ table.takes j s

theorem reports_effects (t : Tally) (steps : List (CoordSystem × Segment)) :
    List.Forall₂ (fun p => Reports t.bands p.2) steps (t.effects steps) := by
  induction steps generalizing t with
  | nil => exact .nil
  | cons p rest ih =>
      -- The bands stay, so that the rest of the run is reported by the same table.
      exact .cons ⟨rfl, t.bands.head?_matching p.2⟩ (ih (t.routed [p]))

/-- Over every run, whatever a tally holds before and whatever way doubles are added: if the
counts stay in range, each sum is taken in order over the segments that are routed to it, and
every segment is reported for its first band; if they do not, the run overflows. Either way
nothing changes that describes the cell, and no band that is not in use. -/
theorem recordAll_routes (h : t.InRange) (steps : List (CoordSystem × Segment)) :
    ((t.routed steps).InRange → ∃ effects, t.recordAll steps = (.ok effects, t.routed steps) ∧
      List.Forall₂ (fun p => Reports t.bands p.2) steps effects) ∧
    (¬ (t.routed steps).InRange → (t.recordAll steps).1 = .error .overflow) ∧
    t.Keeps (t.recordAll steps).2 := by
  refine ⟨fun hrange => ⟨_, recordAll_ok h hrange, t.reports_effects steps⟩,
    recordAll_overflow h, t.keeps_recordAll steps⟩

end

/-- A segment of the given frequency, packet and origin. -/
def segmentOf (freq : Float) (packet : Nat) (origin : Origin) : Segment :=
  ⟨freq, 1, 1, ⟨0, 0, 1⟩, ⟨1, 0, 0⟩, 0, ⟨0, packet⟩, origin⟩

/-- Two bands out of order that overlap. The third slot is not in use. -/
def overlappingBands : BandTable := .ofEdges 2 [(1e15, 1e17), (1e14, 1e16), (1e13, 1e18)]

/-- A segment in both bands and one in the second only. -/
def overlappingRun : List (CoordSystem × Segment) :=
  [(.spherical, segmentOf 5e15 0 .star), (.cylindrical, segmentOf 5e14 1 .disk)]

/-- A tally with overlapping bands that has counted the given number of segments. -/
def overlapping (segments : Nat) : Tally :=
  { blank 0 0 with bands := overlappingBands, segments }

/-- The run fills the bands of a fresh cell. A cell that has counted all but one of the
segments that a 64-bit number can count overflows at the second segment. -/
theorem recordAll_routes_overlapping :
    (∃ e e' t, (overlapping 0).recordAll overlappingRun = (.ok [e, e'], t) ∧
      e.band = some ⟨0, by decide⟩ ∧ e'.band = some ⟨1, by decide⟩ ∧
      (t.bandTallies.get ⟨0, by decide⟩).count = 1 ∧ (t.bandTallies.get ⟨1, by decide⟩).count = 2 ∧
      t.bandTallies.get ⟨2, by decide⟩ = .empty ∧
      t.intensity = Addition.plus (Addition.plus .zero (.store (1 * 1))) (.store (1 * 1))) ∧
    ((overlapping 18446744073709551614).recordAll overlappingRun).1 = .error .overflow := by
  have hstart (n : Nat) (hn : n < Count.range64) : (overlapping n).InRange :=
    { (below_blank 0 0 (show overlappingBands.count ≤ bandLimit by decide)).mono (by decide) with
      segments := hn }
  constructor
  · obtain ⟨hok, -, hkeeps⟩ := recordAll_routes (hstart 0 (by decide)) overlappingRun
    have hrange : ((overlapping 0).routed overlappingRun).InRange :=
      (inRange_routed_blank_iff 0 0 (by decide) _).mpr (by decide)
    obtain ⟨effects, hrun, hall⟩ := hok hrange
    rw [hrun] at hkeeps
    obtain _ | ⟨hfirst, hrest⟩ := hall
    obtain _ | ⟨hsecond, hnil⟩ := hrest
    cases hnil
    exact ⟨_, _, _, hrun, (hfirst.band ⟨0, by decide⟩).mpr (by decide +kernel),
      (hsecond.band ⟨1, by decide⟩).mpr (by decide +kernel), by decide +kernel, by decide +kernel,
      hkeeps.unused ⟨2, by decide⟩ (by decide), rfl⟩
  · obtain ⟨-, hoverflow, -⟩ :=
      recordAll_routes (hstart 18446744073709551614 (by decide)) overlappingRun
    exact hoverflow fun h => absurd h.segments (by decide)

end Tally

end StellarWind
