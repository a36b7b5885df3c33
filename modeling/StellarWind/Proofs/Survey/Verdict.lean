import StellarWind.Proofs.Settings.Document
import StellarWind.Proofs.Survey.Running

/-!
# The verdict of a survey

After a survey every worker has the cells of the grid that was defined in one piece,
pattern for pattern. The verdict compares values, and a value that is not a number
differs from itself. So the verdict is on the mesh and not on the workers. Main
statement: they all match when the mesh gives its cells numbers only, and otherwise all
diverge. There are checked meshes of the second kind (`boundless`).
-/

namespace StellarWind

/-! ## Cells against themselves

The verdict compares the cells of a worker with those of the whole grid, double by double. Since
they are the same, it compares each double with itself, and only what is not a number fails that.
-/

theorem Binary64.agrees_self (x : Binary64) : x.agrees x = !x.toFloat.isNaN := by
  show Float.Model.UnpackedFloat.beq _ _ = !Float.Model.UnpackedFloat.isNaN _
  generalize x.toFloat.toModel.unpack = u
  cases u with
  | infinity sign => cases sign <;> rfl
  | notANumber => rfl
  | zero sign => cases sign <;> rfl
  | finite sign mantissa exponent hpos =>
      have hsame : (compare exponent exponent).then (compare mantissa mantissa) = .eq := by
        rw [Std.compare_self, Std.compare_self]
        rfl
      cases sign with
      | negative => exact congrArg (fun o => some o.swap == some .eq) hsame
      | positive => exact congrArg (fun o => some o == some .eq) hsame

namespace Cell

/-- The doubles of a cell. -/
def doubles (c : Cell) : List Binary64 :=
  c.position.toList ++ c.centroid.toList ++
    [c.r, c.rCenter, c.theta, c.thetaCenter, c.dtheta, c.dr, c.cone.offset, c.cone.slope] ++
    c.velocity.toList ++ c.gradient.first.toList ++ c.gradient.second.toList ++
    c.gradient.third.toList ++
    [c.divergence, c.dvdsMean, c.dvdsMax, c.volume, c.gamma, c.gammaCenter, c.fudge]

/-- All doubles of the cell are numbers; they may be infinite. -/
def IsNumeric (c : Cell) : Prop := ∀ x ∈ c.doubles, x.toFloat.isNaN = false

instance (c : Cell) : Decidable c.IsNumeric := inferInstanceAs (Decidable (∀ x ∈ _, _ = _))

theorem agrees_self_iff (c : Cell) : c.agrees c = true ↔ c.IsNumeric := by
  simp [agrees, IsNumeric, doubles, Vec3.toList, Binary64.agrees_self, and_assoc]

theorem allAgree_self_iff (cells : List Cell) :
    allAgree cells cells = true ↔ ∀ c ∈ cells, c.IsNumeric := by
  rw [allAgree, beq_self_eq_true, Bool.true_and, List.zip, List.zipWith_self, List.all_map,
    List.all_eq_true]
  simp only [Function.comp_apply, agrees_self_iff]

end Cell

/-- The mesh gives its cells numbers only. -/
def Mesh.IsNumeric [Elementary] (m : Mesh) : Prop :=
  ∀ j < m.cellCount, (m.define j (.blank 0 j j)).IsNumeric

instance [Elementary] (m : Mesh) : Decidable m.IsNumeric :=
  inferInstanceAs (Decidable (∀ j < _, _))

namespace Survey

/-! ## One verdict for all workers

The whole grid has the cells that the mesh defines, each from its index alone. So the verdict on a
worker is a property of the mesh, and it is the same for all of them.
-/

section

variable [Elementary] {s : Settings} {spectrum : Spectrum} {table : BandTable} {site : Site}
  {visits : List Visit} {reports : List Exchange.Report} {after : List String}

/-- The whole grid of one mesh, cell by cell. -/
theorem Site.whole_of_build {m : Mesh} {workers : Nat} (hcheck : m.check = .ok ())
    (hn : m.cellCount < Count.range64) (h : Site.build [m] workers = .ok site) :
    site.whole.cells = (List.range m.cellCount).map fun j => m.define j (.blank 0 j j) := by
  obtain ⟨blank, hblank, h⟩ := bind_eq_ok_iff.mp h
  obtain ⟨whole, hwhole, h⟩ := bind_eq_ok_iff.mp h
  obtain ⟨plan, -, h⟩ := bind_eq_ok_iff.mp h
  obtain ⟨-, -, h⟩ := bind_eq_ok_iff.mp h
  cases h
  -- One mesh is one domain, which starts at the first cell.
  have hlay := Grid.layOut_cons hcheck hn (rfl : Grid.layOut 1 (0 + m.cellCount) [] = .ok ([], []))
  rw [onMesh, mapError_eq_ok_iff] at hblank
  have hlaid := (Grid.laid_of_build hblank).1
  rw [Grid.build, hlay] at hblank
  cases hblank
  rw [onMesh, mapError_eq_ok_iff, reported_eq_ok_iff, Grid.defineAll,
    Grid.define_eq hlaid (Nat.le_refl _)] at hwhole
  cases hwhole
  apply List.ext_getElem?
  intro j
  rw [Grid.getElem?_definedOn, List.append_nil, List.getElem?_map, List.getElem?_map]
  by_cases hj : j < m.cellCount
  · rw [List.getElem?_range hj]
    simp only [Option.map_some, Option.some_inj, Nat.zero_add]
    rw [if_pos (by simpa [CellRange.contains] using hj)]
    exact Grid.defineAt_of_mem hlaid.tiles List.mem_cons_self
      ((Domain.contains_range _ j).mpr ⟨Nat.zero_le j, by simpa using hj⟩) _
  · rw [List.getElem?_eq_none (by simpa using hj)]
    rfl

/-- Every worker has the whole grid, and whether it is said to match depends on the mesh. -/
theorem Completed.agrees (h : Completed s spectrum table site visits reports after)
    (hcheck : s.check = .ok ()) (hn : s.mesh.cellCount < Count.positive32) {v : Visit}
    (hv : v ∈ visits) :
    v.member.grid.cells = site.whole.cells ∧ v.agrees site = decide s.mesh.IsNumeric := by
  obtain ⟨i, hi⟩ := List.getElem?_of_mem hv
  have hcells := (h.done i v hi).cells
  have hlarge : Count.positive32 < Count.range64 := by decide
  have hwhole := Site.whole_of_build (parts_of_check hcheck).2.1 (by omega) h.built
  refine ⟨hcells, ?_⟩
  rw [Bool.eq_iff_iff, Visit.agrees, hcells, Cell.allAgree_self_iff, hwhole, List.forall_mem_map,
    decide_eq_true_iff]
  simp only [List.mem_range, Mesh.IsNumeric]

theorem Completed.linesOf_eq (h : Completed s spectrum table site visits reports after)
    (hcheck : s.check = .ok ()) (hn : s.mesh.cellCount < Count.positive32) :
    linesOf site visits reports =
      visits.zipWith (fun v r => workerLine v r (decide s.mesh.IsNumeric)) reports := by
  apply List.ext_getElem?
  intro i
  rw [linesOf, List.getElem?_zipWith, List.getElem?_zipWith]
  cases hv : visits[i]? with
  | none => rfl
  | some v =>
      have hagrees := (h.agrees hcheck hn (List.mem_of_getElem? hv)).2
      cases reports[i]? <;> simp [hagrees]

/-- There is at least one worker, so that the verdict on all is the verdict on each. -/
theorem Completed.all_agrees (h : Completed s spectrum table site visits reports after)
    (hcheck : s.check = .ok ()) (hn : s.mesh.cellCount < Count.positive32) :
    visits.all (·.agrees site) = decide s.mesh.IsNumeric := by
  have hpos : 0 < visits.length := h.staffed ▸ (parts_of_check hcheck).1
  rw [Bool.eq_iff_iff, List.all_eq_true]
  constructor
  · intro hagree
    have hfirst := hagree _ (List.getElem_mem hpos)
    rwa [(h.agrees hcheck hn (List.getElem_mem hpos)).2] at hfirst
  · intro hnumeric v hv
    rw [(h.agrees hcheck hn hv).2, hnumeric]

theorem Completed.run_eq (h : Completed s spectrum table site visits reports after)
    (hcheck : s.check = .ok ()) (hn : s.mesh.cellCount < Count.positive32) :
    ∃ before after, run s =
      (before ++ visits.zipWith (fun v r => workerLine v r (decide s.mesh.IsNumeric)) reports ++
        after, if s.mesh.IsNumeric then .ok () else .error (.error .diverged)) := by
  have hsaid := h.said
  rw [h.linesOf_eq hcheck hn, h.all_agrees hcheck hn] at hsaid
  simp only [decide_eq_true_eq] at hsaid
  exact ⟨_, _, hsaid⟩

/-- However many workers a survey has, each ends with the cells of the whole grid. Each is
said to match, and the survey succeeds, exactly when the mesh gives its cells numbers only. -/
theorem run_verdict (hcheck : s.check = .ok ()) (hn : s.mesh.cellCount < Count.positive32)
    (hfault : ∀ fault, (run s).2 ≠ .error (.fault fault)) :
    ∃ spectrum site visits reports, s.spectrum = .ok spectrum ∧
      Site.build [s.mesh] s.workers = .ok site ∧ site.visits s spectrum = .ok visits ∧
      visits.length = s.workers ∧ visits.mapM (·.report) = .ok reports ∧
      (∀ v ∈ visits, v.member.grid.cells = site.whole.cells ∧
        (v.agrees site = true ↔ s.mesh.IsNumeric)) ∧
      ∃ before after, run s =
        (before ++ visits.zipWith (fun v r => workerLine v r (decide s.mesh.IsNumeric)) reports ++
          after, if s.mesh.IsNumeric then .ok () else .error (.error .diverged)) := by
  obtain ⟨spectrum, table, site, visits, reports, after, h⟩ := exists_completed hcheck hn hfault
  refine ⟨spectrum, site, visits, reports, h.described, h.built, h.visited, h.staffed,
    h.reported, fun v hv => ?_, h.run_eq hcheck hn⟩
  obtain ⟨hcells, hagrees⟩ := h.agrees hcheck hn hv
  exact ⟨hcells, by rw [hagrees, decide_eq_true_iff]⟩

end

theorem run_verdict_idleThird :
    letI : Elementary := charted
    idleThird.check = .ok () ∧ idleThird.mesh.cellCount = 2 ∧
      idleThird.mesh.IsNumeric ∧ (run idleThird).2 = .ok () := by
  let _ : Elementary := charted
  have hcheck : idleThird.check = .ok () := eq_ok_of_isOk (by decide +kernel)
  have hn : idleThird.mesh.cellCount < Count.positive32 := by decide
  have hnumeric : idleThird.mesh.IsNumeric := by decide +kernel
  obtain ⟨_, _, _, _, -, -, -, -, -, -, _, _, hrun⟩ :=
    run_verdict hcheck hn
      (run_ne_fault hcheck hn (by decide) (by decide) (.inr (by decide +kernel)))
  exact ⟨hcheck, rfl, hnumeric, by rw [hrun, if_pos hnumeric]⟩

/-- Two workers on two rings, so wide that the squares of the radii are infinite. The volume
of a ring has their difference, which is not a number. -/
def boundless : Settings where
  workers := 2
  mesh := { Mesh.default with columns := 2, rows := 1, rMin := 1e190, rMax := 1e200, speed := 0 }
  recipe := .edges [1e14, 1e18] 0
  photonsPerCell := 0
  seed := 42
  freqMin := 1e14
  freqMax := 1e18

/-- Finite settings can pass the check and end in workers that diverge. -/
theorem run_boundless : boundless.check = .ok () ∧ boundless.mesh.cellCount = 2 ∧
    (∀ x ∈ boundless.floats, x.isFinite = true) ∧
    (run boundless).2 = .error (.error .diverged) := by
  have hcheck : boundless.check = .ok () := eq_ok_of_isOk (by decide +kernel)
  have hn : boundless.mesh.cellCount < Count.positive32 := by decide
  have hnumeric : ¬ boundless.mesh.IsNumeric := by
    intro h
    have hvolume := h 1 (by decide) (boundless.mesh.define 1 (.blank 0 1 1)).volume
      (by simp [Cell.doubles])
    exact absurd hvolume (by decide +kernel)
  obtain ⟨_, _, _, _, _, _, h⟩ :=
    exists_completed hcheck hn (run_ne_fault hcheck hn (by decide) (by decide) (.inl rfl))
  obtain ⟨_, _, hrun⟩ := h.run_eq hcheck hn
  exact ⟨hcheck, rfl, by decide +kernel, by rw [hrun, if_neg hnumeric]⟩

end Survey

end StellarWind
