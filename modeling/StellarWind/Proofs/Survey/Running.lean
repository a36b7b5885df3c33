import Mathlib.Algebra.Order.BigOperators.Group.List
import Mathlib.Algebra.Order.Ring.Nat
import StellarWind.Proofs.Number.Chart
import StellarWind.Proofs.Survey.Visits
import StellarWind.Survey.Report

/-!
# The run of a survey

A survey of checked settings either ends in a fault or goes through to its report
(`exists_completed`). Then all that it says follows from what the workers brought
back. Main statement: the tallies that are reported on are those of all cells, each
with the segments that were asked for, whatever the number of workers.
-/

namespace StellarWind

namespace Survey

/-! ## Writing a report

A report is written line by line and ends early if something fails. The lemmas say what a step does
to the lines so far, for each kind of step that a report has.
-/

namespace Writing

variable {α β ε : Type}

/-- The end of a report that is written behind some lines. -/
def on (w : Writing α) (lines : List String) : Except (Abort Failure) α × List String :=
  w.run.run lines

theorem on_bind (w : Writing α) (f : α → Writing β) (lines : List String) :
    on (w >>= f) lines = match on w lines with
      | (.ok a, mid) => on (f a) mid
      | (.error e, mid) => (.error e, mid) := by
  rcases h : on w lines with ⟨e | a, mid⟩
  · exact run_bind_error h
  · exact run_bind_ok h

theorem on_say_bind (line : String) (w : Writing β) (lines : List String) :
    on (say line >>= fun _ => w) lines = on w (lines ++ [line]) := rfl

theorem on_expect_ok_bind (f : ε → Failure) {r : Except (Abort ε) α} {a : α} (hr : r = .ok a)
    (w : α → Writing β) (lines : List String) :
    on (expect f r >>= w) lines = on (w a) lines := by
  rw [hr]
  rfl

theorem on_expect_error_bind (f : ε → Failure) {r : Except (Abort ε) α} {e : Abort ε}
    (hr : r = .error e) (w : α → Writing β) (lines : List String) :
    on (expect f r >>= w) lines = (.error (e.map f), lines) := by
  rw [hr]
  rfl

theorem on_forM_say_bind (said : List String) (w : Writing β) (lines : List String) :
    on (said.forM say >>= fun _ => w) lines = on w (lines ++ said) := by
  induction said generalizing lines with
  | nil =>
      rw [List.append_nil]
      rfl
  | cons line said ih =>
      show on ((say line >>= fun _ => said.forM say) >>= fun _ => w) lines = _
      rw [bind_assoc, on_say_bind, ih, List.append_assoc]
      rfl

end Writing

open Writing (on)

/-- The lines on workers whose exchanges have the given reports. -/
def linesOf (site : Site) (visits : List Visit) (reports : List Exchange.Report) : List String :=
  visits.zipWith (fun v r => workerLine v r (v.agrees site)) reports

/-- When all workers have reports each has a line, and the lines say whether all agree. -/
theorem on_workerLines (site : Site) {visits : List Visit} {reports : List Exchange.Report}
    (h : visits.mapM (·.report) = .ok reports) (lines : List String) :
    on (workerLines site visits) lines =
      (.ok (visits.all (·.agrees site)), lines ++ linesOf site visits reports) := by
  induction visits generalizing reports lines with
  | nil =>
      rw [linesOf, List.zipWith_nil_left, List.append_nil]
      rfl
  | cons v visits ih =>
      rw [List.mapM_cons] at h
      obtain ⟨r, hr, h⟩ := bind_eq_ok_iff.mp h
      obtain ⟨rs, hrs, h⟩ := bind_eq_ok_iff.mp h
      cases h
      rw [workerLines, Writing.on_expect_ok_bind _ hr, Writing.on_say_bind, Writing.on_bind,
        ih hrs, List.append_assoc, List.all_cons, Bool.and_comm]
      rfl

/-! ## The summary

The summary adds up counts of all tallies, each with a check, and then shows the bands of the
brightest one. Nothing else in it can fail, and the bands of a tally can be shown if they fit into
its table.
-/

/-- Steps that keep the best so far or take the next item only choose among the items. -/
theorem mem_of_foldl {α : Type} {step : Option α → α → Option α}
    (hstep : ∀ best u t, step best u = some t → t = u ∨ best = some t) {ts : List α} {t : α}
    {best : Option α} (h : ts.foldl step best = some t) : t ∈ ts ∨ best = some t := by
  induction ts generalizing best with
  | nil => exact .inr h
  | cons u ts ih =>
      rcases ih h with hmem | hnext
      · exact .inl (List.mem_cons_of_mem u hmem)
      · rcases hstep best u t hnext with rfl | hbest
        · exact .inl List.mem_cons_self
        · exact .inr hbest

theorem mem_of_brightest? {tallies : List Tally} {t : Tally} (h : brightest? tallies = some t) :
    t ∈ tallies := by
  refine (mem_of_foldl ?_ h).resolve_right (by simp)
  intro best u t hnext
  cases best with
  | none => exact .inl (Option.some.inj hnext).symm
  | some b =>
      dsimp only at hnext
      split at hnext
      · exact .inr hnext
      · exact .inl (Option.some.inj hnext).symm

/-- The summary begins with the number of all segments. -/
theorem lines_of_summary {tallies : List Tally} {lines : List String}
    (h : summary tallies = .ok lines) :
    ∃ after, lines = ["", "=== Estimators ===",
      "Segments:          " ++ toString (tallies.map (·.segments)).sum] ++ after := by
  obtain ⟨segments, hsegments, h⟩ := bind_eq_ok_iff.mp h
  obtain ⟨packets, -, h⟩ := bind_eq_ok_iff.mp h
  obtain ⟨ionizing, -, h⟩ := bind_eq_ok_iff.mp h
  rw [count, checkedSum_eq] at hsegments
  obtain rfl := eq_of_checked hsegments
  dsimp only at h
  split at h
  · cases h
    exact ⟨_, rfl⟩
  · obtain ⟨bands, -, h⟩ := bind_eq_ok_iff.mp h
    cases h
    exact ⟨_, rfl⟩

theorem count_eq_ok {tallies : List Tally} {f : Tally → Nat} {limit : Nat}
    (h : ∀ t ∈ tallies, f t ≤ limit) (hroom : tallies.length * limit < Count.range64) :
    ∃ n, count tallies f = .ok n := by
  have hle : (tallies.map f).sum ≤ (tallies.map f).length • limit :=
    List.sum_le_card_nsmul _ limit (List.forall_mem_map.mpr h)
  rw [List.length_map, Nat.nsmul_eq_mul] at hle
  rw [count, checkedSum_eq]
  exact ⟨_, checked_ok (hle.trans_lt hroom)⟩

/-- There is a summary if no tally has counted too much. -/
theorem exists_summary {tallies : List Tally} {limit : Nat} (h : ∀ t ∈ tallies, t.Below (limit + 1))
    (hroom : tallies.length * limit < Count.range64) : ∃ lines, summary tallies = .ok lines := by
  obtain ⟨segments, hsegments⟩ :=
    count_eq_ok (f := (·.segments)) (fun t ht => Nat.le_of_lt_succ (h t ht).segments) hroom
  obtain ⟨packets, hpackets⟩ :=
    count_eq_ok (f := (·.origins.total)) (fun t ht => Nat.le_of_lt_succ (h t ht).total) hroom
  obtain ⟨ionizing, hionizing⟩ :=
    count_eq_ok (f := (·.ionizingPackets)) (fun t ht => Nat.le_of_lt_succ (h t ht).ionizing) hroom
  rw [summary, hsegments, ok_bind, hpackets, ok_bind, hionizing, ok_bind]
  dsimp only
  cases hbest : brightest? tallies with
  | none => exact ⟨_, rfl⟩
  | some t =>
      have hfits := (h t (mem_of_brightest? hbest)).fits
      have hactive : t.activeBands = .ok (t.bandTallies.toList.take t.bands.count) :=
        if_neg (Nat.not_lt.mpr hfits)
      dsimp only
      rw [bandLines, hactive]
      exact ⟨_, rfl⟩

/-! ## The whole report

The steps of a report in order: the check, the spectrum, the site, the visits and the summary. If
all succeed, the report is known up to what the lines say, and the verdict is the last step. If one
of the last three fails, its failure is the outcome.
-/

section

variable [Elementary] {s : Settings} {spectrum : Spectrum} {site : Site}

/-- The lines of a report before those on the workers. -/
def heading (s : Settings) (spectrum : Spectrum) (site : Site) : List String :=
  ["=== Radiative Transfer Estimator Demo ===", "", siteLine s.mesh.system site,
    "Bands: " ++ toString spectrum.size, "", "=== Synchronization ==="]

/-- A report after the visits: what is left is the summary and the verdict. -/
theorem on_report (hcheck : s.check = .ok ()) (hspectrum : s.spectrum = .ok spectrum)
    (hsite : Site.build [s.mesh] s.workers = .ok site) {visits : List Visit}
    (hvisits : site.visits s spectrum = .ok visits) {reports : List Exchange.Report}
    (hreports : visits.mapM (·.report) = .ok reports) :
    on (report s) [] = on (do
        let lines ← expect .site (faulting (summary (visits.flatMap (·.member.tallies))))
        lines.forM say
        unless visits.all (·.agrees site) do throw (.error .diverged))
      (heading s spectrum site ++ linesOf site visits reports) := by
  rw [report, Writing.on_expect_ok_bind _ hcheck, Writing.on_expect_ok_bind _ hspectrum,
    Writing.on_say_bind, Writing.on_say_bind, Writing.on_expect_ok_bind _ hsite,
    Writing.on_say_bind, Writing.on_say_bind, Writing.on_expect_ok_bind _ hvisits,
    Writing.on_say_bind, Writing.on_say_bind, Writing.on_bind, on_workerLines site hreports]
  rfl

theorem run_of_visits (hcheck : s.check = .ok ()) (hspectrum : s.spectrum = .ok spectrum)
    (hsite : Site.build [s.mesh] s.workers = .ok site) {visits : List Visit}
    (hvisits : site.visits s spectrum = .ok visits) {reports : List Exchange.Report}
    (hreports : visits.mapM (·.report) = .ok reports) {lines : List String}
    (hsummary : summary (visits.flatMap (·.member.tallies)) = .ok lines) :
    run s = (heading s spectrum site ++ linesOf site visits reports ++ lines,
      if visits.all (·.agrees site) then .ok () else .error (.error .diverged)) := by
  have hfaulting : (faulting (summary (visits.flatMap (·.member.tallies))) :
      Except (Abort SiteError) (List String)) = .ok lines := faulting_eq_ok_iff.mpr hsummary
  have hon : on (report s) [] =
      (if visits.all (·.agrees site) then .ok () else .error (.error .diverged),
        heading s spectrum site ++ linesOf site visits reports ++ lines) := by
    rw [on_report hcheck hspectrum hsite hvisits hreports,
      Writing.on_expect_ok_bind _ hfaulting, Writing.on_forM_say_bind]
    cases visits.all (·.agrees site) <;> rfl
  rw [run]
  show ((on (report s) []).2, (on (report s) []).1) = _
  rw [hon]

theorem run_of_build_error (hcheck : s.check = .ok ()) (hspectrum : s.spectrum = .ok spectrum)
    {a : Abort SiteError} (hsite : Site.build [s.mesh] s.workers = .error a) :
    (run s).2 = .error (a.map .site) := by
  show (on (report s) []).1 = _
  rw [report, Writing.on_expect_ok_bind _ hcheck, Writing.on_expect_ok_bind _ hspectrum,
    Writing.on_say_bind, Writing.on_say_bind, Writing.on_expect_error_bind _ hsite]

theorem run_of_visits_error (hcheck : s.check = .ok ()) (hspectrum : s.spectrum = .ok spectrum)
    (hsite : Site.build [s.mesh] s.workers = .ok site) {a : Abort SiteError}
    (hvisits : site.visits s spectrum = .error a) : (run s).2 = .error (a.map .site) := by
  show (on (report s) []).1 = _
  rw [report, Writing.on_expect_ok_bind _ hcheck, Writing.on_expect_ok_bind _ hspectrum,
    Writing.on_say_bind, Writing.on_say_bind, Writing.on_expect_ok_bind _ hsite,
    Writing.on_say_bind, Writing.on_say_bind, Writing.on_expect_error_bind _ hvisits]

theorem run_of_summary_error (hcheck : s.check = .ok ()) (hspectrum : s.spectrum = .ok spectrum)
    (hsite : Site.build [s.mesh] s.workers = .ok site) {visits : List Visit}
    (hvisits : site.visits s spectrum = .ok visits) {reports : List Exchange.Report}
    (hreports : visits.mapM (·.report) = .ok reports) {fault : Fault}
    (hsummary : summary (visits.flatMap (·.member.tallies)) = .error fault) :
    (run s).2 = .error (.fault fault) := by
  have hfaulting : (faulting (summary (visits.flatMap (·.member.tallies))) :
      Except (Abort SiteError) (List String)) = .error (.fault fault) := by
    rw [hsummary]
    rfl
  show (on (report s) []).1 = _
  rw [on_report hcheck hspectrum hsite hvisits hreports, Writing.on_expect_error_bind _ hfaulting]
  rfl

/-! ## A survey that goes through

With checked settings a report can end early for few reasons, and all of them are faults: too many
workers for their shares to be listed, a frequency that cannot be drawn, and a count out of range.
What is known of a survey that has none of these is collected in `Completed`.
-/

omit [Elementary] in
theorem sum_accounted {n photons : Nat} {table : BandTable} {tallies : List Tally}
    (h : Accounted n photons table tallies) : (tallies.map (·.segments)).sum = n * photons := by
  have hmap : tallies.map (·.segments) = List.replicate n photons := by
    refine List.eq_replicate_iff.mpr ⟨by rw [List.length_map, h.length], fun x hx => ?_⟩
    obtain ⟨t, ht, rfl⟩ := List.mem_map.mp hx
    obtain ⟨j, hj⟩ := List.getElem?_of_mem ht
    exact (h.tally j t hj).2.2.2
  rw [hmap, List.sum_replicate, Nat.nsmul_eq_mul]

/-- The parts of settings that pass their check. -/
theorem parts_of_check (h : s.check = .ok ()) :
    0 < s.workers ∧ s.mesh.check = .ok () ∧ ∃ spectrum, s.spectrum = .ok spectrum := by
  unfold Settings.check at h
  split at h
  · cases h
  · next hworkers =>
      split at h
      · cases h
      · split at h
        · cases h
        · next hmesh =>
            refine ⟨Nat.pos_of_ne_zero hworkers, hmesh, ?_⟩
            cases hspectrum : s.spectrum with
            | error e => rw [hspectrum] at h; cases h
            | ok spectrum => exact ⟨spectrum, rfl⟩

/-- What a survey has built and said when it has gone through. -/
structure Completed (s : Settings) (spectrum : Spectrum) (table : BandTable) (site : Site)
    (visits : List Visit) (reports : List Exchange.Report) (after : List String) : Prop where
  described : s.spectrum = .ok spectrum
  tabled : BandTable.ofSpectrum spectrum = .ok table
  built : Site.build [s.mesh] s.workers = .ok site
  visited : site.visits s spectrum = .ok visits
  staffed : visits.length = s.workers
  done : ∀ (i : Nat) (v : Visit), visits[i]? = some v →
    v.Done site s.mesh.cellCount s.workers s.photonsPerCell table i
  accounted : Accounted s.mesh.cellCount s.photonsPerCell table
    (visits.flatMap (·.member.tallies))
  reported : visits.mapM (·.report) = .ok reports
  said : run s = (heading s spectrum site ++ linesOf site visits reports ++
      (["", "=== Estimators ===",
        "Segments:          " ++ toString (s.mesh.cellCount * s.photonsPerCell)] ++ after),
    if visits.all (·.agrees site) then .ok () else .error (.error .diverged))

omit [Elementary] in
/-- When the workers have done their visits there is a report of each. -/
theorem exists_reports {n workers photons : Nat} {table : BandTable} {visits : List Visit}
    (h : ∀ (i : Nat) (v : Visit), visits[i]? = some v → v.Done site n workers photons table i) :
    ∃ reports, visits.mapM (·.report) = .ok reports := by
  refine exists_mapM fun v hv => ?_
  obtain ⟨i, hi⟩ := List.getElem?_of_mem hv
  exact (h i v hi).reported

/-- When the visits succeed and can be summed up, the survey goes through. -/
theorem completed_of_visits {table : BandTable} (hcheck : s.check = .ok ())
    (hspectrum : s.spectrum = .ok spectrum) (htable : BandTable.ofSpectrum spectrum = .ok table)
    (hsite : Site.build [s.mesh] s.workers = .ok site)
    (heven : site.Even s.mesh.cellCount s.workers) {visits : List Visit}
    (hvisits : site.visits s spectrum = .ok visits) (hworkers : visits.length = s.workers)
    (hdone : ∀ (i : Nat) (v : Visit), visits[i]? = some v →
      v.Done site s.mesh.cellCount s.workers s.photonsPerCell table i)
    {reports : List Exchange.Report} (hreports : visits.mapM (·.report) = .ok reports)
    {lines : List String} (hsummary : summary (visits.flatMap (·.member.tallies)) = .ok lines) :
    ∃ after, Completed s spectrum table site visits reports after := by
  have haccounted := accounted_visits heven.staffed hworkers hdone
  have hrun := run_of_visits hcheck hspectrum hsite hvisits hreports hsummary
  obtain ⟨after, rfl⟩ := lines_of_summary hsummary
  rw [sum_accounted haccounted] at hrun
  exact ⟨after, hspectrum, htable, hsite, hvisits, hworkers, hdone, haccounted, hreports, hrun⟩

/-- A survey of checked settings goes through, unless it ends in a fault. -/
theorem exists_completed (hcheck : s.check = .ok ()) (hn : s.mesh.cellCount < Count.positive32)
    (hfault : ∀ fault, (run s).2 ≠ .error (.fault fault)) :
    ∃ spectrum table site visits reports after,
      Completed s spectrum table site visits reports after := by
  obtain ⟨hworkers, hmesh, spectrum, hspectrum⟩ := parts_of_check hcheck
  obtain ⟨table, htable, hcount⟩ := Spectrum.exists_table hspectrum
  obtain ⟨site, heven, hsite⟩ := Site.exists_build hworkers hmesh hn
  -- A crowd of workers that cannot have shares would be a fault.
  split at hsite
  swap
  · exact absurd (run_of_build_error hcheck hspectrum hsite) (hfault _)
  cases hvisits : site.visits s spectrum with
  | error a =>
      obtain ⟨fault, rfl⟩ := heven.visits_error htable hvisits
      exact absurd (run_of_visits_error hcheck hspectrum hsite hvisits) (hfault fault)
  | ok visits =>
      obtain ⟨hstaff, hdone⟩ := heven.visits htable hcount hvisits
      obtain ⟨reports, hreports⟩ := exists_reports hdone
      cases hsummary : summary (visits.flatMap (·.member.tallies)) with
      | error fault =>
          exact absurd (run_of_summary_error hcheck hspectrum hsite hvisits hreports hsummary)
            (hfault fault)
      | ok lines =>
          obtain ⟨after, h⟩ := completed_of_visits hcheck hspectrum htable hsite heven hvisits
            hstaff hdone hreports hsummary
          exact ⟨spectrum, table, site, visits, reports, after, h⟩

/-- There is no fault if the shares can be listed, there is nothing to sample or the frequencies
are a range, and all segments can be counted. -/
theorem run_ne_fault (hcheck : s.check = .ok ()) (hn : s.mesh.cellCount < Count.positive32)
    (hshares : s.workers < Plan.shareLimit)
    (hroom : s.mesh.cellCount * s.photonsPerCell < Count.range64)
    (hs : s.photonsPerCell = 0 ∨
      Draw.isRange false (Elementary.log s.freqMin) (Elementary.log s.freqMax) = true)
    (fault : Fault) : (run s).2 ≠ .error (.fault fault) := by
  obtain ⟨hworkers, hmesh, spectrum, hspectrum⟩ := parts_of_check hcheck
  obtain ⟨table, htable, hcount⟩ := Spectrum.exists_table hspectrum
  obtain ⟨site, heven, hsite⟩ := Site.exists_build hworkers hmesh hn
  rw [if_pos hshares] at hsite
  obtain ⟨visits, hvisits⟩ :=
    heven.exists_visits htable hcount (by rwa [Nat.mul_comm]) hs
  obtain ⟨hstaff, hdone⟩ := heven.visits htable hcount hvisits
  obtain ⟨reports, hreports⟩ := exists_reports hdone
  have hbelow : ∀ t ∈ visits.flatMap (·.member.tallies), t.Below (s.photonsPerCell + 1) := by
    intro t ht
    obtain ⟨v, hv, ht⟩ := List.mem_flatMap.mp ht
    obtain ⟨i, hi⟩ := List.getElem?_of_mem hv
    -- The share of a worker is a part of its tallies.
    exact (hdone i v hi).below t (List.mem_of_mem_drop (List.mem_of_mem_take ht))
  have haccounted := accounted_visits heven.staffed hstaff hdone
  obtain ⟨lines, hsummary⟩ := exists_summary hbelow (by rwa [haccounted.length])
  obtain ⟨after, h⟩ := completed_of_visits hcheck hspectrum htable hsite heven hvisits hstaff hdone
    hreports hsummary
  rw [h.said]
  dsimp only
  split <;> simp

/-! ## Every cell is sampled once

The tallies that are reported on are the shares of the workers, one behind the other, and each cell
is in one share.
-/

/-- However many workers a survey has, their shares are the tallies of all cells, in the order
of the cells and each with the segments that were asked for. Outside its share no worker has
sampled anything, and the report has the number of all segments. -/
theorem run_samples_each_cell_once (hcheck : s.check = .ok ())
    (hn : s.mesh.cellCount < Count.positive32)
    (hfault : ∀ fault, (run s).2 ≠ .error (.fault fault)) :
    ∃ spectrum table site visits, s.spectrum = .ok spectrum ∧
      BandTable.ofSpectrum spectrum = .ok table ∧
      Site.build [s.mesh] s.workers = .ok site ∧
      site.visits s spectrum = .ok visits ∧ visits.length = s.workers ∧
      Accounted s.mesh.cellCount s.photonsPerCell table (visits.flatMap (·.member.tallies)) ∧
      (∀ v ∈ visits, v.member.grid.tallies.length = s.mesh.cellCount ∧
        ∀ (j : Nat) (t : Tally), v.member.grid.tallies[j]? = some t →
          ¬ v.member.owned.contains j → t.segments = 0) ∧
      ∃ before after, (run s).1 = before ++ ["", "=== Estimators ===",
        "Segments:          " ++ toString (s.mesh.cellCount * s.photonsPerCell)] ++ after := by
  obtain ⟨spectrum, table, site, visits, reports, after, h⟩ := exists_completed hcheck hn hfault
  refine ⟨spectrum, table, site, visits, h.described, h.tabled, h.built, h.visited, h.staffed,
    h.accounted, fun v hv => ?_, heading s spectrum site ++ linesOf site visits reports, after, ?_⟩
  · obtain ⟨i, hi⟩ := List.getElem?_of_mem hv
    have hdone := h.done i v hi
    refine ⟨hdone.length, fun j t ht hout => ?_⟩
    rw [(hdone.tally j t ht).2.2, if_neg hout]
  · rw [h.said, List.append_assoc _ _ after]

end

/-- Three workers on two cells, so that one of them has nothing to do. -/
def idleThird : Settings where
  workers := 3
  mesh := { Mesh.default with columns := 2, rows := 1 }
  recipe := .edges [1e14, 1e16, 1e18] 0
  photonsPerCell := 5
  seed := 18446744073709551615
  freqMin := 1e14
  freqMax := 1e18

theorem run_samples_each_cell_once_idleThird :
    letI : Elementary := charted
    idleThird.check = .ok () ∧ idleThird.mesh.cellCount = 2 ∧
      (∀ fault, (run idleThird).2 ≠ .error (.fault fault)) ∧
      ∃ before after, (run idleThird).1 = before ++ ["", "=== Estimators ===",
        "Segments:          10"] ++ after := by
  let _ : Elementary := charted
  have hcheck : idleThird.check = .ok () := eq_ok_of_isOk (by decide +kernel)
  have hn : idleThird.mesh.cellCount < Count.positive32 := by decide
  have hfault := run_ne_fault hcheck hn (by decide) (by decide) (.inr (by decide +kernel))
  obtain ⟨-, -, -, -, -, -, -, -, -, -, -, hlines⟩ := run_samples_each_cell_once hcheck hn hfault
  exact ⟨hcheck, rfl, hfault, hlines⟩

end Survey

end StellarWind
