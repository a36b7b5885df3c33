import Mathlib.Data.List.InsertIdx
import StellarWind.Proofs.Exchange.Rounds

/-!
# What an exchange does to a group

An exchange ends in the same way on all workers. If everyone could pack its share,
every worker has in the end the first cell of the lowest worker that owns it; if
someone could not, everyone fails because of the first such worker, and nothing
of it or of a later worker has been merged.
-/

namespace StellarWind

namespace Exchange

/-- The members of a group stand in the order of their ranks. -/
def Seated (members : List (Task × Seat)) : Prop :=
  members.map (·.2.rank) = List.range members.length

instance : DecidablePred Seated := fun _ => inferInstanceAs (Decidable (_ = _))

/-- Tasks for a new group. -/
def seatAll (tasks : List Task) : List (Task × Seat) :=
  tasks.zip ((List.range tasks.length).map fun rank => ⟨rank, tasks.length, .empty⟩)

/-- A task for a group with grids of `n` cells and shares of up to `limit` cells. -/
structure Task.Fits (n limit : Nat) (t : Task) : Prop where
  sameLength : t.cells.length = n
  sameLimit : t.limit = limit
  ordered : t.owned.start ≤ t.owned.stop
  inside : t.owned.stop ≤ n
  small : t.owned.size ≤ limit
  indexed : ∀ c ∈ t.cells, c.IsIndexed

instance (n limit : Nat) : DecidablePred (Task.Fits n limit) := fun t =>
  decidable_of_iff (t.cells.length = n ∧ t.limit = limit ∧ t.owned.start ≤ t.owned.stop ∧
      t.owned.stop ≤ n ∧ t.owned.size ≤ limit ∧ ∀ c ∈ t.cells, c.IsIndexed)
    ⟨fun ⟨a, b, c, d, e, f⟩ => ⟨a, b, c, d, e, f⟩, fun ⟨a, b, c, d, e, f⟩ => ⟨a, b, c, d, e, f⟩⟩

section

variable {members : List (Task × Seat)} {n limit : Nat}

/-! ## From the first round to the last

The invariants of the rounds hold of fresh workers, and what holds of the workers after the last
round can be read off their outcomes.
-/

theorem Seated.rank (h : Seated members) {i : Nat} {m : Task × Seat} (hm : members[i]? = some m) :
    m.2.rank = i := by
  have hi : i < members.length := (List.getElem?_eq_some_iff.mp hm).1
  have hget : (members.map (·.2.rank))[i]? = some m.2.rank := by rw [List.getElem?_map, hm]; rfl
  rw [h, List.getElem?_range hi] at hget
  exact (Option.some.inj hget).symm

@[simp] theorem length_seatAll (tasks : List Task) : (seatAll tasks).length = tasks.length := by
  simp [seatAll]

@[simp] theorem map_fst_seatAll (tasks : List Task) : (seatAll tasks).map Prod.fst = tasks :=
  List.map_fst_zip (by simp)

theorem seated_seatAll (tasks : List Task) : Seated (seatAll tasks) := by
  have hseats : (seatAll tasks).map Prod.snd =
      (List.range tasks.length).map fun rank => ⟨rank, tasks.length, .empty⟩ :=
    List.map_snd_zip (by simp)
  have hranks := congrArg (List.map Seat.rank) hseats
  rw [List.map_map, List.map_map] at hranks
  rw [Seated, length_seatAll]
  exact hranks.trans (List.map_id _)

theorem getElem?_task {i : Nat} {m : Task × Seat} (h : members[i]? = some m) :
    (members.map Prod.fst)[i]? = some m.1 := by
  rw [List.getElem?_map, h]
  rfl

theorem each_fresh {P : Nat → Task → Worker → Prop}
    (h : ∀ (i : Nat) (m : Task × Seat), members[i]? = some m → P i m.1 (.fresh m.1 m.2.rank)) :
    Each (members.map Prod.fst) (freshWorkers members) P := by
  refine ⟨by simp [freshWorkers], ?_⟩
  intro i t ht
  rw [List.getElem?_map] at ht
  obtain ⟨m, hm, rfl⟩ := Option.map_eq_some_iff.mp ht
  refine ⟨_, ?_, h i m hm⟩
  rw [freshWorkers, List.getElem?_map, hm]
  rfl

theorem merged_fresh (h : Seated members) :
    Each (members.map Prod.fst) (freshWorkers members) (Merged (members.map Prod.fst) 0) := by
  refine each_fresh fun i m hm => ?_
  exact {
    rank := h.rank hm
    owned := rfl
    cells := (gridAfter_zero (getElem?_task hm)).symm
    sent := rfl
    received := rfl
    failure := rfl
    capacity := capacity_fresh m.1 m.2.rank }

theorem opposed_fresh (h : Seated members) :
    Each (members.map Prod.fst) (freshWorkers members) (Opposed (members.map Prod.fst) 0) := by
  refine each_fresh fun i m hm => ⟨h.rank hm, capacity_fresh m.1 m.2.rank, ?_⟩
  intro j hj
  omega

/-- What holds of the workers after the last round holds of what they leave. -/
theorem exists_outcomes {P : Nat → Task → Worker → Prop}
    (hroom : ∀ m ∈ members, roundBytes m.1.limit < Buffer.limit)
    (h : Each (members.map Prod.fst) (roundsTo members.length (freshWorkers members)) P) :
    ∃ outcomes, synchronizeGroup members = .ok outcomes ∧ outcomes.length = members.length ∧
      ∀ (i : Nat) (m : Task × Seat), members[i]? = some m →
        ∃ w, P i m.1 w ∧ outcomes[i]? = some (.ofWorker members.length m.2 w) := by
  have hrounds : groupRounds (freshWorkers members) =
      roundsTo members.length (freshWorkers members) := by
    rw [groupRounds, freshWorkers, List.length_map]
    rfl
  refine ⟨_, synchronizeGroup_eq hroom, ?_, ?_⟩
  · rw [hrounds, List.length_zipWith, h.1, List.length_map, Nat.min_self]
  · intro i m hm
    obtain ⟨w, hw, hp⟩ := h.2 i m.1 (getElem?_task hm)
    refine ⟨w, hp, ?_⟩
    rw [hrounds, List.getElem?_zipWith, hm, hw]

theorem result_ofWorker_ok {w : Worker} (h : w.failure = none) (rounds : Nat) (s : Seat) :
    (Outcome.ofWorker rounds s w).result =
      .ok ⟨rounds, w.buffer.capacity, w.sent, w.received⟩ := by
  rw [Outcome.ofWorker, Worker.verdict, h]
  rfl

theorem result_ofWorker_error {w : Worker} {cause : ExchangeError} (h : w.failure = some cause)
    (rounds : Nat) (s : Seat) :
    (Outcome.ofWorker rounds s w).result = .error (.error cause) := by
  rw [Outcome.ofWorker, Worker.verdict, h]
  rfl

/-! ## The ways in which an exchange ends

Either every worker can pack in its turn, or there is a first one that cannot, and then the
outcomes are known exactly. With two different limits the buffers of some workers do not match,
and then it is only said that all fail.
-/

/-- If every worker can pack, all have a result. -/
theorem outcomes_of_packs (hseated : Seated members)
    (hroom : ∀ m ∈ members, roundBytes m.1.limit < Buffer.limit)
    (hlen : ∀ t ∈ members.map Prod.fst, t.cells.length = n)
    (hlimit : ∀ t ∈ members.map Prod.fst, t.limit = limit)
    (hpack : ∀ k < members.length, Packs (members.map Prod.fst) k) :
    ∃ outcomes, synchronizeGroup members = .ok outcomes ∧ outcomes.length = members.length ∧
      ∀ (i : Nat) (m : Task × Seat), members[i]? = some m → ∃ o, outcomes[i]? = some o ∧
        o.result = .ok ⟨members.length, roundBytes limit, m.1.owned.size,
          ((members.eraseIdx i).map (·.1.owned.size)).sum⟩ ∧
        o.cells = gridAfter (members.map Prod.fst) members.length i := by
  have hmerged := merged_roundsTo hlen hlimit (merged_fresh hseated) members.length hpack
  obtain ⟨outcomes, hrun, hlength, hall⟩ := exists_outcomes hroom hmerged
  refine ⟨outcomes, hrun, hlength, fun i m hm => ?_⟩
  obtain ⟨w, hw, ho⟩ := hall i m hm
  refine ⟨_, ho, ?_, hw.cells⟩
  -- In all rounds together a worker sends its own share and receives those of all others.
  have hsent : w.sent = m.1.owned.size := by
    rw [hw.sent, if_pos (List.getElem?_eq_some_iff.mp hm).1]
  have hreceived : w.received = ((members.eraseIdx i).map (·.1.owned.size)).sum := by
    rw [hw.received, List.take_of_length_le (by simp), List.eraseIdx_map, List.map_map]
    rfl
  have hm' : m.1.limit = limit := hlimit _ (List.mem_map_of_mem (List.mem_of_getElem? hm))
  rw [result_ofWorker_ok hw.failure, hw.capacity, hsent, hreceived, hm']

/-- If a worker cannot pack, all fail because of the first such worker. -/
theorem outcomes_of_failsFirst (hseated : Seated members)
    (hroom : ∀ m ∈ members, roundBytes m.1.limit < Buffer.limit)
    (hlen : ∀ t ∈ members.map Prod.fst, t.cells.length = n)
    (hlimit : ∀ t ∈ members.map Prod.fst, t.limit = limit) {k : Nat} {cause : ExchangeError}
    (hfails : FailsFirst (freshWorkers members) k cause) :
    ∃ outcomes, synchronizeGroup members = .ok outcomes ∧ outcomes.length = members.length ∧
      ∀ (i : Nat) (m : Task × Seat), members[i]? = some m → ∃ o, outcomes[i]? = some o ∧
        o.result = .error (.error (if i = k then cause else .roundAborted k)) ∧
        o.cells = gridAfter (members.map Prod.fst) k i := by
  have haborted := hfails.aborted hlen hlimit (merged_fresh hseated)
  rw [List.length_map] at haborted
  obtain ⟨outcomes, hrun, hlength, hall⟩ := exists_outcomes hroom haborted
  refine ⟨outcomes, hrun, hlength, fun i m hm => ?_⟩
  obtain ⟨w, hw, ho⟩ := hall i m hm
  exact ⟨_, ho, result_ofWorker_error hw.failure members.length m.2, hw.cells⟩

/-- With two different limits all workers fail. -/
theorem outcomes_of_limits (hseated : Seated members)
    (hroom : ∀ m ∈ members, roundBytes m.1.limit < Buffer.limit) {a b : Task × Seat}
    (ha : a ∈ members) (hb : b ∈ members) (hne : a.1.limit ≠ b.1.limit) :
    ∃ outcomes, synchronizeGroup members = .ok outcomes ∧ outcomes.length = members.length ∧
      ∀ (i : Nat) (m : Task × Seat), members[i]? = some m → ∃ o, outcomes[i]? = some o ∧
        ∃ cause, o.result = .error (.error cause) := by
  have hopposed := opposed_roundsTo (opposed_fresh hseated) (Nat.le_refl _)
  rw [List.length_map] at hopposed
  obtain ⟨outcomes, hrun, hlength, hall⟩ := exists_outcomes hroom hopposed
  refine ⟨outcomes, hrun, hlength, fun i m hm => ?_⟩
  obtain ⟨w, hw, ho⟩ := hall i m hm
  -- One of the two has a limit other than that of worker `i`.
  obtain ⟨p, hp, hpm⟩ : ∃ p ∈ members, p.1.limit ≠ m.1.limit := by
    by_cases ham : a.1.limit = m.1.limit
    · exact ⟨b, hb, fun hbm => hne (ham.trans hbm.symm)⟩
    · exact ⟨a, ha, ham⟩
  obtain ⟨j, hj⟩ := List.getElem?_of_mem hp
  have hlt : j < members.length := (List.getElem?_eq_some_iff.mp hj).1
  have hfail := hw.failure j hlt p.1 (getElem?_task hj) hpm
  obtain ⟨cause, hcause⟩ := Option.isSome_iff_exists.mp hfail
  exact ⟨_, ho, cause, result_ofWorker_error hcause members.length m.2⟩

theorem forall_outcomes {outcomes : List (Outcome Seat)} {P : Outcome Seat → Prop}
    (hlength : outcomes.length = members.length)
    (h : ∀ (i : Nat) (m : Task × Seat), members[i]? = some m →
      ∃ o, outcomes[i]? = some o ∧ P o) :
    ∀ o ∈ outcomes, P o := by
  intro o ho
  obtain ⟨i, hi⟩ := List.getElem?_of_mem ho
  have hlt : i < members.length := by
    rw [← hlength]
    exact (List.getElem?_eq_some_iff.mp hi).1
  obtain ⟨o', ho', hP⟩ := h i _ (List.getElem?_eq_getElem hlt)
  obtain rfl : o' = o := Option.some.inj (ho'.symm.trans hi)
  exact hP

/-! ## Convergence

In a group of fitting tasks nobody fails, and `getElem?_gridAfter` says what the grids are in the
end.
-/

/-- A worker with an ordered share inside the grid can pack, whatever it has merged before. -/
theorem packs_of_ordered {tasks : List Task} (hn : n < Count.positive32)
    (hlen : ∀ t ∈ tasks, t.cells.length = n)
    (hindexed : ∀ t ∈ tasks, ∀ c ∈ t.cells, c.IsIndexed) {k : Nat} {t : Task}
    (ht : tasks[k]? = some t) (hordered : t.owned.start ≤ t.owned.stop)
    (hinside : t.owned.stop ≤ n) (hsmall : t.owned.size ≤ t.limit) : Packs tasks k := by
  -- The rounds before replace cells of the share, but neither their number nor their indices.
  have hlength := length_gridAfter hlen k ht
  have hindexed' := isIndexed_gridAfter hindexed k k
  refine ⟨t, ht, ⟨hordered, by rwa [hlength], ?_, ?_⟩, hsmall⟩
  · unfold CellRange.size
    omega
  · intro p hp
    obtain ⟨hindex, hcell⟩ := List.of_mem_zip hp
    rw [CellRange.cells, List.mem_range'_1, CellRange.size] at hindex
    exact ⟨by omega, hindexed' _ (List.mem_of_mem_drop (List.mem_of_mem_take hcell))⟩

/-- In a group of fitting tasks every worker can pack. -/
theorem packs_of_fits {tasks : List Task} (hn : n < Count.positive32)
    (h : ∀ t ∈ tasks, t.Fits n limit) {k : Nat} (hk : k < tasks.length) : Packs tasks k := by
  have hfits := h _ (List.getElem_mem hk)
  apply packs_of_ordered hn (fun t ht => (h t ht).sameLength) (fun t ht => (h t ht).indexed)
    (List.getElem?_eq_getElem hk) hfits.ordered hfits.inside
  rw [hfits.sameLimit]
  exact hfits.small

/-- An exchange of fitting tasks has a result on every worker. -/
theorem outcomes_of_fits (hseated : Seated members) (hn : n < Count.positive32)
    (hroom : roundBytes limit < Buffer.limit)
    (hfits : ∀ t ∈ members.map Prod.fst, t.Fits n limit) :
    ∃ outcomes, synchronizeGroup members = .ok outcomes ∧ outcomes.length = members.length ∧
      ∀ (i : Nat) (m : Task × Seat), members[i]? = some m → ∃ o, outcomes[i]? = some o ∧
        o.result = .ok ⟨members.length, roundBytes limit, m.1.owned.size,
          ((members.eraseIdx i).map (·.1.owned.size)).sum⟩ ∧
        o.cells = gridAfter (members.map Prod.fst) members.length i := by
  apply outcomes_of_packs hseated
  · intro m hm
    rwa [(hfits m.1 (List.mem_map_of_mem hm)).sameLimit]
  · exact fun t ht => (hfits t ht).sameLength
  · exact fun t ht => (hfits t ht).sameLimit
  · intro k hk
    apply packs_of_fits hn hfits
    rwa [List.length_map]

theorem outcomes_seatAll {tasks : List Task} (hn : n < Count.positive32)
    (hroom : roundBytes limit < Buffer.limit) (hfits : ∀ t ∈ tasks, t.Fits n limit) :
    ∃ outcomes, synchronizeGroup (seatAll tasks) = .ok outcomes ∧
      outcomes.length = tasks.length ∧
      ∀ (i : Nat) (t : Task), tasks[i]? = some t → ∃ o, outcomes[i]? = some o ∧
        o.result = .ok ⟨tasks.length, roundBytes limit, t.owned.size,
          ((tasks.eraseIdx i).map (·.owned.size)).sum⟩ ∧
        o.cells = gridAfter tasks tasks.length i := by
  have h := outcomes_of_fits (seated_seatAll tasks) hn hroom (by rwa [map_fst_seatAll])
  rw [map_fst_seatAll, length_seatAll] at h
  obtain ⟨outcomes, hrun, hlength, hall⟩ := h
  refine ⟨outcomes, hrun, hlength, fun i t ht => ?_⟩
  rw [← map_fst_seatAll tasks, List.getElem?_map] at ht
  obtain ⟨m, hm, rfl⟩ := Option.map_eq_some_iff.mp ht
  obtain ⟨o, ho, hresult, hcells⟩ := hall i m hm
  refine ⟨o, ho, ?_, hcells⟩
  rw [hresult, ← map_fst_seatAll tasks, List.eraseIdx_map, List.map_map, map_fst_seatAll]
  rfl

/-- Every worker ends with the first cell of the lowest worker that owns it, and
with its own where there is none. -/
theorem synchronizeGroup_converges (hseated : Seated members) (hn : n < Count.positive32)
    (hroom : roundBytes limit < Buffer.limit) (hfits : ∀ m ∈ members, m.1.Fits n limit)
    (hproper : ∀ m ∈ members, ∀ c ∈ m.1.cells, c.standing.IsProper) :
    ∃ outcomes, synchronizeGroup members = .ok outcomes ∧ outcomes.length = members.length ∧
      ∀ (i : Nat) (m : Task × Seat), members[i]? = some m → ∃ o, outcomes[i]? = some o ∧
        o.result = .ok ⟨members.length, roundBytes limit, m.1.owned.size,
          ((members.eraseIdx i).map (·.1.owned.size)).sum⟩ ∧
        ∀ j : Nat, o.cells[j]? = (winner (members.map Prod.fst) m.1 j).cells[j]? := by
  have htasks : ∀ t ∈ members.map Prod.fst, t.Fits n limit := List.forall_mem_map.mpr hfits
  obtain ⟨outcomes, hrun, hlength, hall⟩ := outcomes_of_fits hseated hn hroom htasks
  refine ⟨outcomes, hrun, hlength, fun i m hm => ?_⟩
  obtain ⟨o, ho, hresult, hcells⟩ := hall i m hm
  refine ⟨o, ho, hresult, fun j => ?_⟩
  have hj := getElem?_gridAfter (fun t ht => (htasks t ht).sameLength)
    (List.forall_mem_map.mpr hproper) members.length (getElem?_task hm) j
  rwa [← hcells, List.take_of_length_le (by simp)] at hj

/-- The cells of a grid that is one domain. -/
def cellsOf (domain n : Nat) : List Cell := (List.range n).map fun i => .blank domain i i

/-- Two workers that both own cell 1, while nobody owns cell 3. -/
def overlapping : List Task := [⟨cellsOf 0 4, ⟨0, 2⟩, 2⟩, ⟨cellsOf 1 4, ⟨1, 3⟩, 2⟩]

theorem synchronizeGroup_converges_overlapping :
    ∃ outcomes : List (Outcome Seat), synchronizeGroup (seatAll overlapping) = .ok outcomes ∧
      ∃ o : Outcome Seat, outcomes[1]? = some o ∧ o.result = .ok ⟨2, 572, 2, 2⟩ ∧
        o.cells[0]? = some (Cell.blank 0 0 0) ∧ o.cells[1]? = some (Cell.blank 0 1 1) ∧
        o.cells[2]? = some (Cell.blank 1 2 2) ∧ o.cells[3]? = some (Cell.blank 1 3 3) := by
  obtain ⟨outcomes, hrun, -, hall⟩ := synchronizeGroup_converges (n := 4)
    (seated_seatAll overlapping) (by decide) (show roundBytes 2 < _ by decide)
    (by decide +kernel) (by decide +kernel)
  obtain ⟨o, ho, hresult, hcells⟩ := hall 1 _ rfl
  exact ⟨outcomes, hrun, o, ho, hresult, hcells 0, hcells 1, hcells 2, hcells 3⟩

/-! ## All or nothing

If all limits are equal, then all can pack or there is a first worker that cannot. If two differ,
every worker meets one with another limit.
-/

/-- Either all workers have a result or all have an error, and they have an error
if their limits differ. -/
theorem synchronizeGroup_all_or_none (hseated : Seated members)
    (hroom : ∀ m ∈ members, roundBytes m.1.limit < Buffer.limit)
    (hlen : ∀ m ∈ members, m.1.cells.length = n) :
    ∃ outcomes, synchronizeGroup members = .ok outcomes ∧ outcomes.length = members.length ∧
      ((∀ o ∈ outcomes, ∃ report, o.result = .ok report) ∨
        ∀ o ∈ outcomes, ∃ cause, o.result = .error (.error cause)) ∧
      ((∃ a ∈ members, ∃ b ∈ members, a.1.limit ≠ b.1.limit) →
        ∀ o ∈ outcomes, ∃ cause, o.result = .error (.error cause)) := by
  by_cases hdiffer : ∃ a ∈ members, ∃ b ∈ members, a.1.limit ≠ b.1.limit
  · -- No need to know who fails first.
    obtain ⟨a, ha, b, hb, hne⟩ := hdiffer
    obtain ⟨outcomes, hrun, hlength, hall⟩ := outcomes_of_limits hseated hroom ha hb hne
    have hfailed := forall_outcomes hlength hall
    exact ⟨outcomes, hrun, hlength, .inr hfailed, fun _ => hfailed⟩
  · -- One limit for all, so that what the first worker to fail does decides for everyone.
    obtain ⟨limit, hlimit⟩ : ∃ limit, ∀ t ∈ members.map Prod.fst, t.limit = limit := by
      cases members with
      | nil => exact ⟨0, by simp⟩
      | cons m rest =>
          refine ⟨m.1.limit, List.forall_mem_map.mpr fun p hp => ?_⟩
          exact Decidable.byContradiction fun hne => hdiffer ⟨p, hp, m, List.mem_cons_self, hne⟩
    have hlen' : ∀ t ∈ members.map Prod.fst, t.cells.length = n := List.forall_mem_map.mpr hlen
    have hk : members.length ≤ (freshWorkers members).length := by simp [freshWorkers]
    rcases packedIn_or_failsFirst (freshWorkers members) hk with hpacked | ⟨m, cause, hfails⟩
    · have hpack := packs_of_packedIn hlen' hlimit (merged_fresh hseated) hpacked
      obtain ⟨outcomes, hrun, hlength, hall⟩ :=
        outcomes_of_packs hseated hroom hlen' hlimit hpack
      refine ⟨outcomes, hrun, hlength, .inl (forall_outcomes hlength ?_), fun h => absurd h hdiffer⟩
      intro i m hm
      obtain ⟨o, ho, hresult, -⟩ := hall i m hm
      exact ⟨o, ho, _, hresult⟩
    · obtain ⟨outcomes, hrun, hlength, hall⟩ :=
        outcomes_of_failsFirst hseated hroom hlen' hlimit hfails
      refine ⟨outcomes, hrun, hlength, .inr (forall_outcomes hlength ?_), fun h => absurd h hdiffer⟩
      intro i m hm
      obtain ⟨o, ho, hresult, -⟩ := hall i m hm
      exact ⟨o, ho, _, hresult⟩

/-- Two workers with different limits, one of them with a reversed share. -/
def opposing : List Task := [⟨cellsOf 0 1, ⟨0, 1⟩, 1⟩, ⟨cellsOf 1 1, ⟨5, 2⟩, 3⟩]

theorem synchronizeGroup_all_or_none_opposing :
    ∃ outcomes, synchronizeGroup (seatAll opposing) = .ok outcomes ∧ outcomes.length = 2 ∧
      ∀ o ∈ outcomes, ∃ cause, o.result = .error (.error cause) := by
  obtain ⟨outcomes, hrun, hlength, -, hlimits⟩ := synchronizeGroup_all_or_none (n := 1)
    (seated_seatAll opposing) (by decide) (by decide)
  exact ⟨outcomes, hrun, hlength, hlimits (by decide)⟩

/-! ## Abort

A worker that fails first has seen the rounds before its own merged, and no round after it merges
anything.
-/

/-- If worker `k` is the first that cannot pack it keeps its error, all others
report that its round was aborted, and only the shares of the workers below it have
been merged. -/
theorem synchronizeGroup_aborts (hseated : Seated members)
    (hlen : ∀ m ∈ members, m.1.cells.length = n) (hlimit : ∀ m ∈ members, m.1.limit = limit)
    (hproper : ∀ m ∈ members, ∀ c ∈ m.1.cells, c.standing.IsProper) {opened : List Ready}
    (hopen : members.mapM (fun (task, seat) => ready task seat) = .ok opened) {k : Nat}
    {cause : ExchangeError} (hfails : FailsFirst (opened.map (·.worker)) k cause) :
    ∃ outcomes, synchronizeGroup members = .ok outcomes ∧ outcomes.length = members.length ∧
      ∀ (i : Nat) (m : Task × Seat), members[i]? = some m → ∃ o, outcomes[i]? = some o ∧
        o.result = .error (.error (if i = k then cause else .roundAborted k)) ∧
        ∀ j : Nat, o.cells[j]? = (winner ((members.map Prod.fst).take k) m.1 j).cells[j]? := by
  -- Every worker has a buffer, since the exchange was opened.
  have hroom := fits_of_ready hopen
  have hworkers : opened.map (·.worker) = freshWorkers members := by
    obtain rfl := Except.ok.inj (hopen.symm.trans (mapM_ready hroom))
    rw [List.map_map]
    rfl
  rw [hworkers] at hfails
  have hlen' : ∀ t ∈ members.map Prod.fst, t.cells.length = n := List.forall_mem_map.mpr hlen
  obtain ⟨outcomes, hrun, hlength, hall⟩ := outcomes_of_failsFirst hseated hroom hlen'
    (List.forall_mem_map.mpr hlimit) hfails
  refine ⟨outcomes, hrun, hlength, fun i m hm => ?_⟩
  obtain ⟨o, ho, hresult, hcells⟩ := hall i m hm
  refine ⟨o, ho, hresult, fun j => ?_⟩
  rw [hcells]
  exact getElem?_gridAfter hlen' (List.forall_mem_map.mpr hproper) k (getElem?_task hm) j

end

/-- Worker 1 has a reversed share, and that of worker 2 leaves the grid. -/
def failing : List Task :=
  [⟨cellsOf 0 2, ⟨0, 1⟩, 1⟩, ⟨cellsOf 1 2, ⟨2, 1⟩, 1⟩, ⟨cellsOf 2 2, ⟨0, 5⟩, 1⟩]

theorem synchronizeGroup_aborts_failing :
    ∃ outcomes : List (Outcome Seat), synchronizeGroup (seatAll failing) = .ok outcomes ∧
      (∃ o : Outcome Seat, outcomes[1]? = some o ∧
        o.result = .error (.error (.cellIndexOutOfRange 1 2))) ∧
      ∃ o : Outcome Seat, outcomes[2]? = some o ∧ o.result = .error (.error (.roundAborted 1)) ∧
        o.cells[0]? = some (Cell.blank 0 0 0) ∧ o.cells[1]? = some (Cell.blank 2 1 1) := by
  have hroom : ∀ m ∈ seatAll failing, roundBytes m.1.limit < Buffer.limit := by decide
  have hlimit : ∀ m ∈ seatAll failing, m.1.limit = 1 := by decide
  obtain ⟨outcomes, hrun, -, hall⟩ := synchronizeGroup_aborts (n := 2) (seated_seatAll failing)
    (by decide) hlimit (by decide +kernel) (mapM_ready hroom) (k := 1)
    { earlier := fun k hk => by
        obtain rfl : k = 0 := by omega
        exact ⟨1, by decide +kernel⟩
      failing := show packedIn _ 1 = some (.error (.cellIndexOutOfRange 1 2)) by decide +kernel }
  obtain ⟨o, ho, hresult, -⟩ := hall 1 _ rfl
  obtain ⟨p, hp, hresult', hcells⟩ := hall 2 _ rfl
  exact ⟨outcomes, hrun, ⟨o, ho, hresult⟩, p, hp, hresult', hcells 0, hcells 1⟩

end Exchange

end StellarWind
