import StellarWind.Proofs.Exchange.Kept
import StellarWind.Proofs.Survey.Crew
import StellarWind.Proofs.Tally.Counting
import StellarWind.Proofs.Wind.InPlace

/-!
# What workers do

Every worker of a group has a copy of all cells and tallies. The workers may define cells,
fill tallies and exchange cells in any order, with or without success: the cell and the
tally at a place always carry the numbers of that place.
-/

namespace StellarWind

namespace Survey

open Exchange

/-! ## Actions

An action may fail. What counts is what it leaves behind, so that an edit is a function from grids
to grids here, and an exchange that does not begin leaves every worker as it was.
-/

/-- What a worker may do to its own grid. -/
inductive Edit where
  | define (range : CellRange)
  | defineAll
  | reset
  | takeBands (spectrum : Spectrum)
  /-- Record a segment in any tally, in any coordinate system. -/
  | record (tally : Nat) (system : CoordSystem) (segment : Segment)

/-- The grid that an edit leaves, whether it succeeds or not. -/
def Edit.apply [Elementary] (g : Grid) : Edit → Grid
  | define range => g.afterDefining range
  | defineAll => g.afterDefining ⟨0, g.cells.length⟩
  | reset => g.reset
  | takeBands spectrum => { g with tallies := (spectrum.installing g.tallies).2 }
  | record tally system segment =>
    { g with tallies := g.tallies.modify tally fun t => (t.record system segment).2 }

/-- A worker of a group: its copy of the grid and its seat. -/
structure Post where
  grid : Grid
  seat : Seat

/-- A new group of workers with the same grid. -/
def staff (workers : Nat) (g : Grid) : List Post :=
  (List.range workers).map fun rank => ⟨g, rank, workers, .empty⟩

/-- What happens in a group: a worker edits its grid, or all exchange cells, each with a
share and a limit of its own. -/
inductive Action where
  | edit (worker : Nat) (e : Edit)
  | exchange (owned : Nat → CellRange) (limit : Nat → Nat)

/-- What the workers bring to an exchange. -/
def entries (owned : Nat → CellRange) (limit : Nat → Nat) (posts : List Post) :
    List (Task × Seat) :=
  posts.mapIdx fun i p => (⟨p.grid.cells, owned i, limit i⟩, p.seat)

/-- Whatever its outcomes are, an exchange that begins leaves its cells on every worker. -/
def act [Elementary] (posts : List Post) : Action → List Post
  | .edit worker e => posts.modify worker fun p => { p with grid := e.apply p.grid }
  | .exchange owned limit =>
    match synchronizeGroup (entries owned limit posts) with
    | .ok outcomes => List.zipWith (fun p (o : Outcome Seat) =>
        ⟨{ p.grid with cells := o.cells }, o.endpoint⟩) posts outcomes
    | .error _ => posts

def actAll [Elementary] (posts : List Post) (actions : List Action) : List Post :=
  actions.foldl act posts

/-- Workers in the order of their ranks that all have every number in its place. -/
structure Staffed (domains : List Domain) (n workers : Nat) (posts : List Post) : Prop where
  length : posts.length = workers
  post : ∀ (i : Nat) (p : Post), posts[i]? = some p → p.seat.rank = i ∧ p.grid.InPlace domains n

section

variable {domains : List Domain} {n workers : Nat}

theorem staffed_staff {g : Grid} (h : g.InPlace domains n) :
    Staffed domains n workers (staff workers g) := by
  refine ⟨by simp [staff], fun i p hp => ?_⟩
  rw [staff, List.getElem?_map] at hp
  obtain ⟨rank, hrank, rfl⟩ := Option.map_eq_some_iff.mp hp
  obtain ⟨hi, hrank⟩ := List.getElem?_eq_some_iff.mp hrank
  rw [List.getElem_range] at hrank
  exact ⟨hrank.symm, h⟩

theorem getElem?_entries (owned : Nat → CellRange) (limit : Nat → Nat) (posts : List Post)
    (i : Nat) : (entries owned limit posts)[i]? =
      posts[i]?.map fun p => (⟨p.grid.cells, owned i, limit i⟩, p.seat) :=
  List.getElem?_mapIdx

theorem Staffed.seated {posts : List Post} (h : Staffed domains n workers posts)
    (owned : Nat → CellRange) (limit : Nat → Nat) : Seated (entries owned limit posts) := by
  rw [Seated, entries, List.length_mapIdx]
  apply List.ext_getElem?
  intro i
  rw [← entries, List.getElem?_map, getElem?_entries]
  cases hi : posts[i]? with
  | none =>
      rw [List.getElem?_eq_none (by simpa using List.getElem?_eq_none_iff.mp hi)]
      rfl
  | some p =>
      rw [List.getElem?_range (List.getElem?_eq_some_iff.mp hi).1]
      exact congrArg some (h.post i p hi).1

theorem Staffed.entry {posts : List Post} (h : Staffed domains n workers posts)
    {owned : Nat → CellRange} {limit : Nat → Nat} {m : Task × Seat}
    (hm : m ∈ entries owned limit posts) : m.1.cells.length = n ∧
      ∀ (j : Nat) (c : Cell), m.1.cells[j]? = some c → Grid.Numbered 0 domains j c := by
  obtain ⟨i, hi⟩ := List.getElem?_of_mem hm
  rw [getElem?_entries] at hi
  obtain ⟨p, hp, rfl⟩ := Option.map_eq_some_iff.mp hi
  exact ⟨(h.post i p hp).2.length, (h.post i p hp).2.cells⟩

/-- A cell keeps its numbers on the way to another worker. -/
theorem numbered_travels : Travels (Grid.Numbered 0 domains) := fun _ _ h => ⟨h.tally, h.domain⟩

variable [Elementary]

/-! ## One action

An edit of tallies leaves their numbers alone, and so does one of cells. In an exchange cells travel
as records, and a record goes to the place that it came from and carries the numbers along
(`outcomes_keep`).
-/

theorem inPlace_apply {g : Grid} (h : g.InPlace domains n) (e : Edit) :
    (e.apply g).InPlace domains n := by
  cases e with
  | define range => exact h.afterDefining range
  | defineAll => exact h.afterDefining ⟨0, g.cells.length⟩
  | reset =>
      refine h.withTallies ?_
      rw [List.map_map]
      rfl
  | takeBands spectrum =>
      refine h.withTallies ?_
      rw [Spectrum.installing]
      cases BandTable.ofSpectrum spectrum with
      | error fault => rfl
      | ok table =>
          rw [List.map_map]
          rfl
  | record tally system segment =>
      exact h.withTallies (map_modify_of_eq (fun t => t.numbers_record system segment) _ _)

theorem Staffed.edit {posts : List Post} (h : Staffed domains n workers posts) (worker : Nat)
    (e : Edit) : Staffed domains n workers (act posts (.edit worker e)) := by
  refine ⟨(List.length_modify _ _ _).trans h.length, fun i p hp => ?_⟩
  rw [act, List.getElem?_modify] at hp
  obtain ⟨q, hq, rfl⟩ := Option.map_eq_some_iff.mp hp
  obtain ⟨hrank, hgrid⟩ := h.post i q hq
  split
  · exact ⟨hrank, inPlace_apply hgrid e⟩
  · exact ⟨hrank, hgrid⟩

theorem Staffed.exchange {posts : List Post} (h : Staffed domains n workers posts)
    (owned : Nat → CellRange) (limit : Nat → Nat) :
    Staffed domains n workers (act posts (.exchange owned limit)) := by
  rw [act]
  split
  · rename_i outcomes hrun
    -- Since the exchange has begun, every worker had a buffer.
    have hroom := room_of_synchronizeGroup hrun
    obtain ⟨outcomes', hrun', hlength, hall⟩ := outcomes_keep numbered_travels
      (h.seated owned limit) hroom (fun m hm => (h.entry hm).1) fun m hm => (h.entry hm).2
    obtain rfl := Except.ok.inj (hrun'.symm.trans hrun)
    refine ⟨?_, fun i p hp => ?_⟩
    · rw [List.length_zipWith, hlength, entries, List.length_mapIdx, Nat.min_self, h.length]
    · rw [List.getElem?_zipWith] at hp
      cases hq : posts[i]? with
      | none =>
          rw [hq] at hp
          cases hp
      | some q =>
          obtain ⟨hrank, hgrid⟩ := h.post i q hq
          obtain ⟨o, ho, hseat, hcells, hnumbered⟩ :=
            hall i _ (by rw [getElem?_entries, hq, Option.map_some])
          rw [hq, ho] at hp
          obtain rfl := Option.some.inj hp
          refine ⟨?_, hgrid.withCells hcells hnumbered⟩
          rw [hseat]
          exact hrank
  · exact h

/-! ## Every run

The invariant holds of a new group and is kept by each action, and so it holds after all of them.
-/

theorem Staffed.actAll {posts : List Post} (h : Staffed domains n workers posts)
    (actions : List Action) : Staffed domains n workers (actAll posts actions) := by
  induction actions generalizing posts with
  | nil => exact h
  | cons a rest ih =>
      cases a with
      | edit worker e => exact ih (h.edit worker e)
      | exchange owned limit => exact ih (h.exchange owned limit)

/-- Whatever the workers of a group do, and whether it succeeds or not, every cell and
every tally of each of them carries the numbers of its place, and every cell has the
coordinate system of the domain that it lies in. -/
theorem actAll_in_place {meshes : List Mesh} (hcheck : ∀ m ∈ meshes, m.check = .ok ())
    (hsum : (meshes.map Mesh.cellCount).sum < Count.range64) (workers : Nat)
    (actions : List Action) :
    ∃ blank, Grid.build meshes = .ok blank ∧
      (actAll (staff workers blank) actions).length = workers ∧
      ∀ p ∈ actAll (staff workers blank) actions,
        p.grid.domains.map (fun d => (d.mesh, d.count)) = meshes.map (fun m => (m, m.cellCount)) ∧
        Tiles 0 p.grid.domains ((meshes.map Mesh.cellCount).sum) ∧
        p.grid.cells.length = (meshes.map Mesh.cellCount).sum ∧
        p.grid.tallies.length = (meshes.map Mesh.cellCount).sum ∧
        (∀ (j : Nat) (c : Cell), p.grid.cells[j]? = some c → c.tallyIndex = j ∧
          (∃ d, p.grid.domains[c.domain]? = some d ∧ c.domainIndex < d.count ∧
            d.start + c.domainIndex = j) ∧
          ∀ d ∈ p.grid.domains, d.range.contains j → p.grid.systemOf c = d.mesh.system) ∧
        ∀ (j : Nat) (t : Tally), p.grid.tallies[j]? = some t → t.index = j ∧ t.cell = j := by
  obtain ⟨blank, hbuild, hblank, htiles, hmeshes⟩ := Grid.inPlace_build hcheck hsum
  have hstaff : Staffed blank.domains _ workers (staff workers blank) := staffed_staff hblank
  have hstaffed := hstaff.actAll actions
  refine ⟨blank, hbuild, hstaffed.length, fun p hp => ?_⟩
  obtain ⟨i, hi⟩ := List.getElem?_of_mem hp
  have hgrid := (hstaffed.post i p hi).2
  rw [hgrid.sameDomains]
  refine ⟨hmeshes, htiles, hgrid.length, ?_, fun j c hj => ?_, fun j t => hgrid.tally⟩
  · have hlength := congrArg List.length hgrid.tallies
    rwa [List.length_map, List.length_map, List.length_range] at hlength
  · have hnumbered := hgrid.cells j c hj
    obtain ⟨k, d, hd, hdomain, hindex⟩ := hnumbered.domain
    rw [Nat.zero_add] at hdomain
    refine ⟨hnumbered.tally, ⟨d, ?_, hindex⟩, fun e he => hgrid.systemOf_eq htiles hj he⟩
    rw [hdomain, hd]

end

/-- Two workers, each of which defines half of the cells. The share of the second is out of
order in the first exchange, which fails, and in the end it records a segment. -/
def troubled : List Action :=
  [.edit 0 (.define ⟨0, 2⟩), .edit 1 (.define ⟨3, 5⟩), .edit 1 (.define ⟨2, 4⟩),
    .exchange (fun i => if i = 0 then ⟨0, 2⟩ else ⟨4, 2⟩) fun _ => 2,
    .exchange (fun i => ⟨2 * i, 2 * i + 2⟩) fun _ => 2,
    .edit 1 (.record 3 .cylindrical (Tally.segmentOf 5e15 0 .star)), .edit 0 .reset]

theorem actAll_in_place_troubled :
    ∃ blank, Grid.build shellAndColumn = .ok blank ∧
      (actAll (staff 2 blank) troubled).length = 2 ∧
      ∀ p ∈ actAll (staff 2 blank) troubled, p.grid.cells.length = 4 ∧
        p.grid.tallies.length = 4 ∧
        (∀ (j : Nat) (c : Cell), p.grid.cells[j]? = some c → c.tallyIndex = j) ∧
        ∀ (j : Nat) (t : Tally), p.grid.tallies[j]? = some t → t.index = j ∧ t.cell = j := by
  have hcheck : ∀ m ∈ shellAndColumn, m.check = .ok () := Mesh.checked_of_isOk (by decide +kernel)
  obtain ⟨blank, hbuild, hlength, hall⟩ := actAll_in_place hcheck (by decide) 2 troubled
  refine ⟨blank, hbuild, hlength, fun p hp => ?_⟩
  obtain ⟨-, -, hcells, htallies, hnumbers, htally⟩ := hall p hp
  exact ⟨hcells, htallies, fun j c hj => (hnumbers j c hj).1, htally⟩

end Survey

end StellarWind
