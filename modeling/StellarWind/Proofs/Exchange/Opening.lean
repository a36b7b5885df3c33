import StellarWind.Exchange.Group
import StellarWind.Proofs.Wind.CellRecord
import StellarWind.Proofs.Wire.Sizing

/-!
# How an exchange begins and ends

The only composite type of a cell is its cone. Opening an exchange registers it,
asks for a buffer of `roundBytes` bytes and makes the worker ready; closing it
releases the type again. Both always succeed once the buffer can be had, so that an
exchange of a group is its rounds (`synchronizeGroup_eq`).
-/

namespace StellarWind

namespace Exchange

/-- The number of bytes of a round for shares of up to `limit` cells: a count, and
each cell with its index. -/
def roundBytes (limit : Nat) : Nat := 4 + limit * (4 + Cell.schema.size)

theorem roundBytes_eq (limit : Nat) : roundBytes limit = 4 + limit * 284 := rfl

/-! ## The registered type

A registration takes the next handle and a release removes it, but the handle is not given out
again. So a seat after an exchange differs from the one before it by the next handle.
-/

/-- A seat with the type of cones registered. -/
def withCone (s : Seat) : Seat :=
  { s with registry := ⟨s.registry.next + 1, (s.registry.next, Cone.layout) :: s.registry.types⟩ }

/-- A seat after the type of cones has been released. -/
def withoutCone (s : Seat) : Seat :=
  { s with registry :=
      ⟨s.registry.next + 1, s.registry.types.filter (·.1 != s.registry.next)⟩ }

theorem registerAll_layouts (s : Seat) :
    registerAll Cell.schema.layouts s = (.ok [s.registry.next], withCone s) := rfl

theorem lookup_withCone (s : Seat) :
    (withCone s).registry.layout s.registry.next = .ok Cone.layout := by
  rw [Registry.layout, withCone, List.lookup_cons_self]

theorem free_withCone (s : Seat) :
    (withCone s).free s.registry.next = (.ok (), withoutCone s) := by
  have hfree : (withCone s).registry.free s.registry.next = .ok (withoutCone s).registry := by
    rw [Registry.free, lookup_withCone]
    show Except.ok (Registry.mk _
      (((s.registry.next, Cone.layout) :: s.registry.types).filter _)) = _
    rw [List.filter_cons_of_neg (by simp)]
    rfl
  rw [Seat.free, hfree]
  rfl

theorem closing_cone (s : Seat) (result : Except ExchangeError Report) :
    closing [s.registry.next] result (withCone s) = (result, withoutCone s) := by
  have hall : freeAll [s.registry.next] (withCone s) = (.ok (), withoutCone s) := by
    have hfree : Endpoint.free s.registry.next (withCone s) = _ := free_withCone s
    rw [freeAll, hfree]
    rfl
  rw [closing, hall]

/-! ## The buffer

The cone is the only composite type of a cell, so that the capacity is known from its one handle. A
buffer that cannot be had is the only reason why a worker cannot begin.
-/

/-- The capacity is that of a round, unless it leaves the 64-bit range. -/
theorem capacity_schema (s : Seat) (limit : Nat) :
    Cell.schema.capacity (withCone s) [s.registry.next] limit =
      faulting (checked (roundBytes limit)) := by
  refine Schema.capacity_eq (fun _ _ => rfl) (by decide) ?_ limit
  rw [List.mapM_cons, lookup_withCone]
  rfl

/-- A worker at the start of an exchange. -/
def Worker.fresh (task : Task) (rank : Nat) : Worker where
  rank := rank
  owned := task.owned
  buffer := ⟨[], List.replicate (roundBytes task.limit) 0⟩
  cells := task.cells
  sent := 0
  received := 0
  failure := none
  events := []

theorem capacity_fresh (task : Task) (rank : Nat) :
    (Worker.fresh task rank).buffer.capacity = roundBytes task.limit := by
  simp [Worker.fresh, Buffer.capacity]

/-- A worker can begin exactly when its buffer can be had. -/
theorem ready_eq_ok_iff (task : Task) (s : Seat) (r : Ready) :
    ready task s = .ok r ↔ roundBytes task.limit < Buffer.limit ∧
      r = ⟨[s.registry.next], .fresh task s.rank, withCone s⟩ := by
  unfold ready opening
  rw [registerAll_layouts]
  dsimp only
  rw [capacity_schema]
  by_cases hrange : roundBytes task.limit < Count.range64
  · rw [faulting_checked hrange]
    dsimp only
    rw [Buffer.allocate]
    by_cases hlimit : roundBytes task.limit < Buffer.limit
    · rw [if_pos hlimit]
      simp only [hlimit, true_and, Except.ok.injEq]
      exact eq_comm
    · rw [if_neg hlimit]
      simp [hlimit]
  · -- A capacity beyond 64 bits is beyond what a buffer can have, too.
    have hlimit : ¬ roundBytes task.limit < Buffer.limit := by
      unfold Buffer.limit
      unfold Count.range64 at hrange
      omega
    rw [faulting_checked_overflow (by omega)]
    simp [hlimit]

/-- What an exchange leaves on a worker that has gone through all rounds. -/
def Outcome.ofWorker (rounds : Nat) (s : Seat) (w : Worker) : Outcome Seat :=
  ⟨reported (w.verdict rounds), w.cells, logOf w.events (w.verdict rounds), withoutCone s⟩

theorem late_cone (rounds : Nat) (s : Seat) (w : Worker) :
    Outcome.late rounds [s.registry.next] w (withCone s) = .ofWorker rounds s w := by
  rw [Outcome.late, closing_cone]
  rfl

/-! ## The rounds of a group

If all workers are ready, the exchange of the group is its rounds from fresh workers on.
-/

/-- The workers of a group at the start of an exchange. -/
def freshWorkers (members : List (Task × Seat)) : List Worker :=
  members.map fun (task, seat) => .fresh task seat.rank

theorem fits_of_ready {members : List (Task × Seat)} {opened : List Ready}
    (h : members.mapM (fun (task, seat) => ready task seat) = .ok opened) :
    ∀ m ∈ members, roundBytes m.1.limit < Buffer.limit := by
  intro m hm
  obtain ⟨r, hr⟩ := exists_ok_of_mapM h m hm
  exact ((ready_eq_ok_iff m.1 m.2 r).mp hr).1

theorem mapM_ready {members : List (Task × Seat)}
    (h : ∀ m ∈ members, roundBytes m.1.limit < Buffer.limit) :
    members.mapM (fun (task, seat) => ready task seat) =
      .ok (members.map fun (task, seat) =>
        ⟨[seat.registry.next], .fresh task seat.rank, withCone seat⟩) :=
  mapM_eq_ok fun m hm => (ready_eq_ok_iff m.1 m.2 _).mpr ⟨h m hm, rfl⟩

theorem room_of_synchronizeGroup {members : List (Task × Seat)} {outcomes : List (Outcome Seat)}
    (h : synchronizeGroup members = .ok outcomes) :
    ∀ m ∈ members, roundBytes m.1.limit < Buffer.limit := by
  rw [synchronizeGroup] at h
  cases hopened : members.mapM (fun (task, seat) => ready task seat) with
  | error cause =>
      rw [hopened] at h
      cases h
  | ok opened => exact fits_of_ready hopened

/-- An exchange of a group is its rounds. -/
theorem synchronizeGroup_eq {members : List (Task × Seat)}
    (h : ∀ m ∈ members, roundBytes m.1.limit < Buffer.limit) :
    synchronizeGroup members = .ok
      (List.zipWith (fun m w => .ofWorker members.length m.2 w) members
        (groupRounds (freshWorkers members))) := by
  rw [synchronizeGroup, mapM_ready h, ok_bind]
  dsimp only
  rw [List.map_map, List.zipWith_map_left]
  apply congrArg Except.ok
  apply congrArg fun f => List.zipWith f members (groupRounds (freshWorkers members))
  funext m w
  exact late_cone members.length m.2 w

end Exchange

end StellarWind
