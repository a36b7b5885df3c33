import Mathlib.Algebra.Order.BigOperators.Group.Finset
import Mathlib.Data.Finset.Card
import StellarWind.Exchange.Hub

/-!
# Every schedule of a broadcast

A call is six steps: enter, arrive, leave, receive, arrive, leave. Seen from the
barrier it is three steps twice, an act at the slot, an arrival and a departure. So a
worker is known by the number of steps that it has taken (`memberAt`), and in
generation `g` of the barrier every worker has taken at least `3 * g - 1` and at most
`3 * g + 2` steps: the workers at the lower end have not left the last generation
yet, and those at the upper end wait in this one.

Because of that nobody can be two acts ahead of another, the slot holds the bytes
of the current call as long as someone may take them (`Progress`), and there is
always somebody who can go on.
-/

namespace StellarWind

namespace Hub

/-! ## What a worker looks like after a number of steps

A call takes six steps, three to each of its two barriers. The whole state of a worker is a function
of the number of steps that it has taken, so that a state of the group is known from one number for
each worker.
-/

/-- Call `k` of a worker. -/
def callAt (calls : List (List Call)) (rank k : Nat) : Option Call := calls[rank]?.bind (·[k]?)

/-- The bytes with which the sender enters call `k`. -/
def sentIn (calls : List (List Call)) (k root : Nat) : List UInt8 :=
  ((callAt calls root k).map (·.bytes)).getD []

/-- What a worker gets from a call in which `sent` is sent. -/
def Call.answer (call : Call) (rank : Nat) (sent : List UInt8) : Answer :=
  if rank = call.root then ⟨none, call.bytes⟩
  else if sent.length = call.bytes.length then ⟨none, sent⟩
  else ⟨some (.sizeMismatch call.root call.bytes.length sent.length), call.bytes⟩

/-- What a worker gets from its calls. -/
def answersOf (calls : List (List Call)) (rank : Nat) (cs : List Call) : List Answer :=
  cs.mapIdx fun k call => call.answer rank (sentIn calls k call.root)

/-- The stage of a worker that has taken `p` steps and gets `answer` from its current
call. -/
def stageAt (answer : Answer) (p : Nat) : Stage :=
  match p % 6 with
  | 0 => .enter
  | 1 => .arriveFirst
  | 2 => .leaveFirst (p / 3)
  | 3 => .receive
  | 4 => .arriveSecond answer
  | _ => .leaveSecond (p / 3) answer

/-- A worker that has taken `p` steps. -/
def memberAt (calls : List (List Call)) (rank : Nat) (cs : List Call) (p : Nat) : Member where
  stage := stageAt ((answersOf calls rank cs)[p / 6]?.getD ⟨none, []⟩) p
  calls := cs.drop (p / 6)
  answers := (answersOf calls rank cs).take (p / 6)

/-- All workers, of which worker `i` has taken `p i` steps. -/
def membersAt (calls : List (List Call)) (p : Nat → Nat) : List Member :=
  calls.mapIdx fun i cs => memberAt calls i cs (p i)

section

variable {calls : List (List Call)} {p : Nat → Nat}

theorem receive_eq (s : State) (rank : Nat) (call : Call) :
    s.receive rank call = call.answer rank s.slot := rfl

@[simp] theorem length_answersOf (rank : Nat) (cs : List Call) :
    (answersOf calls rank cs).length = cs.length := by
  simp [answersOf]

theorem getElem?_answersOf (rank : Nat) (cs : List Call) (k : Nat) :
    (answersOf calls rank cs)[k]? =
      cs[k]?.map fun call => call.answer rank (sentIn calls k call.root) := by
  simp [answersOf]

theorem getElem?_membersAt (i : Nat) :
    (membersAt calls p)[i]? = calls[i]?.map fun cs => memberAt calls i cs (p i) := by
  simp [membersAt]

/-- One more step of one worker. -/
theorem set_membersAt {i : Nat} {cs : List Call} (h : calls[i]? = some cs) :
    (membersAt calls p).set i (memberAt calls i cs (p i + 1)) =
      membersAt calls (Function.update p i (p i + 1)) := by
  apply List.ext_getElem?
  intro j
  rw [getElem?_membersAt]
  by_cases hj : j = i
  · subst hj
    have hlt : j < (membersAt calls p).length := by
      have := (List.getElem?_eq_some_iff.mp h).1
      simpa [membersAt] using this
    rw [List.getElem?_set_self hlt, h, Function.update_self]
    rfl
  · rw [List.getElem?_set_ne (Ne.symm hj), getElem?_membersAt, Function.update_of_ne hj]

/-- A worker inside a call. -/
theorem memberAt_eq {rank n : Nat} {cs : List Call} {call : Call} (hcall : cs[n / 6]? = some call) :
    memberAt calls rank cs n = ⟨stageAt (call.answer rank (sentIn calls (n / 6) call.root)) n,
      call :: cs.drop (n / 6 + 1), (answersOf calls rank cs).take (n / 6)⟩ := by
  have hdrop : cs.drop (n / 6) = call :: cs.drop (n / 6 + 1) := by
    obtain ⟨hlt, rfl⟩ := List.getElem?_eq_some_iff.mp hcall
    exact List.drop_eq_getElem_cons hlt
  simp [memberAt, getElem?_answersOf, hcall, hdrop]

/-- Within a call only the stage changes. -/
theorem memberAt_succ {rank n : Nat} {cs : List Call} {call : Call} (hcall : cs[n / 6]? = some call)
    (h : n % 6 ≠ 5) :
    memberAt calls rank cs (n + 1) =
      ⟨stageAt (call.answer rank (sentIn calls (n / 6) call.root)) (n + 1),
        call :: cs.drop (n / 6 + 1), (answersOf calls rank cs).take (n / 6)⟩ := by
  have hdiv : (n + 1) / 6 = n / 6 := by omega
  have hnext : memberAt calls rank cs (n + 1) = _ := memberAt_eq (by rwa [hdiv])
  rwa [hdiv] at hnext

/-- The last step of a call leads to the next one. -/
theorem memberAt_succ_last {rank n : Nat} {cs : List Call} {call : Call}
    (hcall : cs[n / 6]? = some call) (h : n % 6 = 5) :
    memberAt calls rank cs (n + 1) = ⟨.enter, cs.drop (n / 6 + 1),
      (answersOf calls rank cs).take (n / 6) ++
        [call.answer rank (sentIn calls (n / 6) call.root)]⟩ := by
  have hdiv : (n + 1) / 6 = n / 6 + 1 := by omega
  have hmod : (n + 1) % 6 = 0 := by omega
  simp [memberAt, hdiv, stageAt, hmod, List.take_add_one, getElem?_answersOf, hcall]

/-! ## The three kinds of steps

The stages that a step leads from and to depend on the number of steps taken modulo six. What it
does to the group depends on it modulo three only: an act may change the slot, an arrival counts
at the barrier, and a departure changes nothing but the worker.
-/

section

variable {s : State} {i : Nat} {cs : List Call} {call : Call}

theorem size_membersAt (hm : s.members = membersAt calls p) : s.size = calls.length := by
  rw [State.size, hm, membersAt, List.length_mapIdx]

theorem getElem?_members (hm : s.members = membersAt calls p) (hi : calls[i]? = some cs)
    (hcall : cs[p i / 6]? = some call) :
    s.members[i]? = some ⟨stageAt (call.answer i (sentIn calls (p i / 6) call.root)) (p i),
      call :: cs.drop (p i / 6 + 1), (answersOf calls i cs).take (p i / 6)⟩ := by
  rw [hm, getElem?_membersAt, hi, ← memberAt_eq hcall]
  rfl

/-- At the slot: the sender puts its bytes in, or another worker takes them. -/
theorem step?_act (hm : s.members = membersAt calls p) (hi : calls[i]? = some cs)
    (hcall : cs[p i / 6]? = some call) (hroot : call.root < calls.length) (h : p i % 3 = 0)
    (hslot : p i % 6 = 3 → s.slot = sentIn calls (p i / 6) call.root) :
    s.step? i = some { s with
      slot := if p i % 6 = 0 ∧ i = call.root then call.bytes else s.slot
      members := membersAt calls (Function.update p i (p i + 1)) } := by
  unfold State.step?
  rw [getElem?_members hm hi hcall, ← set_membersAt hi, ← hm, memberAt_succ hcall (by omega)]
  -- The first act of a call is to put bytes into the slot, the second to take them.
  rcases (by omega : p i % 6 = 0 ∨ p i % 6 = 3) with h6 | h6
  · have hnext : (p i + 1) % 6 = 1 := by omega
    simp only [stageAt, h6, hnext]
    rw [if_pos (by rwa [size_membersAt hm])]
    by_cases hr : i = call.root
    · rw [if_pos hr, if_pos ⟨trivial, hr⟩]
      rfl
    · rw [if_neg hr, if_neg (by simp [hr])]
      rfl
  · have hnext : (p i + 1) % 6 = 4 := by omega
    simp only [stageAt, h6, hnext, receive_eq, ← hslot h6]
    rw [if_neg (by simp)]
    rfl

theorem step?_arrive (hm : s.members = membersAt calls p) (hi : calls[i]? = some cs)
    (hcall : cs[p i / 6]? = some call) (hg : p i / 3 = s.generation) (h : p i % 3 = 1) :
    s.step? i = some { s.arrive with
      members := membersAt calls (Function.update p i (p i + 1)) } := by
  have harrive : s.arrive.members = s.members := by
    unfold State.arrive
    split <;> rfl
  have hnext : (p i + 1) / 3 = s.generation := by omega
  unfold State.step?
  rw [getElem?_members hm hi hcall, ← set_membersAt hi, ← hm, memberAt_succ hcall (by omega)]
  rcases (by omega : p i % 6 = 1 ∨ p i % 6 = 4) with h6 | h6
  · have hmod : (p i + 1) % 6 = 2 := by omega
    simp only [stageAt, h6, hmod, hnext, State.setMember, harrive]
  · have hmod : (p i + 1) % 6 = 5 := by omega
    simp only [stageAt, h6, hmod, hnext, State.setMember, harrive]

theorem step?_leave (hm : s.members = membersAt calls p) (hi : calls[i]? = some cs)
    (hcall : cs[p i / 6]? = some call) (h : p i % 3 = 2) :
    s.step? i = if p i / 3 = s.generation then none else some { s with
      members := membersAt calls (Function.update p i (p i + 1)) } := by
  unfold State.step?
  rw [getElem?_members hm hi hcall, ← set_membersAt hi, ← hm]
  rcases (by omega : p i % 6 = 2 ∨ p i % 6 = 5) with h6 | h6
  · have hmod : (p i + 1) % 6 = 3 := by omega
    rw [memberAt_succ hcall (by omega)]
    simp only [stageAt, h6, hmod, State.setMember]
  · rw [memberAt_succ_last hcall h6]
    simp only [stageAt, h6, State.setMember]

end

end

/-! ## Where a group can stand

`Progress.near` is the invariant that everything follows from. It says how far the workers can be
apart, so that the conditions on the slot and on the barrier come down to linear arithmetic with
the numbers of steps.
-/

/-- All workers name the same sender in the same call, and it is one of them. -/
structure Agreed (calls : List (List Call)) (roots : List Nat) : Prop where
  nonempty : 0 < calls.length
  same : ∀ cs ∈ calls, cs.map (·.root) = roots
  inside : ∀ root ∈ roots, root < calls.length

/-- The workers that wait in generation `g` of the barrier. -/
def waiting (workers g : Nat) (p : Nat → Nat) : Finset Nat :=
  (Finset.range workers).filter fun i => p i = 3 * g + 2

/-- A group whose worker `i` has taken `p i` steps. -/
structure Progress (calls : List (List Call)) (roots : List Nat) (p : Nat → Nat) (s : State) :
    Prop where
  members : s.members = membersAt calls p
  near : ∀ i < calls.length, 3 * s.generation ≤ p i + 1 ∧ p i ≤ 3 * s.generation + 2
  arrived : s.arrived = (waiting calls.length s.generation p).card
  shut : s.arrived < calls.length
  slot : ∀ k root, roots[k]? = some root → 6 * k + 1 ≤ p root → s.generation ≤ 2 * k + 1 →
    s.slot = sentIn calls k root

section

variable {calls : List (List Call)} {roots : List Nat} {p : Nat → Nat} {s : State} {i : Nat}

theorem waiting_update_of_ne {g : Nat} (hi : p i ≠ 3 * g + 2) (hnext : p i ≠ 3 * g + 1)
    (workers : Nat) :
    waiting workers g (Function.update p i (p i + 1)) = waiting workers g p := by
  apply Finset.filter_congr
  intro j _
  by_cases hj : j = i
  · subst hj
    rw [Function.update_self]
    omega
  · rw [Function.update_of_ne hj]

theorem card_waiting_update {g workers : Nat} (hi : i < workers) (hnext : p i = 3 * g + 1) :
    (waiting workers g (Function.update p i (p i + 1))).card = (waiting workers g p).card + 1 := by
  have hnot : i ∉ waiting workers g p := by simp [waiting, hnext]
  rw [← Finset.card_insert_of_notMem hnot]
  congr 1
  ext j
  by_cases hj : j = i
  · subst hj
    simp [waiting, hi, hnext]
  · simp [waiting, hj]

theorem Agreed.exists_call (ha : Agreed calls roots) {cs : List Call} (hi : calls[i]? = some cs)
    {k : Nat} (hk : k < roots.length) :
    ∃ call, cs[k]? = some call ∧ roots[k]? = some call.root := by
  have hmap := ha.same cs (List.mem_of_getElem? hi)
  have hlt : k < cs.length := by
    rw [← hmap, List.length_map] at hk
    exact hk
  refine ⟨cs[k], List.getElem?_eq_getElem hlt, ?_⟩
  rw [← hmap, List.getElem?_map, List.getElem?_eq_getElem hlt]
  rfl

theorem sentIn_eq {cs : List Call} (hi : calls[i]? = some cs) {k : Nat} {call : Call}
    (hcall : cs[k]? = some call) : sentIn calls k i = call.bytes := by
  simp [sentIn, callAt, hi, hcall]

theorem near_update {g : Nat}
    (h : ∀ j < calls.length, 3 * g ≤ p j + 1 ∧ p j ≤ 3 * g + 2) (hi : p i ≠ 3 * g + 2)
    (j : Nat) (hj : j < calls.length) :
    3 * g ≤ Function.update p i (p i + 1) j + 1 ∧
      Function.update p i (p i + 1) j ≤ 3 * g + 2 := by
  have := h j hj
  by_cases hji : j = i
  · subst hji
    rw [Function.update_self]
    omega
  · rw [Function.update_of_ne hji]
    exact this

/-- Only an act brings a worker past the point where it has put its bytes. -/
theorem le_of_le_update {k j : Nat} (hi : p i % 3 ≠ 0)
    (h : 6 * k + 1 ≤ Function.update p i (p i + 1) j) : 6 * k + 1 ≤ p j := by
  by_cases hj : j = i
  · subst hj
    rw [Function.update_self] at h
    omega
  · rwa [Function.update_of_ne hj] at h

/-! ## What a step keeps

One lemma for each kind of step. An arrival and a departure leave the slot alone, and since only an
act brings a worker past the point where it has put its bytes, they open no call either.
-/

theorem Progress.act (ha : Agreed calls roots) (h : Progress calls roots p s)
    (hi : i < calls.length) (hp : p i < 6 * roots.length) (hact : p i % 3 = 0) :
    ∃ s', s.step? i = some s' ∧ Progress calls roots (Function.update p i (p i + 1)) s' := by
  have hcs := List.getElem?_eq_getElem hi
  obtain ⟨call, hcall, hroot⟩ := ha.exists_call hcs (k := p i / 6) (by omega)
  have hinside : call.root < calls.length := ha.inside _ (List.mem_of_getElem? hroot)
  have hnear := h.near i hi
  have hnearRoot := h.near call.root hinside
  -- A worker that takes bytes is past the first barrier of the call, and so is the sender.
  have hslot : p i % 6 = 3 → s.slot = sentIn calls (p i / 6) call.root := by
    intro h6
    exact h.slot _ _ hroot (by omega) (by omega)
  refine ⟨_, step?_act h.members hcs hcall hinside hact hslot, rfl, ?_, ?_, h.shut, ?_⟩
  · exact near_update h.near (by omega)
  · rw [waiting_update_of_ne (by omega) (by omega)]
    exact h.arrived
  · intro k root hk hle hgen
    dsimp only at hgen ⊢
    have hrootNear := near_update h.near (i := i) (by omega) root
      (ha.inside _ (List.mem_of_getElem? hk))
    by_cases hput : p i % 6 = 0 ∧ i = call.root
    · -- The sender of the current call puts its bytes, and no other call is open.
      obtain rfl : k = p i / 6 := by omega
      obtain rfl : root = i := by
        rw [hroot] at hk
        exact (Option.some.inj hk).symm.trans hput.2.symm
      rw [if_pos hput, sentIn_eq hcs hcall]
    · rw [if_neg hput]
      refine h.slot k root hk ?_ hgen
      by_cases hri : root = i
      · subst hri
        rw [Function.update_self] at hle
        by_contra hlt
        obtain rfl : k = p root / 6 := by omega
        rw [hroot] at hk
        exact hput ⟨by omega, (Option.some.inj hk).symm⟩
      · rwa [Function.update_of_ne hri] at hle

theorem Progress.arrive (ha : Agreed calls roots) (h : Progress calls roots p s)
    (hi : i < calls.length) (hp : p i < 6 * roots.length) (harrive : p i % 3 = 1) :
    ∃ s', s.step? i = some s' ∧ Progress calls roots (Function.update p i (p i + 1)) s' := by
  have hcs := List.getElem?_eq_getElem hi
  obtain ⟨call, hcall, -⟩ := ha.exists_call hcs (k := p i / 6) (by omega)
  have hnear := h.near i hi
  have hcard := card_waiting_update hi (by omega : p i = 3 * s.generation + 1)
  rw [← h.arrived] at hcard
  refine ⟨_, step?_arrive h.members hcs hcall (by omega) harrive, ?_⟩
  unfold State.arrive
  rw [size_membersAt h.members]
  by_cases hlast : s.arrived + 1 < calls.length
  · -- The barrier stays shut, with one more worker in front of it.
    rw [if_pos hlast]
    refine ⟨rfl, near_update h.near (by omega), hcard.symm, hlast, ?_⟩
    intro k root hk hle hgen
    exact h.slot k root hk (le_of_le_update (by omega) hle) hgen
  · -- The last one opens the barrier, and then everyone is at the end of the generation.
    have hall : ∀ j < calls.length, Function.update p i (p i + 1) j = 3 * s.generation + 2 := by
      have hfull : (waiting calls.length s.generation (Function.update p i (p i + 1))).card =
          (Finset.range calls.length).card := by
        have := h.shut
        rw [hcard, Finset.card_range]
        omega
      intro j hj
      exact Finset.filter_card_eq hfull j (Finset.mem_range.mpr hj)
    rw [if_neg hlast]
    refine ⟨rfl, ?_, ?_, ha.nonempty, ?_⟩
    · intro j hj
      have := hall j hj
      dsimp only
      omega
    · symm
      rw [Finset.card_eq_zero]
      apply Finset.filter_eq_empty_iff.mpr
      intro j hj
      have := hall j (Finset.mem_range.mp hj)
      dsimp only
      omega
    · intro k root hk hle hgen
      refine h.slot k root hk (le_of_le_update (by omega) hle) ?_
      dsimp only at hgen
      omega

theorem Progress.leave (ha : Agreed calls roots) (h : Progress calls roots p s)
    (hi : i < calls.length) (hp : p i < 6 * roots.length) (hleave : p i % 3 = 2)
    (hfree : p i ≠ 3 * s.generation + 2) :
    ∃ s', s.step? i = some s' ∧ Progress calls roots (Function.update p i (p i + 1)) s' := by
  have hcs := List.getElem?_eq_getElem hi
  obtain ⟨call, hcall, -⟩ := ha.exists_call hcs (k := p i / 6) (by omega)
  have hnear := h.near i hi
  have hstep := step?_leave h.members hcs hcall hleave
  rw [if_neg (by omega)] at hstep
  refine ⟨_, hstep, rfl, near_update h.near hfree, ?_, h.shut, ?_⟩
  · rw [waiting_update_of_ne hfree (by omega)]
    exact h.arrived
  · intro k root hk hle hgen
    exact h.slot k root hk (le_of_le_update (by omega) hle) hgen

/-! ### Steps of any kind

What a worker does next can be told from the number of its steps: it acts, arrives at a barrier or
leaves it. Only the last has to wait.
-/

/-- A worker that is not done and does not wait takes its next step. -/
theorem Progress.step (ha : Agreed calls roots) (h : Progress calls roots p s)
    (hi : i < calls.length) (hp : p i < 6 * roots.length) (hfree : p i ≠ 3 * s.generation + 2) :
    ∃ s', s.step? i = some s' ∧ Progress calls roots (Function.update p i (p i + 1)) s' := by
  rcases (by omega : p i % 3 = 0 ∨ p i % 3 = 1 ∨ p i % 3 = 2) with h3 | h3 | h3
  · exact h.act ha hi hp h3
  · exact h.arrive ha hi hp h3
  · exact h.leave ha hi hp h3 hfree

theorem Agreed.length_eq (ha : Agreed calls roots) {cs : List Call} (hi : calls[i]? = some cs) :
    cs.length = roots.length := by
  rw [← ha.same cs (List.mem_of_getElem? hi), List.length_map]

/-- No other worker can take a step. -/
theorem Progress.of_step? (ha : Agreed calls roots) (h : Progress calls roots p s) {s' : State}
    (hs : s.step? i = some s') :
    i < calls.length ∧ p i < 6 * roots.length ∧ p i ≠ 3 * s.generation + 2 := by
  -- Otherwise there is no such worker, or it has no calls left, or the barrier is shut.
  have hi : i < calls.length := by
    by_contra hge
    have hnone : s.members[i]? = none := by
      rw [h.members, getElem?_membersAt, List.getElem?_eq_none (by omega)]
      rfl
    unfold State.step? at hs
    rw [hnone] at hs
    cases hs
  have hcs := List.getElem?_eq_getElem hi
  have hp : p i < 6 * roots.length := by
    by_contra hge
    have hdone : calls[i].drop (p i / 6) = [] := by
      apply List.drop_eq_nil_of_le
      rw [ha.length_eq hcs]
      omega
    unfold State.step? at hs
    rw [h.members, getElem?_membersAt, hcs] at hs
    simp [memberAt, hdone] at hs
  refine ⟨hi, hp, fun hwait => ?_⟩
  obtain ⟨call, hcall, -⟩ := ha.exists_call hcs (k := p i / 6) (by omega)
  rw [step?_leave h.members hcs hcall (by omega), if_pos (by omega)] at hs
  cases hs

/-! ## Whole runs

The invariant holds at the start and along every schedule. A group that is not done has somebody
who can go on, and every step uses up one of the steps that are left, so that from everywhere some
schedule leads to the end.
-/

theorem progress_start (ha : Agreed calls roots) :
    Progress calls roots (fun _ => 0) (start calls) where
  members := by
    apply List.ext_getElem?
    intro i
    rw [getElem?_membersAt]
    simp [start, memberAt, stageAt]
  near := by
    intro i _
    simp [start]
  arrived := by
    simp [start, waiting]
  shut := ha.nonempty
  slot := by
    intro k root _ hle
    omega

theorem Progress.run (ha : Agreed calls roots) (h : Progress calls roots p s)
    (schedule : List Nat) : ∃ p', Progress calls roots p' (s.run schedule) := by
  induction schedule generalizing p s with
  | nil => exact ⟨p, h⟩
  | cons rank rest ih =>
      show ∃ p', Progress calls roots p' (((s.step? rank).getD s).run rest)
      cases hs : s.step? rank with
      | none => exact ih h
      | some s' =>
          obtain ⟨hi, hp, hfree⟩ := h.of_step? ha hs
          obtain ⟨s'', hs', hnext⟩ := h.step ha hi hp hfree
          obtain rfl : s' = s'' := Option.some.inj (hs.symm.trans hs')
          exact ih hnext

/-! ## No group is stuck

As long as calls are left there is a worker that is not held up by the barrier. A step leaves the
group one step less to take, so that some schedule brings it to the end.
-/

theorem Progress.isDone_iff (ha : Agreed calls roots) (h : Progress calls roots p s) :
    s.isDone = true ↔ ∀ i < calls.length, 6 * roots.length ≤ p i := by
  -- A worker is at its end when it has taken the six steps of each of its calls.
  have hcalls : ∀ i (hi : i < calls.length),
      (memberAt calls i calls[i] (p i)).calls.isEmpty = true ↔ 6 * roots.length ≤ p i := by
    intro i hi
    have hlen := ha.length_eq (List.getElem?_eq_getElem hi)
    rw [memberAt, List.isEmpty_iff, List.drop_eq_nil_iff, hlen]
    omega
  rw [State.isDone, h.members, List.all_eq_true]
  constructor
  · intro hall i hi
    refine (hcalls i hi).mp (hall _ (List.mem_of_getElem? (i := i) ?_))
    rw [getElem?_membersAt, List.getElem?_eq_getElem hi]
    rfl
  · intro hall m hm
    obtain ⟨i, hget⟩ := List.getElem?_of_mem hm
    rw [getElem?_membersAt] at hget
    obtain ⟨cs, hcs, rfl⟩ := Option.map_eq_some_iff.mp hget
    obtain ⟨hi, rfl⟩ := List.getElem?_eq_some_iff.mp hcs
    exact (hcalls i hi).mpr (hall i hi)

/-- As long as a call is open somebody can go on: not everyone waits, and who is done
is not behind those who wait. -/
theorem Progress.exists_free (ha : Agreed calls roots) (h : Progress calls roots p s)
    (hopen : s.isDone = false) :
    ∃ i < calls.length, p i < 6 * roots.length ∧ p i ≠ 3 * s.generation + 2 := by
  obtain ⟨i, hi, hp⟩ : ∃ i < calls.length, p i < 6 * roots.length := by
    by_contra hnone
    push Not at hnone
    rw [(h.isDone_iff ha).mpr hnone] at hopen
    cases hopen
  by_contra hstuck
  push Not at hstuck
  have hwait := hstuck i hi hp
  -- Everyone is at least where worker `i` waits, so that all wait.
  have hall : waiting calls.length s.generation p = Finset.range calls.length := by
    apply Finset.filter_true_of_mem
    intro j hj
    have hnear := h.near j (Finset.mem_range.mp hj)
    exact hstuck j (Finset.mem_range.mp hj) (by omega)
  have hcard := h.arrived
  rw [hall, Finset.card_range] at hcard
  have := h.shut
  omega

/-- The steps that are left to all workers. -/
def stepsLeft (workers calls : Nat) (p : Nat → Nat) : Nat :=
  ∑ i ∈ Finset.range workers, (6 * calls - p i)

theorem stepsLeft_update {workers n : Nat} (hi : i < workers) (hp : p i < 6 * n) :
    stepsLeft workers n (Function.update p i (p i + 1)) < stepsLeft workers n p := by
  apply Finset.sum_lt_sum
  · intro j _
    by_cases hj : j = i
    · subst hj
      rw [Function.update_self]
      omega
    · rw [Function.update_of_ne hj]
  · refine ⟨i, Finset.mem_range.mpr hi, ?_⟩
    rw [Function.update_self]
    omega

/-- From wherever a group stands its calls can be finished. -/
theorem Progress.exists_isDone (ha : Agreed calls roots) (h : Progress calls roots p s) :
    ∃ later, (s.run later).isDone = true := by
  induction hn : stepsLeft calls.length roots.length p using Nat.strongRecOn generalizing p s with
  | _ n ih =>
      -- Strong induction on the steps that are left to all workers together.
      by_cases hdone : s.isDone = true
      · exact ⟨[], hdone⟩
      · obtain ⟨i, hi, hp, hfree⟩ := h.exists_free ha (Bool.eq_false_iff.mpr hdone)
        obtain ⟨s', hs, hnext⟩ := h.step ha hi hp hfree
        obtain ⟨later, hlater⟩ := ih _ (hn ▸ stepsLeft_update hi hp) hnext rfl
        refine ⟨i :: later, ?_⟩
        show (((s.step? i).getD s).run later).isDone = true
        rw [hs]
        exact hlater

/-! ## Every schedule

A schedule only decides how far each worker is. What a worker has got by then does not depend on it.
-/

/-- What a worker has got so far is what its calls give, whatever the schedule. -/
theorem Progress.answers (ha : Agreed calls roots) (h : Progress calls roots p s) {m : Member}
    (hm : s.members[i]? = some m) :
    m.answers.length + m.calls.length = roots.length ∧
      ∀ (k : Nat) (a : Answer), m.answers[k]? = some a → ∃ own sender : Call,
        callAt calls i k = some own ∧ callAt calls own.root k = some sender ∧
          a = own.answer i sender.bytes := by
  rw [h.members, getElem?_membersAt] at hm
  obtain ⟨cs, hcs, rfl⟩ := Option.map_eq_some_iff.mp hm
  have hlen := ha.length_eq hcs
  constructor
  · simp only [memberAt, List.length_take, length_answersOf, List.length_drop, hlen]
    omega
  · intro k a hk
    have hk' : (answersOf calls i cs)[k]? = some a := by
      simp only [memberAt, List.getElem?_take] at hk
      split at hk
      · exact hk
      · cases hk
    rw [getElem?_answersOf] at hk'
    obtain ⟨own, hown, rfl⟩ := Option.map_eq_some_iff.mp hk'
    have hlt : k < roots.length := hlen ▸ (List.getElem?_eq_some_iff.mp hown).1
    obtain ⟨call, hcall, hroot⟩ := ha.exists_call hcs hlt
    obtain rfl : own = call := Option.some.inj (hown.symm.trans hcall)
    -- The sender makes a call in the same round, because all workers name the same senders.
    have hinside := List.getElem?_eq_getElem (ha.inside _ (List.mem_of_getElem? hroot))
    obtain ⟨sender, hsender, -⟩ := ha.exists_call hinside hlt
    refine ⟨own, sender, by simp [callAt, hcs, hown], by simp [callAt, hinside, hsender], ?_⟩
    rw [sentIn_eq hinside hsender]

end

/-- Whatever the schedule, every call that has ended gave the sender its own bytes, gave
the sender's bytes to every worker with as many bytes, and a mismatch to all others;
and no group that has calls left is stuck. -/
theorem run_broadcasts {calls : List (List Call)} {roots : List Nat} (hworkers : 0 < calls.length)
    (hcalls : ∀ cs ∈ calls, cs.map (·.root) = roots) (hroots : ∀ root ∈ roots, root < calls.length)
    (schedule : List Nat) :
    ((start calls).run schedule).members.length = calls.length ∧
    (∀ (i : Nat) (m : Member), ((start calls).run schedule).members[i]? = some m →
      m.answers.length + m.calls.length = roots.length ∧
      ∀ (k : Nat) (a : Answer), m.answers[k]? = some a → ∃ own sender : Call,
        callAt calls i k = some own ∧ callAt calls own.root k = some sender ∧
        (i = own.root → a = ⟨none, own.bytes⟩) ∧
        (i ≠ own.root → own.bytes.length = sender.bytes.length → a = ⟨none, sender.bytes⟩) ∧
        (i ≠ own.root → own.bytes.length ≠ sender.bytes.length →
          a = ⟨some (.sizeMismatch own.root own.bytes.length sender.bytes.length), own.bytes⟩)) ∧
    (((start calls).run schedule).isDone = false →
      ∃ rank, (((start calls).run schedule).step? rank).isSome) ∧
    ∃ later, (((start calls).run schedule).run later).isDone = true := by
  have ha : Agreed calls roots := ⟨hworkers, hcalls, hroots⟩
  -- The run has made some progress, and everything is read off from how far each worker is.
  obtain ⟨p, h⟩ := (progress_start ha).run ha schedule
  refine ⟨size_membersAt h.members, ?_, ?_, h.exists_isDone ha⟩
  · intro i m hm
    obtain ⟨hlen, hanswers⟩ := h.answers ha hm
    refine ⟨hlen, fun k a hk => ?_⟩
    obtain ⟨own, sender, hown, hsender, rfl⟩ := hanswers k a hk
    refine ⟨own, sender, hown, hsender, ?_, ?_, ?_⟩
    · intro hi
      rw [Call.answer, if_pos hi]
    · intro hi hlen
      rw [Call.answer, if_neg hi, if_pos hlen.symm]
    · intro hi hlen
      rw [Call.answer, if_neg hi, if_neg (Ne.symm hlen)]
  · intro hopen
    obtain ⟨i, hi, hp, hfree⟩ := h.exists_free ha hopen
    obtain ⟨s', hs, -⟩ := h.step ha hi hp hfree
    exact ⟨i, by rw [hs]; rfl⟩

/-- Two calls of three workers; in the first one worker 2 has too few bytes. -/
def relay : List (List Call) :=
  [[⟨1, [0, 0]⟩, ⟨0, [5]⟩], [⟨1, [7, 8]⟩, ⟨0, [9]⟩], [⟨1, [1]⟩, ⟨0, [3]⟩]]

/-- Worker 0 has put its bytes for the second call when worker 2 leaves the first. -/
def hurried : List Nat := [0, 0, 1, 1, 2, 2, 0, 0, 0, 1, 1, 1, 2, 2, 2, 0, 0, 0, 2]

theorem run_broadcasts_hurried :
    ((start relay).run hurried).slot = [5] ∧
    (∃ m : Member, ((start relay).run hurried).members[2]? = some m ∧
      m.answers[0]? = some ⟨some (.sizeMismatch 1 1 2), [1]⟩) ∧
    (∃ m : Member, ((start relay).run hurried).members[0]? = some m ∧
      m.answers[0]? = some ⟨none, [7, 8]⟩) ∧
    ∃ rank, (((start relay).run hurried).step? rank).isSome := by
  obtain ⟨-, hanswers, hfree, -⟩ := run_broadcasts (show 0 < relay.length by decide)
    (show ∀ cs ∈ relay, cs.map (·.root) = [1, 0] by decide) (by decide) hurried
  refine ⟨by decide, ⟨_, rfl, ?_⟩, ⟨_, rfl, ?_⟩, hfree (by decide)⟩
  · obtain ⟨own, sender, hown, hsender, -, -, hmismatch⟩ := (hanswers 2 _ rfl).2 0 _ rfl
    obtain rfl : (⟨1, [1]⟩ : Call) = own := Option.some.inj hown
    obtain rfl : (⟨1, [7, 8]⟩ : Call) = sender := Option.some.inj hsender
    exact congrArg some (hmismatch (by decide) (by decide))
  · obtain ⟨own, sender, hown, hsender, -, hsame, -⟩ := (hanswers 0 _ rfl).2 0 _ rfl
    obtain rfl : (⟨1, [0, 0]⟩ : Call) = own := Option.some.inj hown
    obtain rfl : (⟨1, [7, 8]⟩ : Call) = sender := Option.some.inj hsender
    exact congrArg some (hsame (by decide) (by decide))

end Hub

end StellarWind
