import StellarWind.Proofs.Exchange.Opening
import StellarWind.Proofs.Exchange.Turn

/-!
# A worker keeps step on any line

A line may refuse a broadcast with any error or let it pass, and in both cases it may leave any
bytes in the buffer. Whatever it does, a worker enters the round of every worker once and in
order, with its whole buffer, so that nobody waits for it in vain; it returns the first failure
that it met, and no cell changes after that (`synchronize_lockstep`).
-/

namespace StellarWind

namespace Exchange

/-- A channel that does as `respond` says, and takes down what it was asked. -/
structure Line (τ : Type) where
  seat : Seat
  state : τ
  /-- What becomes of a round, and the bytes that it leaves in the buffer. -/
  respond : List UInt8 → Nat → τ → (Except ExchangeError Unit × List UInt8) × τ
  keeps : ∀ bytes root state, (respond bytes root state).1.2.length = bytes.length
  /-- The rounds that were entered, with the bytes that were brought. -/
  asked : List (Nat × List UInt8)

variable {τ : Type}

namespace Line

def answer (l : Line τ) (bytes : List UInt8) (root : Nat) :
    Except ExchangeError Unit × List UInt8 :=
  (l.respond bytes root l.state).1

def after (l : Line τ) (bytes : List UInt8) (root : Nat) : Line τ :=
  { l with
    state := (l.respond bytes root l.state).2
    asked := l.asked ++ [(root, bytes)] }

def seated (l : Line τ) (s : Seat) : Line τ := { l with seat := s }

instance : Channel (Line τ) where
  rank l := l.seat.rank
  size l := l.seat.size
  register c l := let (result, seat) := l.seat.register c; (result, l.seated seat)
  free handle l := let (result, seat) := l.seat.free handle; (result, l.seated seat)
  compositeBytes l := l.seat.registry.bytes
  broadcast bytes root l :=
    ((l.answer bytes root).1.map fun () => (l.answer bytes root).2, l.after bytes root)
  leftover bytes root l := (l.answer bytes root).2

/-! ## Opening and closing

Both use the seat of a line and nothing else of it.
-/

theorem opening_eq (task : Task) (l : Line τ) (h : roundBytes task.limit < Buffer.limit) :
    opening task l = (.ok ([l.seat.registry.next], .ok (.fresh task l.seat.rank)),
      l.seated (withCone l.seat)) := by
  have hregister : registerAll Cell.schema.layouts l =
      (.ok [l.seat.registry.next], l.seated (withCone l.seat)) := rfl
  have hcapacity : Cell.schema.capacity (l.seated (withCone l.seat)) [l.seat.registry.next]
      task.limit = faulting (checked (roundBytes task.limit)) := capacity_schema l.seat task.limit
  have hrange : roundBytes task.limit < Count.range64 := by
    unfold Buffer.limit at h
    unfold Count.range64
    omega
  unfold opening
  rw [hregister]
  dsimp only
  rw [hcapacity, faulting_checked hrange]
  dsimp only
  rw [Buffer.allocate, if_pos h]
  rfl

theorem closing_eq {l : Line τ} {s : Seat} (h : l.seat = withCone s)
    (result : Except ExchangeError Report) :
    closing [s.registry.next] result l = (result, l.seated (withoutCone s)) := by
  have hfree : Endpoint.free s.registry.next l = (.ok (), l.seated (withoutCone s)) := by
    show ((l.seat.free s.registry.next).1, l.seated (l.seat.free s.registry.next).2) = _
    rw [h, free_withCone]
  rw [closing, freeAll, hfree]
  rfl

end Line

/-! ## The rounds of a worker

The abort mark fits into every buffer of an exchange, so that no round ends the exchange and the
rounds can be taken one by one.
-/

section

variable {σ : Type} [Channel σ]

/-- Where the abort mark fits, no round ends the exchange. -/
theorem Worker.stop?_eq_none {w : Worker} (h : 4 ≤ w.buffer.capacity) (root : Nat) :
    w.stop? root = none := by
  have hcap := w.capacity_packing
  unfold packing at hcap
  unfold stop?
  split
  · rcases hp : (packShare w.cells w.owned).on w.buffer.rewind with ⟨cause | sent, b⟩
    · rw [hp] at hcap
      have hmark := on_packInt_rewind abortMark (hcap ▸ h)
      dsimp only
      rw [hmark]
    · rfl
  · rfl

theorem capacity_round (w : Worker) (e : σ) (root : Nat) :
    (round w e root).1.buffer.capacity = w.buffer.capacity := by
  obtain ⟨-, -, -, -, hcap⟩ := w.prepare_kept root
  unfold round
  dsimp only
  split
  · next arrived _ _ =>
    obtain ⟨-, -, hcap'⟩ := (w.prepare root).settle_kept root (.ok arrived)
    exact hcap'.trans hcap
  · exact (Buffer.capacity_overwrite _ _).trans hcap

/-- The last of some rounds is entered with what the others left. -/
theorem rounds_concat {w : Worker} (h : 4 ≤ w.buffer.capacity) (e : σ) (roots : List Nat)
    (root : Nat) :
    rounds w e (roots ++ [root]) = round (rounds w e roots).1 (rounds w e roots).2 root := by
  induction roots generalizing w e with
  | nil => simp only [List.nil_append, rounds, Worker.stop?_eq_none h]
  | cons first roots ih =>
    have hnext : 4 ≤ (round w e first).1.buffer.capacity := by rwa [capacity_round]
    rw [List.cons_append, rounds, rounds, Worker.stop?_eq_none h]
    exact ih hnext (round w e first).2

theorem rounds_range_succ {w : Worker} (h : 4 ≤ w.buffer.capacity) (e : σ) (k : Nat) :
    rounds w e (List.range (k + 1)) =
      round (rounds w e (List.range k)).1 (rounds w e (List.range k)).2 k := by
  rw [List.range_succ, rounds_concat h]

theorem capacity_rounds {w : Worker} (h : 4 ≤ w.buffer.capacity) (e : σ) (k : Nat) :
    (rounds w e (List.range k)).1.buffer.capacity = w.buffer.capacity := by
  induction k with
  | zero => rfl
  | succ k ih => rw [rounds_range_succ h, capacity_round, ih]

end

/-! ## Failures

What a worker meets in a round is listed in the order in which it meets it: packing its share,
the broadcast, and then reading what arrived. Of all that it meets it returns the first, and only
the reading depends on whether there was a failure before.
-/

/-- What a line answers to a worker that enters the round of `root`. -/
def answerTo (w : Worker) (l : Line τ) (root : Nat) : Except ExchangeError Unit × List UInt8 :=
  l.answer (w.prepare root).buffer.contents root

def failureOf {ε α : Type} : Except ε α → List ε
  | .ok _ => []
  | .error cause => [cause]

def packFailures (w : Worker) (root : Nat) : List ExchangeError :=
  if root = w.rank then failureOf w.packing.1 else []

/-- What fails in the round of `root` before the worker would read what arrived: packing the
share, in the round of the worker itself, and then the broadcast. -/
def earlyFailures (w : Worker) (l : Line τ) (root : Nat) : List ExchangeError :=
  packFailures w root ++ failureOf (answerTo w l root).1

/-- What fails when the worker reads what arrived in the round of another. -/
def lateFailures (w : Worker) (l : Line τ) (root : Nat) : List ExchangeError :=
  if root = w.rank then []
  else failureOf ((mergeShare root).on w.cells ⟨[], (answerTo w l root).2⟩).1

/-- The failures met by the end of the round of `root`, when `met` are those from before. Only a
worker without a failure reads what arrived. -/
def meet (w : Worker) (l : Line τ) (root : Nat) (met : List ExchangeError) : List ExchangeError :=
  if met ++ earlyFailures w l root = [] then lateFailures w l root
  else met ++ earlyFailures w l root

/-- The failures that a worker meets in the rounds below `k`, in the order in which it meets
them. -/
def failuresTo (w : Worker) (l : Line τ) : Nat → List ExchangeError
  | 0 => []
  | k + 1 =>
    meet (rounds w l (List.range k)).1 (rounds w l (List.range k)).2 k (failuresTo w l k)

/-! ## One round on a line

A round passes or is refused. In both cases the line has been asked once, and what differs is
whether the worker looks at the bytes.
-/

section

variable {w : Worker} {l : Line τ} {root : Nat} {met : List ExchangeError}

theorem broadcast_prepare (w : Worker) (l : Line τ) (root : Nat) :
    Channel.broadcast (w.prepare root).buffer.contents root l =
      ((answerTo w l root).1.map fun () => (answerTo w l root).2,
        l.after (w.prepare root).buffer.contents root) := rfl

theorem round_passed (h : (answerTo w l root).1 = .ok ()) :
    round w l root = ((w.prepare root).settle root (.ok (answerTo w l root).2),
      l.after (w.prepare root).buffer.contents root) := by
  unfold round
  dsimp only
  rw [broadcast_prepare, h]
  rfl

theorem round_refused {cause : ExchangeError} (h : (answerTo w l root).1 = .error cause) :
    ∃ b, round w l root = ({ w.prepare root with
      buffer := b
      failure := (w.prepare root).failure.or (some cause) },
        l.after (w.prepare root).buffer.contents root) := by
  unfold round
  dsimp only
  rw [broadcast_prepare, h]
  exact ⟨_, rfl⟩

theorem round_line (w : Worker) (l : Line τ) (root : Nat) :
    (round w l root).2 = l.after (w.prepare root).buffer.contents root := by
  rcases hsend : (answerTo w l root).1 with cause | ⟨⟩
  · obtain ⟨b, hround⟩ := round_refused hsend
    rw [hround]
  · rw [round_passed hsend]

theorem failure_prepare (root : Nat) (h : w.failure = met.head?) :
    (w.prepare root).failure = (met ++ packFailures w root).head? := by
  unfold packFailures
  by_cases hr : root = w.rank
  · subst hr
    rw [if_pos rfl, List.head?_append]
    rcases hp : w.packing with ⟨cause | sent, b⟩
    · rw [Worker.prepare_own_error rfl hp, ← h]
      rfl
    · rw [Worker.prepare_own_ok rfl hp, ← h]
      exact Option.or_none.symm
  · rw [Worker.prepare_other hr, if_neg hr, List.append_nil]
    exact h

/-- What a worker without a failure does with bytes that arrived. -/
theorem failure_settle (h : (w.prepare root).failure = none) :
    ((w.prepare root).settle root (.ok (answerTo w l root).2)).failure =
      (lateFailures w l root).head? := by
  obtain ⟨hrank, -, hcells, -, -⟩ := w.prepare_kept root
  unfold lateFailures
  by_cases hr : root = w.rank
  · rw [Worker.settle_own (hr.trans hrank.symm), if_pos hr]
    exact h
  · -- What is left fills the buffer, so that nothing else is read.
    have hlen : (answerTo w l root).2.length = (w.prepare root).buffer.capacity := by
      rw [← Buffer.length_contents]
      exact l.keeps _ _ _
    rw [Worker.settle_merge (by rwa [hrank]) h, Buffer.rewind_overwrite hlen, hcells, if_neg hr]
    rcases (mergeShare root).on w.cells ⟨[], _⟩ with ⟨cause | received, cells, b⟩
    · show (w.prepare root).failure.or (some cause) = _
      rw [h]
      rfl
    · exact h

/-- A worker has the first of the failures that it met. -/
theorem round_failure (h : w.failure = met.head?) :
    (round w l root).1.failure = (meet w l root met).head? := by
  have hready := failure_prepare root h
  unfold meet earlyFailures
  rw [← List.append_assoc]
  rcases hsend : (answerTo w l root).1 with cause | ⟨⟩
  · obtain ⟨b, hround⟩ := round_refused hsend
    rw [hround, if_neg (by simp [failureOf]), List.head?_append, ← hready]
    rfl
  · rw [round_passed hsend, failureOf, List.append_nil]
    split
    · next hnone =>
      rw [hnone] at hready
      exact failure_settle hready
    · -- Something failed before, so that the worker does not look at what arrived.
      next hsome =>
      obtain ⟨cause, later, hcause⟩ := List.exists_cons_of_ne_nil hsome
      rw [hcause] at hready ⊢
      exact (Worker.settle_frozen hready root _).1

/-- A failure before the worker would read what arrived keeps its cells as they are. -/
theorem round_cells (h : w.failure = met.head?) (hmet : met ++ earlyFailures w l root ≠ []) :
    (round w l root).1.cells = w.cells := by
  obtain ⟨-, -, hcells, -, -⟩ := w.prepare_kept root
  have hready := failure_prepare root h
  rcases hsend : (answerTo w l root).1 with cause | ⟨⟩
  · obtain ⟨b, hround⟩ := round_refused hsend
    rw [hround]
    exact hcells
  · unfold earlyFailures at hmet
    rw [hsend, failureOf, List.append_nil] at hmet
    obtain ⟨cause, later, hcause⟩ := List.exists_cons_of_ne_nil hmet
    rw [hcause] at hready
    rw [round_passed hsend]
    exact (Worker.settle_frozen hready root _).2.trans hcells

end

/-! ## All rounds on a line

By induction on the number of rounds. The first failure is the one that is kept, and from it on the
cells stay as they are, while the worker goes on to enter every round.
-/

section

variable {w : Worker}

theorem rounds_failure (h : 4 ≤ w.buffer.capacity) (hf : w.failure = none) (l : Line τ) (k : Nat) :
    (rounds w l (List.range k)).1.failure = (failuresTo w l k).head? := by
  induction k with
  | zero => exact hf
  | succ k ih =>
    rw [rounds_range_succ h, failuresTo]
    exact round_failure ih

/-- Once there is a failure, no later round changes a cell. -/
theorem rounds_cells (h : 4 ≤ w.buffer.capacity) (hf : w.failure = none) (l : Line τ) {k n : Nat}
    (hk : k < n)
    (hmet : failuresTo w l k ++
      earlyFailures (rounds w l (List.range k)).1 (rounds w l (List.range k)).2 k ≠ []) :
    (rounds w l (List.range n)).1.cells = (rounds w l (List.range k)).1.cells ∧
      failuresTo w l n ≠ [] := by
  obtain ⟨d, rfl⟩ := Nat.exists_eq_add_of_lt hk
  clear hk
  induction d with
  | zero =>
    rw [rounds_range_succ h, failuresTo, meet, if_neg hmet]
    exact ⟨round_cells (rounds_failure h hf l k) hmet, hmet⟩
  | succ d ih =>
    -- The failures of the earlier rounds are still there, so that this one reads nothing either.
    have hmet' := List.append_ne_nil_of_left_ne_nil ih.2 (earlyFailures
      (rounds w l (List.range (k + d + 1))).1 (rounds w l (List.range (k + d + 1))).2 (k + d + 1))
    rw [← Nat.add_assoc k, rounds_range_succ h, failuresTo, meet, if_neg hmet']
    exact ⟨(round_cells (rounds_failure h hf l _) hmet').trans ih.1, hmet'⟩

theorem rounds_seat (h : 4 ≤ w.buffer.capacity) (l : Line τ) (k : Nat) :
    (rounds w l (List.range k)).2.seat = l.seat := by
  induction k with
  | zero => rfl
  | succ k ih =>
    rw [rounds_range_succ h, round_line]
    exact ih

/-- The rounds are entered in order, each with the whole buffer. -/
theorem rounds_asked (h : 4 ≤ w.buffer.capacity) (l : Line τ) (k : Nat) :
    ∃ asked, (rounds w l (List.range k)).2.asked = l.asked ++ asked ∧
      asked.map Prod.fst = List.range k ∧ ∀ a ∈ asked, a.2.length = w.buffer.capacity := by
  induction k with
  | zero => exact ⟨[], (List.append_nil _).symm, rfl, by simp⟩
  | succ k ih =>
    obtain ⟨asked, hasked, hroots, hlength⟩ := ih
    have hbytes : ((rounds w l (List.range k)).1.prepare k).buffer.contents.length =
        w.buffer.capacity := by
      rw [Buffer.length_contents, ((rounds w l (List.range k)).1.prepare_kept k).2.2.2.2]
      exact capacity_rounds h l k
    refine ⟨asked ++ [(k, ((rounds w l (List.range k)).1.prepare k).buffer.contents)], ?_, ?_, ?_⟩
    · rw [rounds_range_succ h, round_line, Line.after, hasked, List.append_assoc]
    · rw [List.map_append, hroots, List.range_succ]
      rfl
    · intro a ha
      rcases List.mem_append.mp ha with ha | ha
      · exact hlength a ha
      · rw [List.mem_singleton.mp ha]
        exact hbytes

end

/-! ## A whole exchange on a line

The opening and the closing of an exchange do not broadcast, so that what was asked of the line was
asked in the rounds.
-/

/-- On every line a worker takes part in all rounds: it enters the round of each worker once and
in order, with its whole buffer, and never ends in the middle. It returns the first failure that
it met, or a report if it met none. From the first failure on its cells stay as they are. -/
theorem synchronize_lockstep (task : Task) (line : Line τ)
    (h : roundBytes task.limit < Buffer.limit) :
    let n := line.seat.size
    let w := Worker.fresh task line.seat.rank
    let l := line.seated (withCone line.seat)
    let o := synchronize task line
    (∃ asked, o.endpoint.asked = line.asked ++ asked ∧ asked.map Prod.fst = List.range n ∧
      ∀ a ∈ asked, a.2.length = roundBytes task.limit) ∧
    (∀ k < n, (rounds w l (List.range k)).1.stop? k = none) ∧
    (∀ cause later, failuresTo w l n = cause :: later → o.result = .error (.error cause)) ∧
    (failuresTo w l n = [] →
      ∃ sent received, o.result = .ok ⟨n, roundBytes task.limit, sent, received⟩) ∧
    o.cells = (rounds w l (List.range n)).1.cells ∧
    ∀ k < n, failuresTo w l k ++
        earlyFailures (rounds w l (List.range k)).1 (rounds w l (List.range k)).2 k ≠ [] →
      o.cells = (rounds w l (List.range k)).1.cells := by
  intro n w l o
  have hcap : w.buffer.capacity = roundBytes task.limit := capacity_fresh task line.seat.rank
  have hroom : 4 ≤ w.buffer.capacity := by
    rw [hcap, roundBytes_eq]
    omega
  -- The exchange is opened, has all its rounds and is closed again, and neither end of it fails.
  have ho : o = .late n [line.seat.registry.next] (rounds w l (List.range n)).1
      (rounds w l (List.range n)).2 := by
    show synchronize task line = _
    rw [synchronize, Line.opening_eq task line h]
    rfl
  rw [Outcome.late, Line.closing_eq (rounds_seat hroom l n)] at ho
  have hfailure := rounds_failure hroom rfl l n
  rw [ho]
  refine ⟨?_, ?_, ?_, ?_, rfl, ?_⟩
  · obtain ⟨asked, hasked, hroots, hlength⟩ := rounds_asked hroom l n
    exact ⟨asked, hasked, hroots, fun a ha => (hlength a ha).trans hcap⟩
  · intro k _
    apply Worker.stop?_eq_none
    rwa [capacity_rounds hroom]
  · intro cause later hcause
    rw [hcause] at hfailure
    show reported (Worker.verdict _ n) = _
    rw [Worker.verdict, hfailure]
    rfl
  · intro hnone
    rw [hnone] at hfailure
    refine ⟨(rounds w l (List.range n)).1.sent, (rounds w l (List.range n)).1.received, ?_⟩
    show reported (Worker.verdict _ n) = _
    rw [Worker.verdict, hfailure, ← hcap, ← capacity_rounds hroom l n]
    rfl
  · intro k hk hmet
    exact (rounds_cells hroom rfl l hk hmet).1

/-- A share of one cell where the group has declared that shares are empty. -/
def crowded : Task where
  cells := [Cell.blank 0 0 0, Cell.blank 0 1 1]
  owned := ⟨1, 2⟩
  limit := 0

/-- The place of worker 1 of three, on a line that blanks everything and refuses the second
round. -/
def noisy : Line Unit where
  seat := ⟨1, 3, .empty⟩
  state := ()
  respond bytes root _ :=
    ((if root = 1 then .error .poisoned else .ok (), bytes.map fun _ => 0), ())
  keeps _ _ _ := List.length_map _
  asked := []

theorem synchronize_lockstep_noisy :
    roundBytes crowded.limit < Buffer.limit ∧
      (synchronize crowded noisy).result = .error (.error (.bufferOverflow 4 4 4)) ∧
      (synchronize crowded noisy).endpoint.asked.map Prod.fst = [0, 1, 2] := by
  have hroom : roundBytes crowded.limit < Buffer.limit := by decide
  obtain ⟨⟨asked, hasked, hroots, -⟩, -, hfirst, -⟩ := synchronize_lockstep crowded noisy hroom
  have hmet : failuresTo (Worker.fresh crowded 1) (noisy.seated (withCone noisy.seat)) 3 =
      [.bufferOverflow 4 4 4, .poisoned] := by decide
  refine ⟨hroom, hfirst _ _ hmet, ?_⟩
  rw [hasked]
  exact hroots

end Exchange

end StellarWind
