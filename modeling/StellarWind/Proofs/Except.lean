import Mathlib.Algebra.GroupWithZero.Nat
import StellarWind.Fault

/-!
# Computations that may fail

How the sequences, traversals and checked counts of computations with a failure
come out when their parts are known.
-/

namespace StellarWind

variable {ε α β : Type}

theorem ok_bind (a : α) (f : α → Except ε β) : (Except.ok a >>= f) = f a := rfl

theorem eq_ok_of_isOk {x : Except ε Unit} (h : x.isOk = true) : x = .ok () := by
  cases x with
  | error e => cases h
  | ok u => rfl

/-! ## Sequences and traversals

A sequence succeeds if all of its parts do, and its value is made of theirs.
-/

/-- A traversal succeeds when every visit does. -/
theorem mapM_eq_ok {f : α → Except ε β} {g : α → β} {xs : List α}
    (h : ∀ x ∈ xs, f x = .ok (g x)) : xs.mapM f = .ok (xs.map g) := by
  induction xs with
  | nil => rfl
  | cons x xs ih =>
      rw [List.mapM_cons, h x List.mem_cons_self, ok_bind,
        ih fun y hy => h y (List.mem_cons_of_mem x hy)]
      rfl

theorem exists_mapM {f : α → Except ε β} {xs : List α} (h : ∀ x ∈ xs, ∃ y, f x = .ok y) :
    ∃ ys, xs.mapM f = .ok ys := by
  induction xs with
  | nil => exact ⟨[], rfl⟩
  | cons x xs ih =>
      rw [List.forall_mem_cons] at h
      obtain ⟨y, hy⟩ := h.1
      obtain ⟨ys, hys⟩ := ih h.2
      refine ⟨y :: ys, ?_⟩
      rw [List.mapM_cons, hy, ok_bind, hys]
      rfl

/-- Every visit of a traversal that succeeds does so. -/
theorem exists_ok_of_mapM {f : α → Except ε β} {xs : List α} {ys : List β}
    (h : xs.mapM f = .ok ys) : ∀ x ∈ xs, ∃ y, f x = .ok y := by
  induction xs generalizing ys with
  | nil =>
      intro x hx
      cases hx
  | cons x xs ih =>
      rw [List.mapM_cons] at h
      cases hx : f x with
      | error e => rw [hx] at h; cases h
      | ok y =>
          cases hxs : xs.mapM f with
          | error e => rw [hx, ok_bind, hxs] at h; cases h
          | ok zs =>
              intro z hz
              rcases List.mem_cons.mp hz with rfl | hz
              · exact ⟨y, hx⟩
              · exact ih hxs z hz

theorem bind_eq_ok_iff {x : Except ε α} {f : α → Except ε β} {b : β} :
    (x >>= f) = .ok b ↔ ∃ a, x = .ok a ∧ f a = .ok b := by
  cases x with
  | error e => simp [bind, Except.bind]
  | ok a => simp [ok_bind]

theorem reported_eq_ok_iff {x : Except ε α} {a : α} : reported x = .ok a ↔ x = .ok a := by
  cases x <;> simp [reported]

theorem faulting_eq_ok_iff {x : Except Fault α} {a : α} :
    (faulting x : Except (Abort ε) α) = .ok a ↔ x = .ok a := by
  cases x <;> simp [faulting]

theorem mapError_eq_ok_iff {x : Except ε α} {f : ε → β} {a : α} :
    x.mapError f = .ok a ↔ x = .ok a := by
  constructor
  · intro h
    cases x with
    | error e => cases h
    | ok b =>
        cases h
        rfl
  · rintro rfl
    rfl

/-- The results of a traversal stand in the places of what was visited. -/
theorem getElem?_of_mapM {f : α → Except ε β} {xs : List α} {ys : List β}
    (h : xs.mapM f = .ok ys) : ys.length = xs.length ∧
      ∀ (i : Nat) (y : β), ys[i]? = some y → ∃ x, xs[i]? = some x ∧ f x = .ok y := by
  induction xs generalizing ys with
  | nil =>
      cases h
      exact ⟨rfl, fun i y hy => by simp at hy⟩
  | cons x xs ih =>
      rw [List.mapM_cons] at h
      obtain ⟨y, hy, h⟩ := bind_eq_ok_iff.mp h
      obtain ⟨zs, hzs, h⟩ := bind_eq_ok_iff.mp h
      cases h
      obtain ⟨hlength, hall⟩ := ih hzs
      refine ⟨congrArg Nat.succ hlength, fun i z hz => ?_⟩
      cases i with
      | zero => exact ⟨x, rfl, hy.trans (congrArg _ (Option.some.inj hz))⟩
      | succ i => exact hall i z hz

/-! ## Counts in the 64-bit range

A count is checked where it is computed, and what becomes of a computation is said by one
comparison of the exact count with the end of the range.
-/

theorem checked_ok {n : Nat} (h : n < Count.range64) : checked n = .ok n := if_pos h

theorem eq_of_checked {n m : Nat} (h : checked n = .ok m) : m = n := by
  unfold checked at h
  split at h
  · exact (Except.ok.inj h).symm
  · cases h

theorem lt_of_checked {n m : Nat} (h : checked n = .ok m) : n < Count.range64 := by
  unfold checked at h
  split at h
  · assumption
  · cases h

theorem checked_bind_eq_ok_iff {n : Nat} {f : Nat → Except Fault α} {a : α} :
    (checked n >>= f) = .ok a ↔ n < Count.range64 ∧ f n = .ok a := by
  by_cases h : n < Count.range64
  · rw [checked_ok h, ok_bind, and_iff_right h]
  · rw [checked, if_neg h]
    exact iff_of_false nofun fun hok => h hok.1

theorem checked_overflow {n : Nat} (h : Count.range64 ≤ n) : checked n = .error .overflow :=
  if_neg (Nat.not_lt.mpr h)

theorem faulting_checked {n : Nat} (h : n < Count.range64) :
    (faulting (checked n) : Except (Abort ε) Nat) = .ok n := by
  rw [checked_ok h]
  rfl

theorem faulting_checked_overflow {n : Nat} (h : Count.range64 ≤ n) :
    (faulting (checked n) : Except (Abort ε) Nat) = .error (.fault .overflow) := by
  rw [checked_overflow h]
  rfl

theorem faulting_checked_eq_ite (n : Nat) :
    (faulting (checked n) : Except (Abort ε) Nat) =
      if n < Count.range64 then .ok n else .error (.fault .overflow) := by
  split
  · exact faulting_checked ‹_›
  · exact faulting_checked_overflow (Nat.le_of_not_lt ‹_›)

/-- A sum of counts is checked on the way, and leaves the range if it does so at the end. -/
theorem checkedSum_eq (ns : List Nat) : checkedSum ns = checked ns.sum := by
  have hfold (sum : Nat) (hsum : sum < Count.range64) :
      ns.foldlM (fun sum n => checked (sum + n)) sum = checked (sum + ns.sum) := by
    -- A fold that has not stopped yet has a sum in the range.
    induction ns generalizing sum with
    | nil => exact (checked_ok hsum).symm
    | cons n ns ih =>
        rw [List.foldlM_cons, List.sum_cons, ← Nat.add_assoc]
        by_cases h : sum + n < Count.range64
        · rw [checked_ok h, ok_bind, ih _ h]
        · rw [checked_overflow (by omega), checked_overflow (by omega)]
          rfl
  rw [checkedSum, hfold 0 (by decide), Nat.zero_add]

/-! ## Failures that leave a state

Buffers, tallies, samplers and reports are all changed step by step, and keep what was done to
them before a step failed. So a sequence goes on from the state that its first part leaves, and
stops in it when that part fails.
-/

section

variable {σ : Type} {m : ExceptT ε (StateM σ) α} {f : α → ExceptT ε (StateM σ) β} {s mid : σ}

theorem run_bind_ok {a : α} (h : m.run.run s = (.ok a, mid)) :
    (m >>= f).run.run s = (f a).run.run mid := by
  rw [ExceptT.run_bind, StateT.run_bind, h]
  rfl

theorem run_bind_error {e : ε} (h : m.run.run s = (.error e, mid)) :
    (m >>= f).run.run s = (.error e, mid) := by
  rw [ExceptT.run_bind, StateT.run_bind, h]
  rfl

end

/-! ## Checks on the way

A count that is computed in steps is checked at every step. Only the last check matters if no
step is above the result, so that a chain of checks is one check.
-/

theorem checked_bind_le {n total : Nat} {f : Nat → Except Fault Nat} (hle : n ≤ total)
    (hf : f n = checked total) : (checked n >>= f) = checked total := by
  by_cases hn : n < Count.range64
  · rw [checked_ok hn, ok_bind, hf]
  · rw [checked_overflow (by omega), checked_overflow (by omega)]
    rfl

/-- A check of a count makes no difference before the check of a larger one. -/
theorem checked_bind_of_lt {n total : Nat} {f : Nat → Except (Abort ε) Nat} (hle : n ≤ total)
    (hf : n < Count.range64 → f n = faulting (checked total)) :
    (faulting (checked n) >>= f) = faulting (checked total) := by
  by_cases hn : n < Count.range64
  · rw [faulting_checked hn, ok_bind, hf hn]
  · rw [faulting_checked_overflow (by omega), faulting_checked_overflow (by omega)]
    rfl

theorem checked_bind {n total : Nat} {f : Nat → Except (Abort ε) Nat} (hle : n ≤ total)
    (hf : f n = faulting (checked total)) :
    (faulting (checked n) >>= f) = faulting (checked total) :=
  checked_bind_of_lt hle fun _ => hf

end StellarWind
