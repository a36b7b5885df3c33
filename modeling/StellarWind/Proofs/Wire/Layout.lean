import Mathlib.Data.List.Chain
import Mathlib.Order.CompletePartialOrder
import Mathlib.Order.Interval.Set.Disjoint
import StellarWind.Proofs.Except
import StellarWind.Wire.Composite

/-!
# Layouts of composite types

A layout is sound if it has members, and these stand in increasing order, apart from each
other and inside the extent (`Composite.Sound`). The check compares each member with the one
before it only. That is enough, because members that follow each other without an overlap are
all apart, and the first member that is out of place (`Composite.Misplaced`) is the one that is
reported.
-/

namespace StellarWind

theorem ScalarKind.size_pos (kind : ScalarKind) : 0 < kind.size := by
  cases kind <;> decide

namespace Member

/-- The first byte behind a member in the stored form. -/
def stop (m : Member) : Nat := m.offset + m.kind.size

/-- The bytes of a member in the stored form. -/
def span (m : Member) : Set Nat := Set.Ico m.offset m.stop

theorem offset_lt_stop (m : Member) : m.offset < m.stop :=
  Nat.lt_add_of_pos_right m.kind.size_pos

/-- A member that has ended before another starts. -/
def Precedes (m n : Member) : Prop := m.stop ≤ n.offset

instance : Trans Precedes Precedes Precedes where
  trans {m n k} hmn hnk := by
    have hn := n.offset_lt_stop
    unfold Precedes at *
    omega

/-- Members are in increasing order and have no byte in common if the first has ended before
the second starts. -/
theorem precedes_iff (m n : Member) :
    m.Precedes n ↔ m.offset < n.offset ∧ Disjoint m.span n.span := by
  have hm := m.offset_lt_stop
  have hn := n.offset_lt_stop
  rw [Precedes, span, span, Set.Ico_disjoint_Ico]
  omega

theorem span_subset_iff (m : Member) (extent : Nat) :
    m.span ⊆ Set.Ico 0 extent ↔ m.stop ≤ extent := by
  rw [span, Set.Ico_subset_Ico_iff m.offset_lt_stop]
  exact and_iff_right (Nat.zero_le _)

end Member

namespace Composite

variable {c : Composite}

/-! ## Sound layouts and misplaced members

Soundness speaks of all pairs of members, and the check of neighbours. A member is not empty, so
that preceding is transitive and the neighbours decide about all pairs.
-/

/-- A layout whose members stand in increasing order, apart from each other and inside the
extent. -/
structure Sound (c : Composite) : Prop where
  nonempty : c.members ≠ []
  increasing : c.members.Pairwise fun m n => m.offset < n.offset
  apart : c.members.Pairwise fun m n => Disjoint m.span n.span
  inside : ∀ m ∈ c.members, m.span ⊆ Set.Ico 0 c.extent

/-- Where the predecessor of the member at a place ends; the first member has none. -/
def endBefore (c : Composite) : Nat → Nat
  | 0 => 0
  | k + 1 => (c.members[k]?).elim 0 Member.stop

/-- The member `m` at place `k` starts before the end of its predecessor or ends past the
extent. -/
def Misplaced (c : Composite) (k : Nat) (m : Member) : Prop :=
  c.members[k]? = some m ∧ (m.offset < c.endBefore k ∨ c.extent < m.stop)

/-- What is reported about the member `m` at place `k`. -/
def problemAt (c : Composite) (k : Nat) (m : Member) : LayoutProblem :=
  if m.offset < c.endBefore k then .overlap m.name m.offset
  else .beyondExtent m.name m.stop c.extent

theorem sound_iff :
    c.Sound ↔ c.members ≠ [] ∧ c.members.Pairwise Member.Precedes ∧
      ∀ m ∈ c.members, m.stop ≤ c.extent := by
  have hpairwise : c.members.Pairwise Member.Precedes ↔
      c.members.Pairwise (fun m n => m.offset < n.offset) ∧
        c.members.Pairwise fun m n => Disjoint m.span n.span := by
    rw [← List.pairwise_and_iff]
    exact List.Pairwise.iff fun {m n} => m.precedes_iff n
  rw [hpairwise]
  constructor
  · intro h
    exact ⟨h.nonempty, ⟨h.increasing, h.apart⟩,
      fun m hm => (m.span_subset_iff _).mp (h.inside m hm)⟩
  · rintro ⟨hne, ⟨hinc, hapart⟩, hin⟩
    exact ⟨hne, hinc, hapart, fun m hm => (m.span_subset_iff _).mpr (hin m hm)⟩

/-- Neighbours decide: members are in order and apart if none starts before the end of its
predecessor. -/
theorem sound_iff_not_misplaced (hne : c.members ≠ []) :
    c.Sound ↔ ∀ k m, ¬ c.Misplaced k m := by
  rw [sound_iff, and_iff_right hne, ← List.isChain_iff_pairwise, List.isChain_iff_getElem]
  constructor
  · rintro ⟨hchain, hin⟩ k m ⟨hm, hearly | hlate⟩
    · cases k with
      | zero => cases hearly
      | succ k =>
          obtain ⟨hk, rfl⟩ := List.getElem?_eq_some_iff.mp hm
          have hprecedes := hchain k hk
          rw [endBefore, List.getElem?_eq_getElem (by omega)] at hearly
          exact Nat.not_lt.mpr hprecedes hearly
    · exact Nat.not_lt.mpr (hin m (List.mem_of_getElem? hm)) hlate
  · intro h
    refine ⟨fun k hk => ?_, fun m hm => ?_⟩
    · refine Nat.le_of_not_lt fun hearly => h (k + 1) _ ⟨List.getElem?_eq_getElem hk, .inl ?_⟩
      rwa [endBefore, List.getElem?_eq_getElem (by omega)]
    · obtain ⟨k, hk⟩ := List.getElem?_of_mem hm
      exact Nat.le_of_not_lt fun hlate => h k m ⟨hk, .inr hlate⟩

/-! ## What the check reports

The check walks over the members and keeps the end of the one before. The induction is on the
members that are left, and it carries along that none before them was out of place.
-/

theorem checkFrom_cons (c : Composite) (previous : Nat) {m : Member} (rest : List Member)
    (h : m.stop < Count.range64) :
    c.checkFrom previous (m :: rest) =
      if m.offset < previous then .error (.error (.invalidLayout c.name (.overlap m.name m.offset)))
      else if c.extent < m.stop then
        .error (.error (.invalidLayout c.name (.beyondExtent m.name m.stop c.extent)))
      else c.checkFrom m.stop rest := by
  have hstop : (faulting (checked (m.offset + m.kind.size)) : Except (Abort ExchangeError) Nat) =
      .ok m.stop := faulting_checked h
  rw [checkFrom, hstop]
  rfl

/-- The check of the members from a place on, when there was nothing to report before it. -/
theorem checkFrom_drop (hrange : ∀ m ∈ c.members, m.stop < Count.range64) {rest : List Member}
    {k : Nat} (hrest : c.members.drop k = rest) (hclean : ∀ j < k, ∀ m, ¬ c.Misplaced j m) :
    (c.checkFrom (c.endBefore k) rest = .ok () ∧ ∀ j m, ¬ c.Misplaced j m) ∨
    ∃ j m, c.Misplaced j m ∧ (∀ i < j, ∀ n, ¬ c.Misplaced i n) ∧
      c.checkFrom (c.endBefore k) rest =
        .error (.error (.invalidLayout c.name (c.problemAt j m))) := by
  induction rest generalizing k with
  | nil =>
      refine .inl ⟨rfl, fun j m hm => ?_⟩
      have hk : c.members.length ≤ k := List.drop_eq_nil_iff.mp hrest
      obtain ⟨hj, -⟩ := List.getElem?_eq_some_iff.mp hm.1
      exact hclean j (by omega) m hm
  | cons m rest ih =>
      have hm : c.members[k]? = some m := by
        rw [← List.head?_drop, hrest, List.head?_cons]
      rw [checkFrom_cons c _ rest (hrange m (List.mem_of_getElem? hm))]
      by_cases hearly : m.offset < c.endBefore k
      · refine .inr ⟨k, m, ⟨hm, .inl hearly⟩, hclean, ?_⟩
        rw [if_pos hearly, problemAt, if_pos hearly]
      by_cases hlate : c.extent < m.stop
      · refine .inr ⟨k, m, ⟨hm, .inr hlate⟩, hclean, ?_⟩
        rw [if_neg hearly, if_pos hlate, problemAt, if_neg hearly]
      -- The member is in its place, and the next one is compared with its end.
      rw [if_neg hearly, if_neg hlate]
      have hend : m.stop = c.endBefore (k + 1) := by
        rw [endBefore, hm]
        rfl
      rw [hend]
      refine ih ?_ fun j hj n hn => ?_
      · rw [← List.tail_drop, hrest, List.tail_cons]
      · rcases Nat.lt_succ_iff_lt_or_eq.mp hj with hj | rfl
        · exact hclean j hj n hn
        · obtain rfl : m = n := Option.some.inj (hm.symm.trans hn.1)
          exact hn.2.elim hearly hlate

theorem check_of_nil (h : c.members = []) :
    c.check = .error (.error (.invalidLayout c.name .noMembers)) := by
  rw [check, h]
  rfl

theorem check_of_ne_nil (h : c.members ≠ []) : c.check = c.checkFrom (c.endBefore 0) c.members := by
  rw [check, if_neg (by simpa using h)]
  rfl

/-! ## The size of a sound layout

Members that are apart need at least the sum of their sizes.
-/

/-- Members that follow each other between two ends have room between these. -/
theorem add_sum_sizes_le {ms : List Member} {start extent : Nat} (hle : start ≤ extent)
    (hpairwise : ms.Pairwise Member.Precedes)
    (hms : ∀ m ∈ ms, start ≤ m.offset ∧ m.stop ≤ extent) :
    start + (ms.map (·.kind.size)).sum ≤ extent := by
  induction ms generalizing start with
  | nil => exact hle
  | cons m rest ih =>
      rw [List.pairwise_cons] at hpairwise
      rw [List.forall_mem_cons] at hms
      obtain ⟨⟨hstart, hstop⟩, hrest⟩ := hms
      have hsum := ih hstop hpairwise.2 fun n hn => ⟨hpairwise.1 n hn, (hrest n hn).2⟩
      rw [Member.stop] at hsum
      rw [List.map_cons, List.sum_cons]
      omega

theorem Sound.bytes_le (h : c.Sound) : c.bytes ≤ c.extent := by
  obtain ⟨-, hpairwise, hin⟩ := sound_iff.mp h
  have hsum := add_sum_sizes_le (Nat.zero_le c.extent) hpairwise fun m hm =>
    ⟨Nat.zero_le _, hin m hm⟩
  rwa [Nat.zero_add] at hsum

/-! ## The check is exact

The check computes the end of each member, and the hypothesis says that these ends are in the range.
-/

/-- A layout passes the check exactly if it is sound. Otherwise it has no members, or the first
of them that is out of place is reported. What passes has room for its members. -/
theorem check_sound_or_misplaced (c : Composite)
    (hrange : ∀ m ∈ c.members, m.offset + m.kind.size < Count.range64) :
    (c.check = .ok () ↔ c.Sound) ∧
    (¬ c.Sound →
      (c.members = [] ∧ c.check = .error (.error (.invalidLayout c.name .noMembers))) ∨
      ∃ k m, c.Misplaced k m ∧ (∀ j < k, ∀ n, ¬ c.Misplaced j n) ∧
        c.check = .error (.error (.invalidLayout c.name (c.problemAt k m)))) ∧
    (c.check = .ok () → c.bytes ≤ c.extent) := by
  by_cases hne : c.members = []
  · have hunsound : ¬ c.Sound := fun h => h.nonempty hne
    have hcheck := check_of_nil hne
    have hnotok : c.check ≠ .ok () := by
      rw [hcheck]
      nofun
    exact ⟨iff_of_false hnotok hunsound, fun _ => .inl ⟨hne, hcheck⟩, fun h => absurd h hnotok⟩
  have hsound := sound_iff_not_misplaced hne
  rw [check_of_ne_nil hne]
  obtain ⟨hok, hclean⟩ | ⟨k, m, hm, hfirst, herror⟩ :=
    checkFrom_drop hrange (k := 0) List.drop_zero fun j hj => absurd hj (Nat.not_lt_zero j)
  · have h := hsound.mpr hclean
    exact ⟨iff_of_true hok h, fun hunsound => absurd h hunsound, fun _ => h.bytes_le⟩
  · have hunsound : ¬ c.Sound := fun h => hsound.mp h k m hm
    rw [herror]
    exact ⟨iff_of_false nofun hunsound, fun _ => .inr ⟨k, m, hm, hfirst, rfl⟩, nofun⟩

/-- Members of both kinds with gaps before, between and behind them. -/
def gapped : Composite :=
  ⟨"gapped", [⟨"n", .int, 4⟩, ⟨"x", .double, 8⟩, ⟨"k", .int, 20⟩, ⟨"y", .double, 24⟩], 40⟩

/-- The second member overlaps the first and ends past the extent, the third is apart from both
but out of order. -/
def crossed : Composite := ⟨"crossed", [⟨"n", .int, 4⟩, ⟨"x", .double, 6⟩, ⟨"k", .int, 0⟩], 12⟩

theorem check_sound_or_misplaced_crossed :
    gapped.Sound ∧ gapped.bytes ≤ 40 ∧ ¬ crossed.Sound ∧
    ∃ k m, crossed.Misplaced k m ∧ (∀ j < k, ∀ n, ¬ crossed.Misplaced j n) ∧
      crossed.problemAt k m = .overlap "x" 6 := by
  obtain ⟨hsound, -, hbytes⟩ := gapped.check_sound_or_misplaced (by decide)
  obtain ⟨hiff, hfirst, -⟩ := crossed.check_sound_or_misplaced (by decide)
  have hunsound : ¬ crossed.Sound := fun h => by cases hiff.mpr h
  refine ⟨hsound.mp rfl, hbytes rfl, hunsound, ?_⟩
  obtain ⟨hnil, -⟩ | ⟨k, m, hm, hearlier, hcheck⟩ := hfirst hunsound
  · cases hnil
  · have hreported : crossed.check =
        .error (.error (.invalidLayout "crossed" (.overlap "x" 6))) := rfl
    rw [hreported] at hcheck
    injection hcheck with hcause
    injection hcause with hcause
    injection hcause with _ hproblem
    exact ⟨k, m, hm, hearlier, hproblem.symm⟩

end Composite

end StellarWind
