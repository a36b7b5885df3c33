import Mathlib.Data.Finset.Card
import StellarWind.Photon.Energy
import StellarWind.Photon.Segment

/-!
# Openings

A packet crosses a cell in several segments, one after the other. The segments at which
another packet begins are the `openings` of a run. They are as many as there are packets
exactly when no packet comes back after another one (`length_openings_eq_card_iff`).
-/

namespace StellarWind

/-- The segments whose packet is another one than that of the segment before them;
`last` is the packet before the first segment. -/
def openings (last : Option PacketId) (ss : List Segment) : List Segment :=
  ((ss.zip (last :: ss.map fun s => some s.id)).filter fun p => p.2 ≠ some p.1.id).map Prod.fst

/-! ## The openings of a run

Whether a segment opens a packet depends on the one before it, so that a run is taken from the
front, with the packet that was seen last.
-/

@[simp] theorem openings_nil (last : Option PacketId) : openings last [] = [] := rfl

theorem openings_cons (last : Option PacketId) (s : Segment) (ss : List Segment) :
    openings last (s :: ss) =
      if last = some s.id then openings (some s.id) ss else s :: openings (some s.id) ss := by
  by_cases h : last = some s.id
  · simp [openings, h]
  · simp [openings, h]

theorem length_openings_le (last : Option PacketId) (ss : List Segment) :
    (openings last ss).length ≤ ss.length := by
  induction ss generalizing last with
  | nil => simp
  | cons s ss ih =>
      have := ih (some s.id)
      rw [openings_cons]
      split
      · rw [List.length_cons]
        omega
      · simp only [List.length_cons]
        omega

/-- Leaving segments out makes no new openings, except one if the packet before is
another one. -/
theorem length_openings_filter_le (p : Segment → Bool) (a b : Option PacketId)
    (ss : List Segment) :
    (openings b (ss.filter p)).length ≤ (openings a ss).length + if a = b then 0 else 1 := by
  induction ss generalizing a b with
  | nil => simp
  | cons s ss ih =>
      rw [openings_cons]
      by_cases hp : p s = true
      · -- Both lists go on behind `s`, so that only their first elements differ.
        have := ih (some s.id) (some s.id)
        rw [List.filter_cons_of_pos hp, openings_cons]
        grind
      · have := ih (some s.id) b
        rw [List.filter_cons_of_neg hp]
        grind

/-! ## Distinct packets

The openings have every packet of the run. They have it twice exactly if it comes back, so that they
are as many as the packets if none does. Both statements are about the run behind a first packet
`a`, which the openings are told of.
-/

theorem mem_cons_openings (a x : PacketId) (ss : List Segment) :
    x ∈ a :: (openings (some a) ss).map (·.id) ↔ x ∈ a :: ss.map (·.id) := by
  induction ss generalizing a with
  | nil => simp
  | cons s ss ih =>
      have := ih s.id
      rw [openings_cons]
      split
      · grind
      · grind

/-- No packet comes back after another one. -/
def Contiguous (ids : List PacketId) : Prop := ∀ x y, [x, y, x].Sublist ids → x = y

theorem contiguous_cons_self (a : PacketId) (ids : List PacketId) :
    Contiguous (a :: a :: ids) ↔ Contiguous (a :: ids) := by
  constructor
  · intro h x y hs
    exact h x y (hs.cons a)
  · intro h x y hs
    by_contra hne
    cases hs with
    | cons _ hs => exact hne (h x y hs)
    | cons_cons _ hs =>
        -- The middle one is not `a`, so it and the last one stand behind both `a`.
        cases hs with
        | cons _ hs => exact hne (h _ _ (hs.cons_cons _))
        | cons_cons _ hs => exact hne rfl

theorem contiguous_cons_of_ne {a b : PacketId} (hab : a ≠ b) (ids : List PacketId) :
    Contiguous (a :: b :: ids) ↔ a ∉ b :: ids ∧ Contiguous (b :: ids) := by
  constructor
  · intro h
    refine ⟨fun hmem => ?_, fun x y hs => h x y (hs.cons a)⟩
    have htail : a ∈ ids := by simpa [hab] using hmem
    exact hab (h a b (((List.singleton_sublist.mpr htail).cons_cons b).cons_cons a))
  · rintro ⟨hmem, h⟩ x y hs
    cases hs with
    | cons _ hs => exact h x y hs
    | cons_cons _ hs => exact absurd (hs.subset (by simp)) hmem

theorem nodup_cons_openings (a : PacketId) (ss : List Segment) :
    (a :: (openings (some a) ss).map (·.id)).Nodup ↔ Contiguous (a :: ss.map (·.id)) := by
  induction ss generalizing a with
  | nil =>
      simp only [openings_nil, List.map_nil, List.nodup_singleton, true_iff]
      intro x y hs
      have := hs.length_le
      simp at this
  | cons s ss ih =>
      rw [openings_cons, List.map_cons]
      by_cases h : a = s.id
      · rw [if_pos (congrArg some h), ← h, contiguous_cons_self, ih]
      · rw [if_neg (fun he => h (Option.some.inj he)), contiguous_cons_of_ne h, List.map_cons,
          List.nodup_cons, mem_cons_openings, ih]

theorem nodup_openings (ss : List Segment) :
    ((openings none ss).map (·.id)).Nodup ↔ Contiguous (ss.map (·.id)) := by
  cases ss with
  | nil =>
      simp only [openings_nil, List.map_nil, List.nodup_nil, true_iff]
      intro x y hs
      cases hs
  | cons s ss =>
      rw [openings_cons, if_neg (by simp)]
      exact nodup_cons_openings s.id ss

theorem toFinset_openings (ss : List Segment) :
    ((openings none ss).map (·.id)).toFinset = (ss.map (·.id)).toFinset := by
  cases ss with
  | nil => rfl
  | cons s ss =>
      rw [openings_cons, if_neg (by simp)]
      ext x
      rw [List.mem_toFinset, List.mem_toFinset]
      exact mem_cons_openings s.id x ss

/-- There are as many openings as packets exactly when no packet comes back. -/
theorem length_openings_eq_card_iff (ss : List Segment) :
    (openings none ss).length = (ss.map (·.id)).toFinset.card ↔ Contiguous (ss.map (·.id)) := by
  have hlength : (openings none ss).length = ((openings none ss).map (·.id)).length :=
    List.length_map _ |>.symm
  rw [← nodup_openings, ← toFinset_openings, List.card_toFinset, hlength]
  constructor
  · intro h
    exact List.dedup_eq_self.mp ((List.dedup_sublist _).eq_of_length h.symm)
  · intro h
    rw [h.dedup]

/-! ## Two runs

The second run starts from the packet that the first one has left.
-/

/-- The packet that is remembered after a run. -/
def lastOf (last : Option PacketId) (ss : List Segment) : Option PacketId :=
  ss.foldl (fun _ s => some s.id) last

theorem openings_append (last : Option PacketId) (ss ss' : List Segment) :
    openings last (ss ++ ss') = openings last ss ++ openings (lastOf last ss) ss' := by
  induction ss generalizing last with
  | nil => rfl
  | cons s ss ih =>
      rw [List.cons_append, openings_cons, openings_cons, ih]
      split <;> rfl

/-! ## Ionizing segments

They are counted as a run of their own, with openings of their own.
-/

/-- The ionizing segments. -/
def ionizers (ss : List Segment) : List Segment := ss.filter fun s => ionizes s.freq

theorem ionizers_append (ss ss' : List Segment) :
    ionizers (ss ++ ss') = ionizers ss ++ ionizers ss' := List.filter_append ss ss'

end StellarWind
