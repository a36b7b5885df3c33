import StellarWind.Json.Document
import StellarWind.Proofs.Json.Reading

/-!
# Documents of a type, back and forth

For each basic type, which values come back from their document, and that the
document of any value can be spelled. A record comes back field by field
(`fields?_record`).
-/

namespace StellarWind

namespace Json

/-! ## Documents that can be spelled

An array or an object can be spelled if its items or members can: its tokens are theirs with
brackets and commas among them. A key has to be a text that is known.
-/

theorem written_array {items : List Json} (h : ∀ v ∈ items, v.Written) : (array items).Written := by
  have htail : ∀ vs : List Json, (∀ v ∈ vs, v.Written) → ∀ t ∈ itemTokens vs, t.Written := by
    intro vs hvs
    induction vs with
    | nil => simp [itemTokens, Token.Written]
    | cons v vs ih =>
        rw [List.forall_mem_cons] at hvs
        simp only [itemTokens, List.forall_mem_cons, List.forall_mem_append]
        exact ⟨trivial, hvs.1, ih hvs.2⟩
  cases items with
  | nil => simp [Written, tokens, Token.Written]
  | cons v vs =>
      rw [List.forall_mem_cons] at h
      simp only [Written, tokens, List.forall_mem_cons, List.forall_mem_append]
      exact ⟨trivial, h.1, htail vs h.2⟩

theorem written_object {members : List (Option String × Json)}
    (h : ∀ m ∈ members, m.1.isSome ∧ m.2.Written) : (object members).Written := by
  have htail : ∀ ms : List (Option String × Json), (∀ m ∈ ms, m.1.isSome ∧ m.2.Written) →
      ∀ t ∈ memberTokens ms, t.Written := by
    intro ms hms
    induction ms with
    | nil => simp [memberTokens, Token.Written]
    | cons m ms ih =>
        rw [List.forall_mem_cons] at hms
        simp only [memberTokens, List.forall_mem_cons, List.forall_mem_append]
        exact ⟨trivial, hms.1.1, trivial, hms.1.2, ih hms.2⟩
  cases members with
  | nil => simp [Written, tokens, Token.Written]
  | cons m ms =>
      rw [List.forall_mem_cons] at h
      simp only [Written, tokens, List.forall_mem_cons, List.forall_mem_append]
      exact ⟨trivial, h.1.1, trivial, h.1.2, htail ms h.2⟩

theorem written_record (names : List String) {fields : List Json} (h : ∀ v ∈ fields, v.Written) :
    (record names fields).Written := by
  refine written_object fun m hm => ?_
  rw [← List.map_uncurry_zip_eq_zipWith, List.mem_map] at hm
  obtain ⟨⟨k, v⟩, hkv, rfl⟩ := hm
  exact ⟨rfl, h v (List.of_mem_zip hkv).2⟩

theorem written_choice (name : String) {v : Json} (h : v.Written) : (choice name v).Written := by
  refine written_object fun m hm => ?_
  obtain rfl := List.mem_singleton.mp hm
  exact ⟨rfl, h⟩

/-! ## Records

A record is written with its names in order and read by looking each name up. The names are all
different, so that the lookup of a name finds its own field, and no name is found twice.
-/

theorem members?_record {names : List String} {fields : List Json}
    (hlen : names.length = fields.length) :
    members? (names.zipWith (fun k v => (some k, v)) fields) = some (names.zip fields) := by
  induction names generalizing fields with
  | nil => rfl
  | cons k names ih =>
      cases fields with
      | nil => cases hlen
      | cons v fields =>
          rw [List.zipWith_cons_cons, members?, ih (Nat.succ.inj hlen)]
          rfl

theorem lookup_zip {names : List String} (hnodup : names.Nodup) {fields : List Json}
    (hlen : names.length = fields.length) :
    names.map (fun n => List.lookup n (names.zip fields)) = fields.map some := by
  induction names generalizing fields with
  | nil =>
      cases fields with
      | nil => rfl
      | cons v fields => cases hlen
  | cons k names ih =>
      cases fields with
      | nil => cases hlen
      | cons v fields =>
          rw [List.nodup_cons] at hnodup
          -- The other names are looked up past the first field.
          have hrest : names.map (fun n => List.lookup n ((k, v) :: names.zip fields)) =
              names.map fun n => List.lookup n (names.zip fields) := by
            refine List.map_congr_left fun n hn => ?_
            have hne : (n == k) = false := by
              simp only [beq_eq_false_iff_ne]
              rintro rfl
              exact hnodup.1 hn
            rw [List.lookup_cons, hne]
          rw [List.zip_cons_cons, List.map_cons, hrest, ih hnodup.2 (Nat.succ.inj hlen),
            List.lookup_cons_self]
          rfl

/-- The fields of a record are found under their names. -/
theorem fields?_record {names : List String} (hnodup : names.Nodup) {fields : List Json}
    (hlen : names.length = fields.length) :
    (record names fields).fields? names = some (fields.map some) := by
  have honce : (names.all fun n =>
      ((names.zip fields).filter (·.1 == n)).length ≤ 1) = true := by
    rw [List.all_eq_true]
    intro n _
    have hcount := List.nodup_iff_count.mp hnodup n
    rw [← List.map_fst_zip (Nat.le_of_eq hlen), List.count, List.countP_map,
      List.countP_eq_length_filter] at hcount
    exact decide_eq_true hcount
  show (members? _).bind _ = _
  rw [members?_record hlen]
  show (if _ then _ else _) = _
  rw [if_pos honce, lookup_zip hnodup hlen]
  rfl

end Json

/-! ## Basic types

A count comes back if it is below the range of its type, a double if its numeral gives it again
(`ReadsBack`), and a list if each of its items does.
-/

theorem written_nat (n : Nat) : (toJson n).Written := by
  intro t ht
  obtain rfl := List.mem_singleton.mp ht
  exact Numeral.written_ofNat n

theorem ofJson?_nat (n : Nat) : ofJson? (toJson n) = some n ↔ n < Count.range64 :=
  Numeral.toNat?_ofNat

/-- The double has a numeral that reads as the same double again. An infinite one and one that
is not a number have no numeral. -/
def ReadsBack (x : Float) : Prop := (Numeral.ofFloat? x).bind Numeral.toFloat? = some x

instance (x : Float) : Decidable (ReadsBack x) := inferInstanceAs (Decidable (_ = _))

theorem written_float (x : Float) : (toJson x).Written := by
  intro t ht
  show t.Written
  unfold toJson instDocumentFloat at ht
  dsimp only at ht
  split at ht
  · next n hn =>
      obtain rfl := List.mem_singleton.mp ht
      exact Numeral.written_of_ofFloat? hn
  · obtain rfl := List.mem_singleton.mp ht
    trivial

theorem ofJson?_float (x : Float) : ofJson? (toJson x) = some x ↔ ReadsBack x := by
  unfold ReadsBack ofJson? toJson instDocumentFloat
  dsimp only
  cases Numeral.ofFloat? x <;> rfl

variable {α : Type} [Document α]

theorem written_list {xs : List α} (h : ∀ x ∈ xs, (toJson x).Written) : (toJson xs).Written := by
  refine Json.written_array fun v hv => ?_
  obtain ⟨x, hx, rfl⟩ := List.mem_map.mp hv
  exact h x hx

theorem ofJson?_list (xs : List α) :
    ofJson? (toJson xs) = some xs ↔ ∀ x ∈ xs, ofJson? (toJson x) = some x := by
  show (xs.map toJson).mapM ofJson? = some xs ↔ _
  induction xs with
  | nil => simp
  | cons x xs ih =>
      rw [List.map_cons, List.mapM_cons, List.forall_mem_cons, ← ih]
      simp only [Option.bind_eq_bind, Option.bind_eq_some_iff, Option.pure_def, Option.some.injEq,
        List.cons.injEq]
      constructor
      · rintro ⟨y, hy, ys, hys, rfl, rfl⟩
        exact ⟨hy, hys⟩
      · rintro ⟨hy, hys⟩
        exact ⟨x, hy, xs, hys, rfl, rfl⟩

end StellarWind
