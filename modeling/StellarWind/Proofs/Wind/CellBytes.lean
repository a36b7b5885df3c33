import StellarWind.Proofs.Wind.CellRecord

/-!
# Cells and records of 280 bytes

Every record of 280 bytes whose first three integers are not negative is the packed
form of exactly one cell with a proper standing, `Cell.ofRecord`, and unpacking finds
it whatever the target held. So the fields of a cell and the bytes of a record
determine each other, and nothing else is ever accepted.
-/

namespace StellarWind

open Transfer

namespace Cell

/-! ## The cell of a record

A record has three indices, then 33 doubles, then the code of a standing. To make a cell of it is to
cut it into these slices. The slices lie side by side, so that packing the cell puts them together
to the same record.
-/

/-- The integer at an offset of a record. -/
def intAt (record : List UInt8) (offset : Nat) : Int32 := intOfBytes ((record.drop offset).take 4)

/-- The doubles of a record in order; they stand behind its three indices. -/
def doubleAt (record : List UInt8) (n : Nat) : Binary64 :=
  doubleOfBytes ((record.drop (12 + n * 8)).take 8)

/-- The cell whose parts are given in the order of transmission. -/
def ofParts (domain domainIndex tallyIndex : Nat) (x : Nat → Binary64) (code : Int32) : Cell where
  domain := domain
  domainIndex := domainIndex
  tallyIndex := tallyIndex
  position := ⟨x 0, x 1, x 2⟩
  centroid := ⟨x 3, x 4, x 5⟩
  r := x 6
  rCenter := x 7
  theta := x 8
  thetaCenter := x 9
  dtheta := x 10
  dr := x 11
  cone := ⟨x 12, x 13⟩
  velocity := ⟨x 14, x 15, x 16⟩
  gradient := ⟨⟨x 17, x 18, x 19⟩, ⟨x 20, x 21, x 22⟩, ⟨x 23, x 24, x 25⟩⟩
  divergence := x 26
  dvdsMean := x 27
  dvdsMax := x 28
  volume := x 29
  gamma := x 30
  gammaCenter := x 31
  fudge := x 32
  standing := .ofCode code

/-- The cell that a record stands for. -/
def ofRecord (record : List UInt8) : Cell :=
  ofParts (intAt record 0).toNatClampNeg (intAt record 4).toNatClampNeg
    (intAt record 8).toNatClampNeg (doubleAt record) (intAt record 276)

/-- None of the three indices of a record is negative. -/
def Readable (record : List UInt8) : Prop :=
  ¬ intAt record 0 < 0 ∧ ¬ intAt record 4 < 0 ∧ ¬ intAt record 8 < 0

/-! ### The bytes of the cell of a record

Field by field they are the bytes of the record at the offset of the field.
-/

theorem bytes_ofParts (domain domainIndex tallyIndex : Nat) (x : Nat → Binary64) (code : Int32) :
    schema.bytes (ofParts domain domainIndex tallyIndex x code) =
      intBytes (Int32.ofNat domain) ++ (intBytes (Int32.ofNat domainIndex) ++
        (intBytes (Int32.ofNat tallyIndex) ++
          ((List.range 33).flatMap (fun n => doubleBytes (x n)) ++ intBytes code))) := by
  have hrange : List.range 33 = [0, 1, 2, 3, 4, 5, 6, 7, 8, 9, 10, 11, 12, 13, 14, 15, 16, 17, 18,
      19, 20, 21, 22, 23, 24, 25, 26, 27, 28, 29, 30, 31, 32] := by decide
  have hcone : Cone.layout.bytesOf (Cone.get ⟨x 12, x 13⟩) =
      doubleBytes (x 12) ++ doubleBytes (x 13) := by
    show doubleBytes (x 12) ++ (doubleBytes (x 13) ++ []) = _
    rw [List.append_nil]
  rw [hrange]
  simp only [Schema.bytes, schema, ofParts, vectorField, tensorField, Field.bytes,
    Vec3.toList, Tensor3.toList, hcone, Standing.code_ofCode, List.flatMap_cons, List.flatMap_nil,
    List.append_nil, List.append_assoc, List.cons_append, List.nil_append]

theorem length_take_drop_of_le {record : List UInt8} {offset n : Nat}
    (h : offset + n ≤ record.length) : ((record.drop offset).take n).length = n := by
  rw [List.length_take, List.length_drop]
  omega

/-- Two slices that lie side by side, the second one up to the end. -/
theorem take_drop_append (record : List UInt8) (offset n : Nat) :
    (record.drop offset).take n ++ record.drop (offset + n) = record.drop offset := by
  rw [← List.drop_drop, List.take_append_drop]

theorem intBytes_intAt {record : List UInt8} {offset : Nat} (h : offset + 4 ≤ record.length) :
    intBytes (intAt record offset) = (record.drop offset).take 4 :=
  intBytes_intOfBytes (length_take_drop_of_le h)

theorem ofNat_toNatClampNeg {i : Int32} (h : ¬ i < 0) : Int32.ofNat i.toNatClampNeg = i := by
  have h0 : 0 ≤ i.toInt := by
    rw [Int32.lt_iff_toInt_lt] at h
    simpa using h
  apply Int32.toInt_inj.mp
  rw [Int32.toInt_ofNat_of_lt (Int32.toNatClampNeg_lt i)]
  exact Int.toNat_of_nonneg h0

/-- The doubles of a record are the bytes between its indices and its code. -/
theorem flatMap_doubleAt {record : List UInt8} {n : Nat} (h : 12 + n * 8 ≤ record.length) :
    (List.range n).flatMap (fun k => doubleBytes (doubleAt record k)) =
      (record.drop 12).take (n * 8) := by
  induction n with
  | zero => simp
  | succ n ih =>
      have hlast : doubleBytes (doubleAt record n) = (record.drop (12 + n * 8)).take 8 :=
        doubleBytes_doubleOfBytes (length_take_drop_of_le (by omega))
      rw [List.range_succ, List.flatMap_append, ih (by omega), List.flatMap_singleton, hlast,
        Nat.succ_mul, List.take_add, List.drop_drop]

/-- A readable record is the packed form of its cell. -/
theorem bytes_ofRecord {record : List UInt8} (hlen : record.length = 280) (h : Readable record) :
    schema.bytes (ofRecord record) = record := by
  obtain ⟨h₀, h₄, h₈⟩ := h
  rw [ofRecord, bytes_ofParts, ofNat_toNatClampNeg h₀, ofNat_toNatClampNeg h₄,
    ofNat_toNatClampNeg h₈, flatMap_doubleAt (by omega), intBytes_intAt (by omega),
    intBytes_intAt (by omega), intBytes_intAt (by omega), intBytes_intAt (by omega)]
  -- The five slices lie side by side and end where the record does.
  have hcode : (record.drop 276).take 4 = record.drop 276 :=
    List.take_of_length_le (by rw [List.length_drop]; omega)
  rw [hcode, take_drop_append record 12 (33 * 8), take_drop_append record 8 4,
    take_drop_append record 4 4, List.drop_zero, List.take_append_drop]

theorem isIndexed_ofRecord (record : List UInt8) : (ofRecord record).IsIndexed :=
  ⟨Int32.toNatClampNeg_lt _, Int32.toNatClampNeg_lt _, Int32.toNatClampNeg_lt _⟩

theorem arrived_ofRecord (record : List UInt8) : (ofRecord record).arrived = ofRecord record := by
  rw [arrived_eq_self_iff, ← Standing.ofCode_code_iff]
  exact congrArg Standing.ofCode (Standing.code_ofCode _)

/-! ## Unpacking any record

A readable record was packed from its cell, and what unpacking does with packed cells is known. Any
other record has a negative index, and since the indices come first the rest is not looked at.
-/

theorem reads_unpack_record {record : List UInt8} (hlen : record.length = 280)
    (h : Readable record) (t : Cell) : schema.unpack.Reads t record (ofRecord record) () := by
  have hread := reads_unpack (isIndexed_ofRecord record) t
  rwa [bytes_ofRecord hlen h, arrived_ofRecord] at hread

/-- The fields behind the three indices. -/
def laterFields : List (Field Cell) := schema.fields.drop 3

theorem unpack_eq : schema.unpack = (do
    Field.unpack ⟨"domain", .index (·.domain) fun c v => { c with domain := v }⟩
    Field.unpack ⟨"domain_index", .index (·.domainIndex) fun c v => { c with domainIndex := v }⟩
    Field.unpack ⟨"plasma_index", .index (·.tallyIndex) fun c v => { c with tallyIndex := v }⟩
    laterFields.forM Field.unpack) := rfl

/-- A record with a negative index is refused because of the first one. -/
theorem unpack_refuses {record : List UInt8} (hlen : record.length = 280) (h : ¬ Readable record)
    (t : Cell) (behind rest : List UInt8) :
    ∃ field wire, (schema.unpack.on t ⟨behind, record ++ rest⟩).1 =
      .error (.invalidField field (.negativeIndex wire)) := by
  have hsplit : record ++ rest = record.take 4 ++ ((record.drop 4).take 4 ++
      ((record.drop 8).take 4 ++ (record.drop 12 ++ rest))) := by
    rw [← List.append_assoc _ _ rest, take_drop_append record 8 4, ← List.append_assoc _ _ rest,
      take_drop_append record 4 4, ← List.append_assoc _ _ rest, List.take_append_drop]
  have h₀ : (record.take 4).length = 4 := by rw [List.length_take]; omega
  have h₄ : ((record.drop 4).take 4).length = 4 := length_take_drop_of_le (by omega)
  have h₈ : ((record.drop 8).take 4).length = 4 := length_take_drop_of_le (by omega)
  -- The three indices come first, and each of them may end the unpacking.
  rw [hsplit, unpack_eq, Field.on_unpack_index_bind _ _ _ _ h₀]
  by_cases hdomain : intOfBytes (record.take 4) < 0
  · rw [if_pos hdomain]
    exact ⟨_, _, rfl⟩
  rw [if_neg hdomain, Field.on_unpack_index_bind _ _ _ _ h₄]
  by_cases hindex : intOfBytes ((record.drop 4).take 4) < 0
  · rw [if_pos hindex]
    exact ⟨_, _, rfl⟩
  rw [if_neg hindex, Field.on_unpack_index_bind _ _ _ _ h₈]
  by_cases htally : intOfBytes ((record.drop 8).take 4) < 0
  · rw [if_pos htally]
    exact ⟨_, _, rfl⟩
  exact absurd ⟨hdomain, hindex, htally⟩ h

/-! ## Packing any cell

In the same way a cell that cannot be packed is stopped at its first index that is too large.
-/

theorem pack_eq (c : Cell) : schema.pack c = (do
    Field.pack ⟨"domain", .index (·.domain) fun c v => { c with domain := v }⟩ c
    Field.pack ⟨"domain_index", .index (·.domainIndex) fun c v => { c with domainIndex := v }⟩ c
    Field.pack ⟨"plasma_index", .index (·.tallyIndex) fun c v => { c with tallyIndex := v }⟩ c
    laterFields.forM (·.pack c)) := rfl

/-- The three indices by their names on the wire. -/
def indices (c : Cell) : List (String × Nat) :=
  [("domain", c.domain), ("domain_index", c.domainIndex), ("plasma_index", c.tallyIndex)]

/-- A cell with an index that is too large is refused because of such an index. -/
theorem pack_refuses {c : Cell} (h : ¬ c.IsIndexed) {b : Buffer} (hroom : 280 ≤ b.ahead.length) :
    ∃ field value, (field, value) ∈ c.indices ∧ Count.positive32 ≤ value ∧
      ((schema.pack c).on b).1 = .error (.invalidField field (.indexTooLarge value)) := by
  have hrest (n : Nat) (b : Buffer) : b.ahead.length - 4 = (b.replace
      (intBytes (Int32.ofNat n))).ahead.length := by
    rw [Buffer.length_ahead_replace, length_intBytes]
  rw [pack_eq, Field.on_pack_index_bind _ _ _ _ _ (by omega)]
  by_cases hdomain : c.domain < Count.positive32
  · rw [if_pos hdomain, Field.on_pack_index_bind _ _ _ _ _ (by rw [← hrest]; omega)]
    by_cases hindex : c.domainIndex < Count.positive32
    · rw [if_pos hindex, Field.on_pack_index_bind _ _ _ _ _ (by rw [← hrest, ← hrest]; omega)]
      have htally : ¬ c.tallyIndex < Count.positive32 := fun ht => h ⟨hdomain, hindex, ht⟩
      rw [if_neg htally]
      exact ⟨_, _, by simp [indices], Nat.not_lt.mp htally, rfl⟩
    · rw [if_neg hindex]
      exact ⟨_, _, by simp [indices], Nat.not_lt.mp hindex, rfl⟩
  · rw [if_neg hdomain]
    exact ⟨_, _, by simp [indices], Nat.not_lt.mp hdomain, rfl⟩

/-! ## Both directions

The two directions meet in `Cell.ofRecord`: it is what unpacking gives, and it packs to the record.
-/

/-- Packing and unpacking are inverse to each other, and each refuses exactly what the
other cannot have made. -/
theorem pack_unpack_inverse :
    (∀ (c : Cell) (b : Buffer), 280 ≤ b.ahead.length →
      (c.IsIndexed → ∃ record, record.length = 280 ∧
        (schema.pack c).on b = (.ok (), b.replace record) ∧
        ∀ (t : Cell) (behind rest : List UInt8),
          schema.unpack.on t ⟨behind, record ++ rest⟩ =
            (.ok (), { c with standing := .ofCode c.standing.code },
              ⟨record.reverse ++ behind, rest⟩)) ∧
      (¬ c.IsIndexed → ∃ field value, (field, value) ∈ c.indices ∧ Count.positive32 ≤ value ∧
        ((schema.pack c).on b).1 = .error (.invalidField field (.indexTooLarge value)))) ∧
    (∀ c : Cell, { c with standing := .ofCode c.standing.code } = c ↔ c.standing.IsProper) ∧
    ∀ record : List UInt8, record.length = 280 → ∀ (t : Cell) (behind rest : List UInt8),
      ((∃ e, (schema.unpack.on t ⟨behind, record ++ rest⟩).1 = .error e) ↔
        intAt record 0 < 0 ∨ intAt record 4 < 0 ∨ intAt record 8 < 0) ∧
      ∀ (c : Cell) (b' : Buffer),
        schema.unpack.on t ⟨behind, record ++ rest⟩ = (.ok (), c, b') →
          ∀ b : Buffer, 280 ≤ b.ahead.length →
            (schema.pack c).on b = (.ok (), b.replace record) := by
  have hpack {c : Cell} (h : c.IsIndexed) {b : Buffer} (hroom : 280 ≤ b.ahead.length) :
      (schema.pack c).on b = (.ok (), b.replace (schema.bytes c)) :=
    (writes_pack c b _ ()).mpr ⟨h, by rwa [length_bytes h], rfl, rfl⟩
  refine ⟨fun c b hroom => ⟨fun h => ?_, fun h => pack_refuses h hroom⟩, arrived_eq_self_iff, ?_⟩
  · exact ⟨schema.bytes c, length_bytes h, hpack h hroom, reads_unpack h⟩
  · intro record hlen t behind rest
    -- A readable record is the bytes of a cell, and any other is refused.
    by_cases h : Readable record
    · have hread := reads_unpack_record hlen h t behind rest
      obtain ⟨h₀, h₄, h₈⟩ := id h
      constructor
      · rw [hread]
        simp [h₀, h₄, h₈]
      · intro c b' hc b hroom
        rw [hread] at hc
        obtain ⟨rfl, -⟩ : ofRecord record = c ∧ _ = b' := by simpa using hc
        rw [hpack (isIndexed_ofRecord record) hroom, bytes_ofRecord hlen h]
    · obtain ⟨field, wire, herror⟩ := unpack_refuses hlen h t behind rest
      constructor
      · refine ⟨fun _ => ?_, fun _ => ⟨_, herror⟩⟩
        unfold Readable at h
        grind
      · intro c b' hc
        rw [hc] at herror
        cases herror

/-- A cell with the largest index, a radius that is not a number, and a standing that
hides the code of another one. -/
def veiled : Cell :=
  { blank 2147483647 0 1 with r := ⟨0x7ff8000000000001⟩, standing := .other (-1) }

theorem pack_unpack_inverse_veiled :
    ∃ record : List UInt8, record.length = 280 ∧
      (schema.pack veiled).on ⟨[], List.replicate 300 7⟩ =
        (.ok (), Buffer.replace ⟨[], List.replicate 300 7⟩ record) ∧
      schema.unpack.on (blank 5 6 7) ⟨[], record ++ [1, 2]⟩ =
        (.ok (), { veiled with standing := .outside }, ⟨record.reverse, [1, 2]⟩) := by
  have hroom : 280 ≤ (List.replicate 300 (7 : UInt8)).length := by
    rw [List.length_replicate]
    omega
  obtain ⟨record, hlen, hpack, hunpack⟩ :=
    (pack_unpack_inverse.1 veiled ⟨[], List.replicate 300 7⟩ hroom).1 (by decide)
  have hread := hunpack (blank 5 6 7) [] [1, 2]
  rw [List.append_nil] at hread
  exact ⟨record, hlen, hpack, hread⟩

end Cell

end StellarWind
