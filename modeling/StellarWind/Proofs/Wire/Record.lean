import StellarWind.Proofs.Except
import StellarWind.Proofs.Wire.Transfer

/-!
# Records on the wire

A schema packs a record exactly when every field can carry its value
(`Schema.Carries`), as the bytes `Schema.bytes`, which are always
`Schema.size` many. Unpacking these bytes into another record has the effect
of copying field after field, getter to setter (`Schema.copy`), with no buffer in
between.
-/

namespace StellarWind

open Transfer

/-! ## Composite values

A composite value is packed if each of its members has the declared kind. Then its bytes have the
length that the layout says.
-/

namespace Composite

/-- The members of a value have the kinds that the layout declares. -/
def Holds (c : Composite) (get : Nat → Scalar) : Prop :=
  ∀ p ∈ c.members.zipIdx, (get p.2).kind = p.1.kind

/-- The bytes of a value, member by member. -/
def bytesOf (c : Composite) (get : Nat → Scalar) : List UInt8 :=
  c.members.zipIdx.flatMap fun p => bytesOfScalar (get p.2)

/-- The bytes of a layout are those of its numbered members. -/
theorem sum_zipIdx_sizes (c : Composite) :
    (c.members.zipIdx.map fun p => p.1.kind.size).sum = c.bytes := by
  have hmap : (c.members.zipIdx.map fun p => p.1.kind.size) = c.members.map (·.kind.size) := by
    conv => rhs; rw [← List.zipIdx_map_fst 0 c.members, List.map_map]
    rfl
  rw [hmap]
  rfl

theorem writes_pack (c : Composite) (get : Nat → Scalar) :
    (c.pack get).Writes (c.Holds get) (c.bytesOf get) () := by
  refine Writes.forM ?_
  rintro ⟨m, i⟩ -
  show Transfer.Writes (if (get i).kind ≠ m.kind then _ else _) _ _ ()
  by_cases h : (get i).kind = m.kind
  · rw [if_neg (not_not_intro h)]
    exact (writes_packScalar (get i)).congr (by simp [h])
  · rw [if_pos h]
    exact (writes_throw _ _ ()).congr (by simp [h])

theorem advances_pack (c : Composite) (get : Nat → Scalar) : (c.pack get).Advances := by
  refine Advances.forM ?_
  rintro ⟨m, i⟩
  show Transfer.Advances (if (get i).kind ≠ m.kind then _ else _)
  split
  · exact advances_throw _
  · exact advances_packScalar _

theorem length_bytesOfScalar (v : Scalar) : (bytesOfScalar v).length = v.kind.size := by
  cases v with
  | int v => exact length_intBytes v
  | double v => exact length_doubleBytes v

theorem length_flatMap_bytesOfScalar {ps : List (Member × Nat)} {get : Nat → Scalar}
    (h : ∀ p ∈ ps, (get p.2).kind = p.1.kind) :
    (ps.flatMap fun p => bytesOfScalar (get p.2)).length =
      (ps.map fun p => p.1.kind.size).sum := by
  induction ps with
  | nil => rfl
  | cons p ps ih =>
      rw [List.flatMap_cons, List.length_append, List.map_cons, List.sum_cons, length_bytesOfScalar,
        h p List.mem_cons_self, ih fun q hq => h q (List.mem_cons_of_mem p hq)]

theorem length_bytesOf {c : Composite} {get : Nat → Scalar} (h : c.Holds get) :
    (c.bytesOf get).length = c.bytes := by
  rw [bytesOf, length_flatMap_bytesOfScalar h, c.sum_zipIdx_sizes]

end Composite

/-! ## Fields

For each kind of field: when it carries a value, which bytes it has, and what copying it means. A
setter may refuse what a getter gives, so that a copy may fail although the value can be packed.
-/

namespace Field

variable {ρ : Type}

/-- The field can carry what the record holds. -/
def Carries (f : Field ρ) (r : ρ) : Prop :=
  match f.access with
  | .int _ _ => True
  | .index get _ => get r < Count.positive32
  | .double _ _ => True
  | .doubles count get _ _ => count = (get r).length
  | .composite layout get _ => layout.Holds (get r)

/-- The bytes of the field of a record. -/
def bytes (f : Field ρ) (r : ρ) : List UInt8 :=
  match f.access with
  | .int get _ => intBytes (get r)
  | .index get _ => intBytes (Int32.ofNat (get r))
  | .double get _ => doubleBytes (get r)
  | .doubles _ get _ _ => (get r).flatMap doubleBytes
  | .composite layout get _ => layout.bytesOf (get r)

/-- Copy the field from the record `r` to the record `t`. -/
def copy (f : Field ρ) (r t : ρ) : Except ExchangeError ρ :=
  match f.access with
  | .int get set => set t (get r)
  | .index get set => .ok (set t (get r))
  | .double get set => .ok (set t (get r))
  | .doubles count get room set => do
    f.checkSize count (room t)
    return set t (get r)
  | .composite layout get set =>
    layout.members.zipIdx.foldlM (fun t p => set t p.2 (get r p.2)) t

theorem copy_int (name : String) (get : ρ → Int32) (set : ρ → Int32 → Except ExchangeError ρ)
    (r t : ρ) : copy ⟨name, .int get set⟩ r t = set t (get r) := rfl

theorem copy_index (name : String) (get : ρ → Nat) (set : ρ → Nat → ρ) (r t : ρ) :
    copy ⟨name, .index get set⟩ r t = .ok (set t (get r)) := rfl

theorem copy_double (name : String) (get : ρ → Binary64) (set : ρ → Binary64 → ρ) (r t : ρ) :
    copy ⟨name, .double get set⟩ r t = .ok (set t (get r)) := rfl

/-- The number of bytes of the field. -/
def size (f : Field ρ) : Nat :=
  f.ints * ScalarKind.int.size + f.doubles * ScalarKind.double.size +
    (f.layout?.toList.map Composite.bytes).sum

/-! ### Packing a field

A field is packed exactly if it carries its value and there is room. In any case only bytes at the
cursor are stepped over.
-/

theorem checkSize_eq_ok_iff (f : Field ρ) (declared actual : Nat) (u : Unit) :
    f.checkSize declared actual = .ok u ↔ declared = actual ∧ u = () := by
  unfold checkSize
  by_cases h : declared = actual
  · simp [h]
  · simp [h]

theorem writes_pack (f : Field ρ) (r : ρ) : (f.pack r).Writes (f.Carries r) (f.bytes r) () := by
  obtain ⟨name, access⟩ := f
  cases access with
  | int get set => exact writes_put _
  | index get set =>
      show Transfer.Writes (if get r < Count.positive32 then _ else _)
        (get r < Count.positive32) _ ()
      by_cases h : get r < Count.positive32
      · rw [if_pos h]
        exact (writes_put _).congr (by simp [h])
      · rw [if_neg h]
        exact (writes_throw _ _ ()).congr (by simp [h])
  | double get set => exact writes_put _
  | doubles count get room set =>
      have h := (writes_lift (checkSize_eq_ok_iff ⟨name, .doubles count get room set⟩ count
        (get r).length)).bind (f := fun _ => packDoubles (get r)) (writes_put _)
      exact h.congr (and_iff_left trivial)
  | composite layout get set => exact layout.writes_pack (get r)

/-- An index that is too large ends the packing before anything is put. -/
theorem on_pack_index_bind (name : String) (get : ρ → Nat) (set : ρ → Nat → ρ) (r : ρ)
    (later : Transfer Unit) {b : Buffer} (hroom : 4 ≤ b.ahead.length) :
    (pack ⟨name, .index get set⟩ r >>= fun _ => later).on b =
      if get r < Count.positive32 then later.on (b.replace (intBytes (Int32.ofNat (get r))))
      else (.error (.invalidField name (.indexTooLarge (get r))), b) := by
  show Transfer.on ((if get r < Count.positive32 then _ else _) >>= fun _ => later) b = _
  by_cases h : get r < Count.positive32
  · rw [if_pos h, if_pos h]
    exact (writes_put _).on_bind_of trivial (by rwa [length_intBytes])
  · rw [if_neg h, if_neg h]
    rfl

theorem advances_pack (f : Field ρ) (r : ρ) : (f.pack r).Advances := by
  obtain ⟨name, access⟩ := f
  cases access with
  | int get set => exact advances_put _
  | index get set =>
      show Transfer.Advances (if get r < Count.positive32 then _ else _)
      split
      · exact advances_put _
      · exact advances_throw _
  | double get set => exact advances_put _
  | doubles count get set => exact (advances_lift _).bind fun _ => advances_put _
  | composite layout get set => exact layout.advances_pack (get r)

theorem advances_unpack (f : Field ρ) : f.unpack.Advances := by
  obtain ⟨name, access⟩ := f
  cases access with
  | int get set => exact Filling.advances_update_ofTransfer advances_unpackInt _
  | index get set =>
      refine (Filling.advances_ofTransfer advances_unpackInt).bind fun wire => ?_
      split
      · exact Filling.advances_throw _
      · exact Filling.advances_update _
  | double get set => exact Filling.advances_update_ofTransfer advances_unpackDouble _
  | doubles count get room set =>
      refine Filling.advances_record.bind fun _ => (Filling.advances_lift _).bind fun _ => ?_
      exact Filling.advances_update_ofTransfer (advances_unpackDoubles count) _
  | composite layout get set =>
      refine Filling.Advances.forM fun p => ?_
      exact Filling.advances_update_ofTransfer (advances_unpackScalar p.1.kind) _

theorem length_bytes {f : Field ρ} {r : ρ} (h : f.Carries r) : (f.bytes r).length = f.size := by
  obtain ⟨name, access⟩ := f
  cases access with
  | int get set => exact length_intBytes _
  | index get set => exact length_intBytes _
  | double get set => exact length_doubleBytes _
  | doubles count get room set =>
      have hc : count = (get r).length := h
      show ((get r).flatMap doubleBytes).length = 0 * 4 + count * 8 + 0
      rw [length_flatMap_doubleBytes, hc]
      omega
  | composite layout get set =>
      show (layout.bytesOf (get r)).length = 0 * 4 + 0 * 8 + (layout.bytes + 0)
      rw [Composite.length_bytesOf h]
      omega

/-! ### Reading a field back

The bytes that were packed are read by the same kind, so that the value comes back and the setter
gets what the getter gave.
-/

theorem not_ofNat_neg {n : Nat} (h : n < Count.positive32) : ¬ Int32.ofNat n < 0 := by
  have h31 : n < 2 ^ 31 := h
  rw [Int32.lt_iff_toInt_lt, Int32.toInt_ofNat_of_lt h31]
  simp

theorem toNatClampNeg_ofNat {n : Nat} (h : n < Count.positive32) :
    (Int32.ofNat n).toNatClampNeg = n :=
  Int32.toNatClampNeg_ofNat_of_lt h

/-- An index is read from any four bytes; a negative one ends the unpacking. -/
theorem on_unpack_index_bind (name : String) (get : ρ → Nat) (set : ρ → Nat → ρ)
    (later : Filling ρ Unit) {xs : List UInt8} (hlen : xs.length = 4) (t : ρ)
    (behind rest : List UInt8) :
    (unpack ⟨name, .index get set⟩ >>= fun _ => later).on t ⟨behind, xs ++ rest⟩ =
      if intOfBytes xs < 0 then
        (.error (.invalidField name (.negativeIndex (intOfBytes xs).toInt)), t,
          ⟨xs.reverse ++ behind, rest⟩)
      else later.on (set t (intOfBytes xs).toNatClampNeg) ⟨xs.reverse ++ behind, rest⟩ := by
  have hread := Filling.reads_ofTransfer (gives_unpackInt (intOfBytes xs)) t behind rest
  rw [intBytes_intOfBytes hlen] at hread
  show ((Filling.ofTransfer unpackInt >>= fun wire => _) >>= fun _ => later).on t _ = _
  rw [bind_assoc, Filling.on_bind, hread]
  show Filling.on ((if intOfBytes xs < 0 then _ else _) >>= fun _ => later) t _ = _
  by_cases h : intOfBytes xs < 0
  · rw [if_pos h, if_pos h]
    rfl
  · rw [if_neg h, if_neg h]
    rfl

theorem copy_doubles_eq_ok {name : String} {count : Nat} {get : ρ → List Binary64}
    {room : ρ → Nat} {set : ρ → List Binary64 → ρ} {r t t' : ρ}
    (h : copy ⟨name, .doubles count get room set⟩ r t = .ok t') :
    count = room t ∧ set t (get r) = t' := by
  change (checkSize ⟨name, .doubles count get room set⟩ count (room t) >>= fun _ =>
    pure (set t (get r))) = .ok t' at h
  cases hsize : checkSize ⟨name, .doubles count get room set⟩ count (room t) with
  | error e => rw [hsize] at h; cases h
  | ok u =>
      rw [hsize] at h
      exact ⟨((checkSize_eq_ok_iff _ _ _ u).mp hsize).1, Except.ok.inj h⟩

/-- Unpacking the bytes of a field copies the field. -/
theorem reads_unpack {f : Field ρ} {r t t' : ρ} (hc : f.Carries r) (h : f.copy r t = .ok t') :
    f.unpack.Reads t (f.bytes r) t' () := by
  obtain ⟨name, access⟩ := f
  cases access with
  | int get set =>
      exact Filling.reads_update_ofTransfer (f := fun wire t => set t wire)
        (gives_unpackInt (get r)) h
  | index get set =>
      have hlt : get r < Count.positive32 := hc
      let next (wire : Int32) : Filling ρ Unit :=
        if wire < 0 then throw (.invalidField name (.negativeIndex wire.toInt))
        else Filling.update fun r => .ok (set r wire.toNatClampNeg)
      have hu : (next (Int32.ofNat (get r))).Reads t [] t' () := by
        show Filling.Reads (if _ then _ else _) _ _ _ _
        -- An index that was packed does not come back as a negative integer.
        rw [if_neg (not_ofNat_neg hlt), toNatClampNeg_ofNat hlt]
        exact Filling.reads_update h
      have hr := (Filling.reads_ofTransfer (gives_unpackInt (Int32.ofNat (get r))) t).bind
        (g := next) hu
      rwa [List.append_nil] at hr
  | double get set =>
      exact Filling.reads_update_ofTransfer (f := fun value t => .ok (set t value))
        (gives_unpackDouble (get r)) h
  | doubles count get room set =>
      obtain ⟨hsize, rfl⟩ := copy_doubles_eq_ok h
      have hs : (liftM (checkSize ⟨name, .doubles count get room set⟩ count (room t)) :
          Filling ρ Unit).Reads t [] t () := by
        rw [checkSize, if_pos hsize]
        exact Filling.reads_lift () t
      have hv : (unpackDoubles count).Gives ((get r).flatMap doubleBytes) (get r) := by
        have hlen : count = (get r).length := hc
        rw [hlen]
        exact gives_unpackDoubles (get r)
      have hu := Filling.reads_update_ofTransfer (f := fun values t => .ok (set t values))
        (r := t) hv rfl
      exact (Filling.reads_record t).bind (hs.bind (g := fun _ => _) hu)
  | composite layout get set =>
      refine Filling.Reads.forM (g := fun t (p : Member × Nat) => set t p.2 (get r p.2)) ?_ h
      rintro ⟨m, i⟩ hp s s' hs
      -- The member is read by its declared kind, which is that of the value.
      have hk : (get r i).kind = m.kind := hc (m, i) hp
      have hr := Filling.reads_update_ofTransfer (f := fun value t => set t i value)
        (gives_unpackScalar (get r i)) hs
      rwa [hk] at hr

end Field

/-! ## Schemas

A schema is its fields one after another, and so are its bytes, its copy and its size. The program
counts integers, doubles and composite values apart, which comes to the same sum.
-/

namespace Schema

variable {ρ : Type}

/-- Every field can carry what the record holds. -/
def Carries (s : Schema ρ) (r : ρ) : Prop := ∀ f ∈ s.fields, f.Carries r

/-- The bytes of a record, field by field. -/
def bytes (s : Schema ρ) (r : ρ) : List UInt8 := s.fields.flatMap (·.bytes r)

/-- Copy all fields from the record `r` to the record `t`. -/
def copy (s : Schema ρ) (r t : ρ) : Except ExchangeError ρ :=
  s.fields.foldlM (fun t f => f.copy r t) t

theorem writes_pack (s : Schema ρ) (r : ρ) : (s.pack r).Writes (s.Carries r) (s.bytes r) () :=
  Writes.forM fun f _ => f.writes_pack r

theorem advances_pack (s : Schema ρ) (r : ρ) : (s.pack r).Advances :=
  Advances.forM fun f => f.advances_pack r

theorem advances_unpack (s : Schema ρ) : s.unpack.Advances :=
  Filling.Advances.forM fun f => f.advances_unpack

/-- Unpacking the bytes of a record copies its fields. -/
theorem reads_unpack {s : Schema ρ} {r t t' : ρ} (hc : s.Carries r) (h : s.copy r t = .ok t') :
    s.unpack.Reads t (s.bytes r) t' () :=
  Filling.Reads.forM (fun f hf _ _ hcopy => Field.reads_unpack (hc f hf) hcopy) h

/-- The number of bytes of a record, field by field. -/
def size (s : Schema ρ) : Nat := (s.fields.map Field.size).sum

/-- Integers, doubles and composite values that are counted apart, or field by field. -/
theorem size_eq (s : Schema ρ) : s.size = (s.fields.map Field.ints).sum * 4 +
    (s.fields.map Field.doubles).sum * 8 + (s.layouts.map Composite.bytes).sum := by
  obtain ⟨name, fields⟩ := s
  simp only [size, layouts]
  induction fields with
  | nil => rfl
  | cons f fields ih =>
      have hl : (f :: fields).filterMap Field.layout? =
          f.layout?.toList ++ fields.filterMap Field.layout? := by
        rw [List.filterMap_cons]
        cases f.layout? <;> rfl
      rw [hl, List.map_append, List.sum_append]
      simp only [List.map_cons, List.sum_cons, Field.size, ih]
      show _ * 4 + _ * 8 + _ + _ = _
      omega

/-- The size of a record is computed exactly if it is in the 64-bit range. -/
theorem recordBytes_eq (s : Schema ρ) : s.recordBytes = checked s.size := by
  rw [recordBytes, ints, doubles, checkedSum_eq, checkedSum_eq, checkedSum_eq, s.size_eq]
  -- Every part is at most the whole, so that only the last check matters.
  refine checked_bind_le (by omega) (checked_bind_le (by omega) (checked_bind_le (by omega) ?_))
  refine checked_bind_le ?_ (checked_bind_le ?_ (checked_bind_le ?_ rfl))
  all_goals
    dsimp only [ScalarKind.size]
    omega

theorem length_bytes {s : Schema ρ} {r : ρ} (h : s.Carries r) :
    (s.bytes r).length = s.size := by
  rw [size, bytes]
  obtain ⟨name, fields⟩ := s
  induction fields with
  | nil => rfl
  | cons f fields ih =>
      rw [List.flatMap_cons, List.length_append, List.map_cons, List.sum_cons,
        Field.length_bytes (h f List.mem_cons_self),
        ih fun g hg => h g (List.mem_cons_of_mem f hg)]

end Schema

end StellarWind
