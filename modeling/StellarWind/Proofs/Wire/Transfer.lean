import StellarWind.Wire.Schema

/-!
# What a transfer does to a buffer

Three relations between a computation on a buffer and the bytes at its cursor:

* `Transfer.Writes t P bytes a`: the packer `t` succeeds exactly when `P` holds and
  `bytes` fits, and then `bytes` is what it leaves behind the cursor.
* `Filling.Reads f r bytes r' a`: the unpacker `f`, started on `r` in front of
  `bytes`, steps over exactly these bytes and turns `r` into `r'`.
* `Buffer.Reaches b b'`: some bytes at the cursor of `b` were stepped over, perhaps
  replaced, and nothing else is different in `b'`. Every transfer does no more than
  that, also when it fails.

Each is closed under sequencing, so that packers and unpackers of whole records
get theirs from the ones of scalars.
-/

namespace StellarWind

/-! ## Buffers

A buffer has the bytes behind its cursor in reverse, so that bytes that are put come to the front of
them. Putting bytes one after another is putting them all at once (`replace_append`), and this is
what makes sequences of packers easy.
-/

namespace Buffer

/-- The buffer after bytes were put at the cursor. -/
def replace (b : Buffer) (bytes : List UInt8) : Buffer :=
  ⟨bytes.reverse ++ b.behind, b.ahead.drop bytes.length⟩

@[simp] theorem replace_nil (b : Buffer) : b.replace [] = b := rfl

theorem replace_append (b : Buffer) (xs ys : List UInt8) :
    b.replace (xs ++ ys) = (b.replace xs).replace ys := by
  simp [replace, List.drop_drop]

theorem length_ahead_replace (b : Buffer) (bytes : List UInt8) :
    (b.replace bytes).ahead.length = b.ahead.length - bytes.length := by
  simp [replace]

@[simp] theorem length_contents (b : Buffer) : b.contents.length = b.capacity := by
  simp [contents, capacity]

theorem length_ahead_rewind (b : Buffer) : b.rewind.ahead.length = b.capacity := b.length_contents

@[simp] theorem capacity_rewind (b : Buffer) : b.rewind.capacity = b.capacity := by
  simp [rewind, capacity, contents]

theorem capacity_replace {b : Buffer} {bytes : List UInt8} (h : bytes.length ≤ b.ahead.length) :
    (b.replace bytes).capacity = b.capacity := by
  simp only [replace, capacity, List.length_append, List.length_reverse, List.length_drop]
  omega

/-- Bytes put at the start of a buffer come first in its contents. -/
theorem contents_rewind_replace (b : Buffer) (bytes : List UInt8) :
    (b.rewind.replace bytes).contents = bytes ++ b.contents.drop bytes.length := by
  simp [rewind, replace, contents]

/-- A buffer that is overwritten as a whole. -/
theorem overwrite_whole {b : Buffer} {bytes : List UInt8} (h : bytes.length = b.capacity) :
    b.overwrite 0 bytes = ⟨(bytes.take b.position).reverse, bytes.drop b.position⟩ := by
  have htake : bytes.take b.contents.length = bytes := by
    rw [length_contents, ← h, List.take_length]
  have hdrop : b.contents.drop bytes.length = [] := by
    apply List.drop_eq_nil_of_le
    rw [length_contents]
    exact Nat.le_of_eq h.symm
  simp only [overwrite, List.take_zero, List.nil_append, Nat.sub_zero, Nat.zero_add, htake, hdrop,
    List.append_nil]

theorem rewind_overwrite {b : Buffer} {bytes : List UInt8} (h : bytes.length = b.capacity) :
    (b.overwrite 0 bytes).rewind = ⟨[], bytes⟩ := by
  rw [overwrite_whole h, rewind, contents, List.reverse_reverse, List.take_append_drop]

theorem capacity_overwrite (b : Buffer) (bytes : List UInt8) :
    (b.overwrite 0 bytes).capacity = b.capacity := by
  have hpos : b.position ≤ b.capacity := Nat.le_add_right _ _
  simp only [overwrite, List.take_zero, List.nil_append, Nat.sub_zero, Nat.zero_add]
  simp only [capacity, List.length_reverse, List.length_take, List.length_drop, List.length_append,
    length_contents] at hpos ⊢
  omega

/-- A buffer that is overwritten with its own contents. -/
theorem overwrite_contents (b : Buffer) : b.overwrite 0 b.contents = b := by
  rw [overwrite_whole b.length_contents]
  simp [contents, position]

/-- `b'` is `b` with some bytes at the cursor stepped over, perhaps replaced. -/
def Reaches (b b' : Buffer) : Prop :=
  ∃ bytes, bytes.length ≤ b.ahead.length ∧ b' = b.replace bytes

theorem Reaches.refl (b : Buffer) : b.Reaches b := ⟨[], by simp, rfl⟩

theorem Reaches.trans {a b c : Buffer} (hab : a.Reaches b) (hbc : b.Reaches c) : a.Reaches c := by
  obtain ⟨xs, hx, rfl⟩ := hab
  obtain ⟨ys, hy, rfl⟩ := hbc
  rw [length_ahead_replace] at hy
  refine ⟨xs ++ ys, ?_, (replace_append a xs ys).symm⟩
  rw [List.length_append]
  omega

theorem Reaches.capacity {b b' : Buffer} (h : b.Reaches b') : b'.capacity = b.capacity := by
  obtain ⟨bytes, hb, rfl⟩ := h
  exact capacity_replace hb

end Buffer

/-! ## Packing

`Writes` is an equivalence, so that it says both when a packer succeeds and that it does nothing
else then. Where it fails only `Advances` is known: some of its bytes may have been put.
-/

namespace Transfer

variable {α β : Type}

@[simp] theorem on_pure (a : α) (b : Buffer) : (pure a : Transfer α).on b = (.ok a, b) := rfl

@[simp] theorem on_throw (e : ExchangeError) (b : Buffer) :
    (throw e : Transfer α).on b = (.error e, b) := rfl

@[simp] theorem on_liftM (x : Except ExchangeError α) (b : Buffer) :
    (liftM x : Transfer α).on b = (x, b) := rfl

theorem on_bind (t : Transfer α) (f : α → Transfer β) (b : Buffer) :
    (t >>= f).on b = match t.on b with
      | (.ok a, b') => (f a).on b'
      | (.error e, b') => (.error e, b') := by
  unfold on
  simp only [ExceptT.run_bind, StateT.run_bind]
  cases t.run.run b with
  | mk x b' => cases x <;> rfl

/-- A sequence succeeds when its parts do, one after the other. -/
theorem on_bind_ok_iff {t : Transfer α} {f : α → Transfer β} {b b' : Buffer} {c : β} :
    (t >>= f).on b = (.ok c, b') ↔
      ∃ a m, t.on b = (.ok a, m) ∧ (f a).on m = (.ok c, b') := by
  rw [on_bind]
  rcases t.on b with ⟨e | a, m⟩
  · simp
  · constructor
    · intro h
      exact ⟨a, m, rfl, h⟩
    · rintro ⟨a', m', h, h'⟩
      cases h
      exact h'

/-- The packer `t` succeeds exactly when `P` holds and `bytes` fits; then it puts
`bytes` and gives `a`. -/
def Writes (t : Transfer α) (P : Prop) (bytes : List UInt8) (a : α) : Prop :=
  ∀ b b' c, t.on b = (.ok c, b') ↔
    P ∧ bytes.length ≤ b.ahead.length ∧ c = a ∧ b' = b.replace bytes

theorem Writes.congr {t : Transfer α} {P Q : Prop} {bytes : List UInt8} {a : α}
    (h : t.Writes P bytes a) (hpq : P ↔ Q) : t.Writes Q bytes a := by
  intro b b' c
  rw [h b b' c, hpq]

/-- What is written and given matters only where the packer can succeed. -/
theorem Writes.congr_output {t : Transfer α} {P : Prop} {xs ys : List UInt8} {a c : α}
    (h : t.Writes P xs a) (ho : P → xs = ys ∧ a = c) : t.Writes P ys c := by
  intro b b' d
  rw [h b b' d]
  refine and_congr_right fun hp => ?_
  obtain ⟨rfl, rfl⟩ := ho hp
  rfl

theorem writes_pure (a : α) : (pure a : Transfer α).Writes True [] a := by
  intro b b' c
  simp only [on_pure, Prod.mk.injEq, Except.ok.injEq, List.length_nil, Nat.zero_le, true_and,
    Buffer.replace_nil]
  exact ⟨fun h => ⟨h.1.symm, h.2.symm⟩, fun h => ⟨h.1.symm, h.2.symm⟩⟩

theorem writes_throw (e : ExchangeError) (bytes : List UInt8) (a : α) :
    (throw e : Transfer α).Writes False bytes a := by
  intro b b' c
  simp

theorem writes_lift {x : Except ExchangeError α} {P : Prop} {a : α}
    (h : ∀ c, x = .ok c ↔ P ∧ c = a) : (liftM x : Transfer α).Writes P [] a := by
  intro b b' c
  rw [on_liftM, Prod.mk.injEq, h]
  simp only [List.length_nil, Nat.zero_le, true_and, Buffer.replace_nil, and_assoc]
  exact ⟨fun h => ⟨h.1, h.2.1, h.2.2.symm⟩, fun h => ⟨h.1, h.2.1, h.2.2.symm⟩⟩

theorem Writes.bind {t : Transfer α} {f : α → Transfer β} {P Q : Prop} {xs ys : List UInt8}
    {a : α} {c : β} (ht : t.Writes P xs a) (hf : (f a).Writes Q ys c) :
    (t >>= f).Writes (P ∧ Q) (xs ++ ys) c := by
  intro b b' d
  rw [on_bind_ok_iff, Buffer.replace_append, List.length_append]
  constructor
  · rintro ⟨a', m, h₁, h₂⟩
    obtain ⟨hp, hx, rfl, rfl⟩ := (ht b m a').mp h₁
    obtain ⟨hq, hy, rfl, rfl⟩ := (hf _ _ _).mp h₂
    -- `f` starts behind `xs`, so that its room and the length of `xs` add up.
    rw [Buffer.length_ahead_replace] at hy
    exact ⟨⟨hp, hq⟩, by omega, rfl, rfl⟩
  · rintro ⟨⟨hp, hq⟩, hlen, rfl, rfl⟩
    refine ⟨a, b.replace xs, (ht _ _ _).mpr ⟨hp, by omega, rfl, rfl⟩, ?_⟩
    refine (hf _ _ _).mpr ⟨hq, ?_, rfl, rfl⟩
    rw [Buffer.length_ahead_replace]
    omega

/-- A packer that succeeds is followed by the rest, behind what it has put. -/
theorem Writes.on_bind_of {t : Transfer α} {f : α → Transfer β} {P : Prop} {xs : List UInt8}
    {a : α} (h : t.Writes P xs a) (hp : P) {b : Buffer} (hb : xs.length ≤ b.ahead.length) :
    (t >>= f).on b = (f a).on (b.replace xs) := by
  rw [on_bind, (h b _ a).mpr ⟨hp, hb, rfl, rfl⟩]

/-- A list of packers writes what they write one after the other. -/
theorem Writes.forM {xs : List α} {f : α → Transfer Unit} {P : α → Prop}
    {bytes : α → List UInt8} (h : ∀ x ∈ xs, (f x).Writes (P x) (bytes x) ()) :
    (xs.forM f).Writes (∀ x ∈ xs, P x) (xs.flatMap bytes) () := by
  induction xs with
  | nil => exact (writes_pure ()).congr (by simp)
  | cons x xs ih =>
      have hx : (f x).Writes (P x) (bytes x) () := h x List.mem_cons_self
      have hxs := ih fun y hy => h y (List.mem_cons_of_mem x hy)
      rw [List.flatMap_cons]
      exact (hx.bind (f := fun _ => xs.forM f) hxs).congr (by simp)

theorem writes_put (bytes : List UInt8) : (put bytes).Writes True bytes () := by
  intro b b' c
  show (if (b.ahead.take bytes.length).length = bytes.length
    then (Except.ok (), b.replace bytes) else (Except.error (b.overflow bytes.length), b)) = _ ↔ _
  rw [List.length_take]
  -- The front that is taken falls short exactly when there are fewer bytes ahead.
  by_cases h : bytes.length ≤ b.ahead.length
  · rw [if_pos (Nat.min_eq_left h)]
    simp only [Prod.mk.injEq, h, true_and]
    exact eq_comm
  · rw [if_neg (by omega)]
    simp [h]

theorem on_put_short {bytes : List UInt8} {b : Buffer} (h : b.ahead.length < bytes.length) :
    (put bytes).on b = (.error (b.overflow bytes.length), b) := by
  show (if (b.ahead.take bytes.length).length = bytes.length then _ else _) = _
  rw [if_neg (by rw [List.length_take]; omega)]

/-! ### Transfers that fail on their way

A transfer has gone over some bytes by then, and has left all others alone.
-/

/-- A transfer that only steps over bytes at the cursor, whether it succeeds or not. -/
def Advances (t : Transfer α) : Prop := ∀ b : Buffer, b.Reaches (t.on b).2

theorem advances_pure (a : α) : (pure a : Transfer α).Advances := fun b => .refl b

theorem advances_throw (e : ExchangeError) : (throw e : Transfer α).Advances := fun b => .refl b

theorem advances_lift (x : Except ExchangeError α) : (liftM x : Transfer α).Advances :=
  fun b => .refl b

theorem Advances.bind {t : Transfer α} {f : α → Transfer β} (ht : t.Advances)
    (hf : ∀ a, (f a).Advances) : (t >>= f).Advances := by
  intro b
  have h := ht b
  rw [on_bind]
  rcases hb : t.on b with ⟨e | a, m⟩ <;> rw [hb] at h
  · exact h
  · exact h.trans (hf a m)

theorem Advances.forM {xs : List α} {f : α → Transfer Unit} (h : ∀ x, (f x).Advances) :
    (xs.forM f).Advances := by
  induction xs with
  | nil => exact advances_pure ()
  | cons x xs ih => exact (h x).bind fun _ => ih

theorem advances_put (bytes : List UInt8) : (put bytes).Advances := by
  intro b
  show b.Reaches (if _ then (Except.ok (), b.replace bytes) else (Except.error _, b)).2
  rw [List.length_take]
  by_cases h : bytes.length ≤ b.ahead.length
  · rw [if_pos (Nat.min_eq_left h)]
    exact ⟨bytes, h, rfl⟩
  · rw [if_neg (by omega)]
    exact .refl b

theorem advances_take (n : Nat) : (take n).Advances := by
  intro b
  show b.Reaches (if _ then (Except.ok _, _) else (Except.error _, b)).2
  rw [List.length_take]
  by_cases h : n ≤ b.ahead.length
  · rw [if_pos (Nat.min_eq_left h)]
    refine ⟨b.ahead.take n, by rw [List.length_take]; exact Nat.min_le_right _ _, ?_⟩
    simp [Buffer.replace, Nat.min_eq_left h]
  · rw [if_neg (by omega)]
    exact .refl b

/-! ## Scalars

Integers and doubles are little-endian patterns of four and eight bytes, and both ways between a
value and its bytes are inverse to each other.
-/

theorem byteSpan_four : byteSpan 4 = UInt32.size := rfl

theorem byteSpan_eight : byteSpan 8 = UInt64.size := rfl

@[simp] theorem length_intBytes (v : Int32) : (intBytes v).length = 4 := length_littleEndian _ _

@[simp] theorem length_doubleBytes (v : Binary64) : (doubleBytes v).length = 8 :=
  length_littleEndian _ _

@[simp] theorem intOfBytes_intBytes (v : Int32) : intOfBytes (intBytes v) = v := by
  have hv : v.toUInt32.toNat < UInt32.size := v.toUInt32.toNat_lt
  rw [intOfBytes, intBytes, ofLittleEndian_littleEndian, byteSpan_four, Nat.mod_eq_of_lt hv]
  simp

@[simp] theorem doubleOfBytes_doubleBytes (v : Binary64) : doubleOfBytes (doubleBytes v) = v := by
  have hv : v.bits.toNat < UInt64.size := v.bits.toNat_lt
  rw [doubleOfBytes, doubleBytes, ofLittleEndian_littleEndian, byteSpan_eight, Nat.mod_eq_of_lt hv]
  simp

@[simp] theorem length_flatMap_doubleBytes (vs : List Binary64) :
    (vs.flatMap doubleBytes).length = vs.length * 8 := by
  induction vs with
  | nil => rfl
  | cons v vs ih =>
      rw [List.flatMap_cons, List.length_append, ih, length_doubleBytes, List.length_cons]
      omega

/-- A run of doubles is cut at the places where it was joined. -/
theorem doublesOfBytes_flatMap (vs : List Binary64) :
    doublesOfBytes vs.length (vs.flatMap doubleBytes) = vs := by
  induction vs with
  | nil => rfl
  | cons v vs ih =>
      rw [List.flatMap_cons, List.length_cons, doublesOfBytes,
        List.take_left' (length_doubleBytes v), List.drop_left' (length_doubleBytes v), ih,
        doubleOfBytes_doubleBytes]

theorem intBytes_intOfBytes {xs : List UInt8} (h : xs.length = 4) :
    intBytes (intOfBytes xs) = xs := by
  have hlt : ofLittleEndian xs < UInt32.size := by
    have := ofLittleEndian_lt xs
    rwa [h] at this
  have hnat : (intOfBytes xs).toUInt32.toNat = ofLittleEndian xs := by
    rw [intOfBytes, UInt32.toUInt32_toInt32, UInt32.toNat_ofNat_of_lt' hlt]
  rw [intBytes, hnat, ← h, littleEndian_ofLittleEndian]

theorem doubleBytes_doubleOfBytes {xs : List UInt8} (h : xs.length = 8) :
    doubleBytes (doubleOfBytes xs) = xs := by
  have hlt : ofLittleEndian xs < UInt64.size := by
    have := ofLittleEndian_lt xs
    rwa [h] at this
  have hnat : (doubleOfBytes xs).bits.toNat = ofLittleEndian xs := UInt64.toNat_ofNat_of_lt' hlt
  rw [doubleBytes, hnat, ← h, littleEndian_ofLittleEndian]

/-- The bytes of a scalar. -/
def bytesOfScalar : Scalar → List UInt8
  | .int v => intBytes v
  | .double v => doubleBytes v

theorem writes_packScalar (v : Scalar) : (packScalar v).Writes True (bytesOfScalar v) () := by
  cases v <;> exact writes_put _

theorem advances_packScalar (v : Scalar) : (packScalar v).Advances := by
  cases v <;> exact advances_put _

theorem advances_unpackInt : unpackInt.Advances :=
  (advances_take 4).bind fun _ => advances_pure _

theorem advances_unpackDouble : unpackDouble.Advances :=
  (advances_take 8).bind fun _ => advances_pure _

theorem advances_unpackDoubles (count : Nat) : (unpackDoubles count).Advances :=
  (advances_take _).bind fun _ => advances_pure _

theorem advances_unpackScalar (kind : ScalarKind) : (unpackScalar kind).Advances := by
  cases kind with
  | int => exact advances_unpackInt.bind fun _ => advances_pure _
  | double => exact advances_unpackDouble.bind fun _ => advances_pure _

/-! ## Unpacking

`Gives` and `Reads` are about a buffer that starts with known bytes, with anything behind the cursor
and anything after these bytes.
-/

/-- The unpacker `t`, in front of `bytes`, steps over them and gives `a`. -/
def Gives (t : Transfer α) (bytes : List UInt8) (a : α) : Prop :=
  ∀ behind rest, t.on ⟨behind, bytes ++ rest⟩ = (.ok a, ⟨bytes.reverse ++ behind, rest⟩)

theorem gives_take (bytes : List UInt8) : (take bytes.length).Gives bytes bytes := by
  intro behind rest
  show (if ((bytes ++ rest).take bytes.length).length = bytes.length then _ else _) = _
  rw [List.take_left, if_pos rfl, List.drop_left]

theorem Gives.map {t : Transfer α} {bytes : List UInt8} {a : α} (h : t.Gives bytes a) (f : α → β) :
    (do return f (← t)).Gives bytes (f a) := by
  intro behind rest
  rw [on_bind, h behind rest]
  rfl

theorem gives_unpackInt (v : Int32) : unpackInt.Gives (intBytes v) v := by
  have h := (gives_take (intBytes v)).map intOfBytes
  rw [length_intBytes, intOfBytes_intBytes] at h
  exact h

theorem gives_unpackDouble (v : Binary64) : unpackDouble.Gives (doubleBytes v) v := by
  have h := (gives_take (doubleBytes v)).map doubleOfBytes
  rw [length_doubleBytes, doubleOfBytes_doubleBytes] at h
  exact h

theorem gives_unpackDoubles (vs : List Binary64) :
    (unpackDoubles vs.length).Gives (vs.flatMap doubleBytes) vs := by
  have h := (gives_take (vs.flatMap doubleBytes)).map (doublesOfBytes vs.length)
  rw [length_flatMap_doubleBytes, doublesOfBytes_flatMap] at h
  exact h

theorem gives_unpackScalar (v : Scalar) : (unpackScalar v.kind).Gives (bytesOfScalar v) v := by
  cases v with
  | int v => exact (gives_unpackInt v).map Scalar.int
  | double v => exact (gives_unpackDouble v).map Scalar.double

end Transfer

/-! ## Filling a record

An unpacker that fills a record has the record as a second state. It is kept when a later part
fails, while a setter that refuses a value leaves it as it was.
-/

namespace Filling

variable {ρ α β : Type}

@[simp] theorem on_pure (a : α) (r : ρ) (b : Buffer) :
    (pure a : Filling ρ α).on r b = (.ok a, r, b) := rfl

@[simp] theorem on_throw (e : ExchangeError) (r : ρ) (b : Buffer) :
    (throw e : Filling ρ α).on r b = (.error e, r, b) := rfl

@[simp] theorem on_liftM (x : Except ExchangeError α) (r : ρ) (b : Buffer) :
    (liftM x : Filling ρ α).on r b = (x, r, b) := rfl

@[simp] theorem on_ofTransfer (t : Transfer α) (r : ρ) (b : Buffer) :
    (ofTransfer t : Filling ρ α).on r b = ((t.on b).1, r, (t.on b).2) := rfl

theorem on_mk (g : ρ × Buffer → Except ExchangeError α × ρ × Buffer) (r : ρ) (b : Buffer) :
    on (ExceptT.mk g : Filling ρ α) r b = g (r, b) := rfl

theorem on_update (f : ρ → Except ExchangeError ρ) (r : ρ) (b : Buffer) :
    (update f).on r b = match f r with
      | .ok r' => (.ok (), r', b)
      | .error e => (.error e, r, b) := rfl

theorem on_bind (f : Filling ρ α) (g : α → Filling ρ β) (r : ρ) (b : Buffer) :
    (f >>= g).on r b = match f.on r b with
      | (.ok a, r', b') => (g a).on r' b'
      | (.error e, r', b') => (.error e, r', b') := by
  unfold on
  simp only [ExceptT.run_bind, StateT.run_bind]
  cases f.run.run (r, b) with
  | mk x s => cases x <;> rfl

/-! ### Unpackers in front of known bytes

Each part of an unpacker reads its bytes and hands the record on to the next part.
-/

/-- The unpacker `f`, started on `r` in front of `bytes`, steps over them, turns `r`
into `r'` and gives `a`. -/
def Reads (f : Filling ρ α) (r : ρ) (bytes : List UInt8) (r' : ρ) (a : α) : Prop :=
  ∀ behind rest, f.on r ⟨behind, bytes ++ rest⟩ = (.ok a, r', ⟨bytes.reverse ++ behind, rest⟩)

theorem reads_pure (a : α) (r : ρ) : (pure a : Filling ρ α).Reads r [] r a := fun _ _ => rfl

theorem reads_lift (a : α) (r : ρ) :
    (liftM (.ok a : Except ExchangeError α) : Filling ρ α).Reads r [] r a :=
  fun _ _ => rfl

theorem reads_record (r : ρ) : (record : Filling ρ ρ).Reads r [] r r := fun _ _ => rfl

theorem reads_update {f : ρ → Except ExchangeError ρ} {r r' : ρ} (h : f r = .ok r') :
    (update f).Reads r [] r' () := by
  intro behind rest
  rw [on_update, h]
  rfl

theorem reads_ofTransfer {t : Transfer α} {bytes : List UInt8} {a : α} (h : t.Gives bytes a)
    (r : ρ) : (ofTransfer t : Filling ρ α).Reads r bytes r a := by
  intro behind rest
  rw [on_ofTransfer, h behind rest]

theorem Reads.bind {f : Filling ρ α} {g : α → Filling ρ β} {r r' r'' : ρ} {xs ys : List UInt8}
    {a : α} {c : β} (hf : f.Reads r xs r' a) (hg : (g a).Reads r' ys r'' c) :
    (f >>= g).Reads r (xs ++ ys) r'' c := by
  intro behind rest
  rw [on_bind, List.append_assoc, hf behind (ys ++ rest)]
  show (g a).on r' _ = _
  rw [hg, List.reverse_append, List.append_assoc]

/-- A value is read and then put into the record. -/
theorem reads_update_ofTransfer {t : Transfer α} {bytes : List UInt8} {a : α}
    (ht : t.Gives bytes a) {f : α → ρ → Except ExchangeError ρ} {r r' : ρ} (h : f a r = .ok r') :
    (ofTransfer t >>= fun x => update (f x)).Reads r bytes r' () := by
  have hread := (reads_ofTransfer ht r).bind (g := fun x => update (f x)) (reads_update h)
  rwa [List.append_nil] at hread

/-- A list of unpackers reads the bytes of all, and the record goes through the
states that each leaves. -/
theorem Reads.forM {xs : List α} {f : α → Filling ρ Unit} {bytes : α → List UInt8}
    {g : ρ → α → Except ExchangeError ρ}
    (h : ∀ x ∈ xs, ∀ r r', g r x = .ok r' → (f x).Reads r (bytes x) r' ()) {r r' : ρ}
    (hr : xs.foldlM g r = .ok r') : (xs.forM f).Reads r (xs.flatMap bytes) r' () := by
  induction xs generalizing r with
  | nil =>
      cases hr
      exact reads_pure () _
  | cons x xs ih =>
      rw [List.foldlM_cons] at hr
      cases hx : g r x with
      | error e => rw [hx] at hr; cases hr
      | ok m =>
          -- The first unpacker leaves `m`, and the others start from there.
          rw [hx] at hr
          have hm := h x List.mem_cons_self r m hx
          rw [List.flatMap_cons]
          exact hm.bind (g := fun _ => xs.forM f)
            (ih (fun y hy => h y (List.mem_cons_of_mem x hy)) hr)

/-! ### Unpackers that fail on their way

As for packers, whatever becomes of the record.
-/

/-- An unpacker that only steps over bytes at the cursor, whether it succeeds or not. -/
def Advances (f : Filling ρ α) : Prop := ∀ (r : ρ) (b : Buffer), b.Reaches (f.on r b).2.2

theorem advances_pure (a : α) : (pure a : Filling ρ α).Advances := fun _ b => .refl b

theorem advances_throw (e : ExchangeError) : (throw e : Filling ρ α).Advances := fun _ b => .refl b

theorem advances_lift (x : Except ExchangeError α) : (liftM x : Filling ρ α).Advances :=
  fun _ b => .refl b

theorem advances_record : (record : Filling ρ ρ).Advances := fun _ b => .refl b

theorem advances_update (f : ρ → Except ExchangeError ρ) : (update f).Advances := by
  intro r b
  rw [on_update]
  cases f r <;> exact .refl b

theorem advances_ofTransfer {t : Transfer α} (h : t.Advances) :
    (ofTransfer t : Filling ρ α).Advances := fun _ b => h b

theorem Advances.bind {f : Filling ρ α} {g : α → Filling ρ β} (hf : f.Advances)
    (hg : ∀ a, (g a).Advances) : (f >>= g).Advances := by
  intro r b
  have h := hf r b
  rw [on_bind]
  rcases hb : f.on r b with ⟨e | a, r', m⟩ <;> rw [hb] at h
  · exact h
  · exact h.trans (hg a r' m)

theorem advances_update_ofTransfer {t : Transfer α} (ht : t.Advances)
    (f : α → ρ → Except ExchangeError ρ) :
    (ofTransfer t >>= fun x => update (f x)).Advances :=
  (advances_ofTransfer ht).bind fun x => advances_update (f x)

theorem Advances.forM {xs : List α} {f : α → Filling ρ Unit} (h : ∀ x, (f x).Advances) :
    (xs.forM f).Advances := by
  induction xs with
  | nil => exact advances_pure ()
  | cons x xs ih => exact (h x).bind fun _ => ih

end Filling

end StellarWind
