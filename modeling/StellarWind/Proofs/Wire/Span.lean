import StellarWind.Proofs.Wire.Record

/-!
# How far an unpacker goes

Two relations between an unpacker and a number of bytes, for the records of any
schema:

* `Filling.Within f n`: in front of at least `n` bytes, these settle what `f` does.
  Whatever stands behind them makes no difference.
* `Filling.Spans f n E`: `f` needs `n` bytes and steps over exactly these, unless it
  fails with one of its own errors `E`. Where there are fewer, it runs out of bytes.
-/

namespace StellarWind

/-! ## Stepping over bytes

To step over bytes is to put them back as they are, so that everything about bytes that are put
holds here too.
-/

namespace Buffer

/-- The buffer after `n` bytes were stepped over. -/
def skip (b : Buffer) (n : Nat) : Buffer := b.replace (b.ahead.take n)

theorem skip_eq (b : Buffer) (n : Nat) :
    b.skip n = ⟨(b.ahead.take n).reverse ++ b.behind, b.ahead.drop n⟩ := by
  rw [skip, replace, List.length_take]
  congr 1
  by_cases h : n ≤ b.ahead.length
  · rw [Nat.min_eq_left h]
  · rw [Nat.min_eq_right (by omega), List.drop_length, List.drop_eq_nil_of_le (by omega)]

@[simp] theorem ahead_skip (b : Buffer) (n : Nat) : (b.skip n).ahead = b.ahead.drop n := by
  rw [skip_eq]

@[simp] theorem skip_zero (b : Buffer) : b.skip 0 = b := by
  simp [skip_eq]

theorem skip_skip (b : Buffer) (m n : Nat) : (b.skip m).skip n = b.skip (m + n) := by
  rw [skip_eq, skip_eq, skip_eq]
  simp [List.take_add, List.drop_drop]

@[simp] theorem capacity_skip (b : Buffer) (n : Nat) : (b.skip n).capacity = b.capacity :=
  capacity_replace (List.length_take_le' n b.ahead)

theorem position_skip {b : Buffer} {n : Nat} (h : n ≤ b.ahead.length) :
    (b.skip n).position = b.position + n := by
  rw [position, skip_eq, List.length_append, List.length_reverse, List.length_take_of_le h,
    position, Nat.add_comm]

/-- The error of an unpacker that runs out of bytes among the next `n`. -/
def RunsOut (b : Buffer) (n : Nat) (e : ExchangeError) : Prop :=
  ∃ position requested, e = .bufferOverflow b.capacity position requested ∧
    b.position ≤ position ∧ position ≤ b.capacity ∧ b.capacity < position + requested ∧
    position + requested ≤ b.position + n

theorem runsOut_overflow {b : Buffer} {n : Nat} (h : b.ahead.length < n) :
    b.RunsOut n (b.overflow n) := by
  refine ⟨b.position, n, rfl, Nat.le_refl _, ?_, ?_, Nat.le_refl _⟩
  · exact Nat.le_add_right _ _
  · unfold capacity position
    omega

end Buffer

/-! ## Transfers that take bytes

A scalar or a run of doubles is unpacked from a known number of bytes. There is no other way for it
to fail than a lack of bytes.
-/

namespace Transfer

variable {α β : Type}

/-- The transfer `t` steps over `n` bytes and gives their value, or fails and stays where
it is if there are fewer. -/
def Takes (t : Transfer α) (n : Nat) (value : List UInt8 → α) : Prop :=
  ∀ b : Buffer, t.on b = if n ≤ b.ahead.length then (.ok (value (b.ahead.take n)), b.skip n)
    else (.error (b.overflow n), b)

theorem takes_take (n : Nat) : (take n).Takes n id := by
  intro b
  show (if (b.ahead.take n).length = n then _ else _) = _
  rw [Buffer.skip_eq]
  by_cases h : n ≤ b.ahead.length
  · rw [if_pos h, if_pos (List.length_take_of_le h)]
    rfl
  · rw [if_neg h, if_neg (by rw [List.length_take]; omega)]

theorem Takes.map {t : Transfer α} {n : Nat} {value : List UInt8 → α} (h : t.Takes n value)
    (f : α → β) : (do return f (← t)).Takes n fun bytes => f (value bytes) := by
  intro b
  rw [on_bind, h b]
  by_cases hroom : n ≤ b.ahead.length
  · rw [if_pos hroom, if_pos hroom]
    rfl
  · rw [if_neg hroom, if_neg hroom]

/-- The scalar of the bytes of a kind. -/
def scalarOfBytes : ScalarKind → List UInt8 → Scalar
  | .int, bytes => .int (intOfBytes bytes)
  | .double, bytes => .double (doubleOfBytes bytes)

theorem kind_scalarOfBytes (kind : ScalarKind) (bytes : List UInt8) :
    (scalarOfBytes kind bytes).kind = kind := by
  cases kind <;> rfl

theorem takes_unpackInt : unpackInt.Takes 4 intOfBytes := (takes_take 4).map _

theorem takes_unpackDouble : unpackDouble.Takes 8 doubleOfBytes := (takes_take 8).map _

theorem takes_unpackDoubles (count : Nat) :
    (unpackDoubles count).Takes (count * 8) (doublesOfBytes count) := (takes_take _).map _

theorem takes_unpackScalar (kind : ScalarKind) :
    (unpackScalar kind).Takes kind.size (scalarOfBytes kind) := by
  cases kind with
  | int => exact takes_unpackInt.map Scalar.int
  | double => exact takes_unpackDouble.map Scalar.double

end Transfer

namespace Filling

variable {ρ α β : Type}

/-! ## What is behind makes no difference

The relation is about all buffers with the same bytes in front, and it says that they end alike.
The number `k` of bytes that were taken may be smaller than `n` when the unpacker fails on its way.
-/

/-- In front of at least `n` bytes, what the unpacker `f` does is settled by these. -/
def Within (f : Filling ρ α) (n : Nat) : Prop :=
  ∀ (r : ρ) (behind bytes : List UInt8), n ≤ bytes.length → ∃ result r' k, k ≤ n ∧
    ∀ rest, f.on r ⟨behind, bytes ++ rest⟩ =
      (result, r', ⟨(bytes.take k).reverse ++ behind, bytes.drop k ++ rest⟩)

theorem within_of_on {f : Filling ρ α} (h : ∀ r, ∃ result r', ∀ b, f.on r b = (result, r', b)) :
    f.Within 0 := by
  intro r behind bytes _
  obtain ⟨result, r', hon⟩ := h r
  exact ⟨result, r', 0, Nat.le_refl 0, fun rest => hon _⟩

theorem within_pure (a : α) : (pure a : Filling ρ α).Within 0 :=
  within_of_on fun r => ⟨.ok a, r, fun _ => rfl⟩

theorem within_throw (e : ExchangeError) : (throw e : Filling ρ α).Within 0 :=
  within_of_on fun r => ⟨.error e, r, fun _ => rfl⟩

theorem within_lift (x : Except ExchangeError α) : (liftM x : Filling ρ α).Within 0 :=
  within_of_on fun r => ⟨x, r, fun _ => rfl⟩

theorem within_record : (record : Filling ρ ρ).Within 0 :=
  within_of_on fun r => ⟨.ok r, r, fun _ => rfl⟩

theorem within_update (f : ρ → Except ExchangeError ρ) : (update f).Within 0 := by
  refine within_of_on fun r => ?_
  cases h : f r with
  | ok r' => exact ⟨.ok (), r', fun b => by rw [on_update, h]⟩
  | error e => exact ⟨.error e, r, fun b => by rw [on_update, h]⟩

theorem within_ofTransfer {t : Transfer α} {n : Nat} {value : List UInt8 → α}
    (h : t.Takes n value) : (ofTransfer t : Filling ρ α).Within n := by
  intro r behind bytes hlen
  refine ⟨.ok (value (bytes.take n)), r, n, Nat.le_refl n, fun rest => ?_⟩
  have hroom : n ≤ (bytes ++ rest).length := by
    rw [List.length_append]
    omega
  rw [on_ofTransfer, h, if_pos hroom, Buffer.skip_eq]
  dsimp only
  rw [List.take_append_of_le_length hlen, List.drop_append_of_le_length hlen]

theorem Within.mono {f : Filling ρ α} {m n : Nat} (h : f.Within m) (hmn : m ≤ n) : f.Within n := by
  intro r behind bytes hlen
  obtain ⟨result, r', k, hk, hon⟩ := h r behind bytes (by omega)
  exact ⟨result, r', k, by omega, hon⟩

theorem Within.bind {f : Filling ρ α} {g : α → Filling ρ β} {m n : Nat} (hf : f.Within m)
    (hg : ∀ a, (g a).Within n) : (f >>= g).Within (m + n) := by
  intro r behind bytes hlen
  obtain ⟨result, r', k, hk, hon⟩ := hf r behind bytes (by omega)
  cases result with
  | error e =>
      refine ⟨.error e, r', k, by omega, fun rest => ?_⟩
      rw [on_bind, hon rest]
  | ok a =>
      -- The second unpacker starts behind the `k` bytes that the first one has taken.
      obtain ⟨result, r'', k', hk', hon'⟩ := hg a r' ((bytes.take k).reverse ++ behind)
        (bytes.drop k) (by rw [List.length_drop]; omega)
      refine ⟨result, r'', k + k', by omega, fun rest => ?_⟩
      rw [on_bind, hon rest]
      dsimp only
      rw [hon' rest, List.drop_drop, List.take_add, List.reverse_append, List.append_assoc]

theorem Within.forM {xs : List α} {f : α → Filling ρ Unit} {size : α → Nat}
    (h : ∀ x ∈ xs, (f x).Within (size x)) : (xs.forM f).Within ((xs.map size).sum) := by
  induction xs with
  | nil => exact within_pure ()
  | cons x xs ih =>
      exact (h x List.mem_cons_self).bind fun _ =>
        ih fun y hy => h y (List.mem_cons_of_mem x hy)

/-! ## All bytes or an error

An unpacker of several parts runs out of bytes in one of them. Its error then names a place further
on, and what is known of that place is kept relative to the start of the whole.
-/

/-- The unpacker `f` steps over exactly `n` bytes and gives a value with the property `Q`,
or runs out of bytes, or fails with one of its own errors `E`. -/
def Spans (f : Filling ρ α) (n : Nat) (E : ExchangeError → Prop) (Q : α → Prop) : Prop :=
  ∀ (r : ρ) (b : Buffer),
    (∃ a r', Q a ∧ n ≤ b.ahead.length ∧ f.on r b = (.ok a, r', b.skip n)) ∨
    ∃ e, (f.on r b).1 = .error e ∧ (E e ∨ b.ahead.length < n ∧ b.RunsOut n e)

variable {E : ExchangeError → Prop}

theorem spans_of_on {f : Filling ρ α} {Q : α → Prop}
    (h : ∀ r b, (∃ a r', Q a ∧ f.on r b = (.ok a, r', b)) ∨ ∃ e, E e ∧ (f.on r b).1 = .error e) :
    f.Spans 0 E Q := by
  intro r b
  rcases h r b with ⟨a, r', ha, hon⟩ | ⟨e, he, hon⟩
  · exact .inl ⟨a, r', ha, Nat.zero_le _, by rw [hon, Buffer.skip_zero]⟩
  · exact .inr ⟨e, hon, .inl he⟩

theorem spans_pure {a : α} {Q : α → Prop} (h : Q a) : (pure a : Filling ρ α).Spans 0 E Q :=
  spans_of_on fun r _ => .inl ⟨a, r, h, rfl⟩

theorem spans_throw {e : ExchangeError} (h : E e) (Q : α → Prop) :
    (throw e : Filling ρ α).Spans 0 E Q :=
  spans_of_on fun _ _ => .inr ⟨e, h, rfl⟩

theorem spans_record : (record : Filling ρ ρ).Spans 0 E fun _ => True :=
  spans_of_on fun r _ => .inl ⟨r, r, trivial, rfl⟩

theorem spans_lift {x : Except ExchangeError α} (h : ∀ e, x = .error e → E e) :
    (liftM x : Filling ρ α).Spans 0 E fun _ => True := by
  refine spans_of_on fun r b => ?_
  cases x with
  | ok a => exact .inl ⟨a, r, trivial, rfl⟩
  | error e => exact .inr ⟨e, h e rfl, rfl⟩

theorem spans_update {f : ρ → Except ExchangeError ρ} (h : ∀ r e, f r = .error e → E e) :
    (update f).Spans 0 E fun _ => True := by
  refine spans_of_on fun r b => ?_
  rw [on_update]
  cases hr : f r with
  | ok r' => exact .inl ⟨(), r', trivial, rfl⟩
  | error e => exact .inr ⟨e, h r e hr, rfl⟩

theorem spans_ofTransfer {t : Transfer α} {n : Nat} {value : List UInt8 → α}
    (h : t.Takes n value) :
    (ofTransfer t : Filling ρ α).Spans n E fun a => ∃ bytes, a = value bytes := by
  intro r b
  rw [on_ofTransfer, h b]
  by_cases hroom : n ≤ b.ahead.length
  · rw [if_pos hroom]
    exact .inl ⟨_, r, ⟨_, rfl⟩, hroom, rfl⟩
  · rw [if_neg hroom]
    have hshort : b.ahead.length < n := Nat.not_le.mp hroom
    exact .inr ⟨_, rfl, .inr ⟨hshort, Buffer.runsOut_overflow hshort⟩⟩

theorem Spans.bind {f : Filling ρ α} {g : α → Filling ρ β} {m n : Nat} {P : α → Prop}
    {Q : β → Prop} (hf : f.Spans m E P) (hg : ∀ a, P a → (g a).Spans n E Q) :
    (f >>= g).Spans (m + n) E Q := by
  intro r b
  rw [on_bind]
  rcases hf r b with ⟨a, r', ha, hm, hon⟩ | ⟨e, he, hcause⟩
  · rw [hon]
    have hahead : (b.skip m).ahead.length = b.ahead.length - m := by simp
    rcases hg a ha r' (b.skip m) with ⟨c, r'', hc, hn, hon'⟩ | ⟨e, he, hown | ⟨hn, hout⟩⟩
    · rw [hahead] at hn
      exact .inl ⟨c, r'', hc, by omega, by rw [← Buffer.skip_skip]; exact hon'⟩
    · exact .inr ⟨e, he, .inl hown⟩
    · -- The second unpacker runs out of bytes further on in the same buffer.
      obtain ⟨position, requested, rfl, hle, hcap, hlt, hend⟩ := hout
      rw [Buffer.position_skip hm] at hle hend
      rw [Buffer.capacity_skip] at he hcap hlt
      exact .inr ⟨_, he, .inr ⟨by omega, position, requested, rfl, by omega, hcap, hlt, by omega⟩⟩
  · refine .inr ⟨e, ?_, hcause.imp_right ?_⟩
    · rcases hb : f.on r b with ⟨_ | a, r', b'⟩ <;> rw [hb] at he <;> cases he
      rfl
    · rintro ⟨hm, position, requested, rfl, hle, hcap, hlt, hend⟩
      exact ⟨by omega, position, requested, rfl, hle, hcap, hlt, by omega⟩

theorem Spans.forM {xs : List α} {f : α → Filling ρ Unit} {size : α → Nat}
    (h : ∀ x ∈ xs, (f x).Spans (size x) E fun _ => True) :
    (xs.forM f).Spans ((xs.map size).sum) E fun _ => True := by
  induction xs with
  | nil => exact spans_pure trivial
  | cons x xs ih =>
      exact (h x List.mem_cons_self).bind fun _ _ =>
        ih fun y hy => h y (List.mem_cons_of_mem x hy)

end Filling

/-! ## Fields and records

Which errors a field has of its own depends on its setter, and for a composite value on what its
members are given. An unpacked member always has the declared kind.
-/

open Transfer

namespace Field

variable {ρ : Type}

/-- Apart from running out of bytes, the field is refused with errors `E` only. -/
def RefusesWith (f : Field ρ) (E : ExchangeError → Prop) : Prop :=
  match f.access with
  | .int _ set => ∀ r wire e, set r wire = .error e → E e
  | .index _ _ => ∀ wire, E (.invalidField f.name (.negativeIndex wire))
  | .double _ _ => True
  | .doubles count _ room _ => ∀ r e, f.checkSize count (room r) = .error e → E e
  | .composite layout _ set => ∀ p ∈ layout.members.zipIdx, ∀ r value e,
      value.kind = p.1.kind → set r p.2 value = .error e → E e

theorem size_composite (name : String) (layout : Composite) (get : ρ → Nat → Scalar)
    (set : ρ → Nat → Scalar → Except ExchangeError ρ) :
    size ⟨name, .composite layout get set⟩ =
      (layout.members.zipIdx.map fun p => p.1.kind.size).sum := by
  rw [layout.sum_zipIdx_sizes]
  show 0 * 4 + 0 * 8 + (layout.bytes + 0) = _
  omega

theorem within_unpack (f : Field ρ) : f.unpack.Within f.size := by
  obtain ⟨name, access⟩ := f
  cases access with
  | int get set =>
      exact (Filling.within_ofTransfer takes_unpackInt).bind fun _ => Filling.within_update _
  | index get set =>
      refine (Filling.within_ofTransfer takes_unpackInt).bind (n := 0) fun wire => ?_
      split
      · exact Filling.within_throw _
      · exact Filling.within_update _
  | double get set =>
      exact (Filling.within_ofTransfer takes_unpackDouble).bind fun _ => Filling.within_update _
  | doubles count get room set =>
      have h := Filling.within_record.bind fun r =>
        (Filling.within_lift (checkSize ⟨name, .doubles count get room set⟩ count (room r))).bind
          fun _ => (Filling.within_ofTransfer (takes_unpackDoubles count)).bind fun values =>
            Filling.within_update fun r => .ok (set r values)
      -- The check of the length takes no bytes.
      refine h.mono ?_
      show 0 + (0 + (count * 8 + 0)) ≤ 0 * 4 + count * 8 + 0
      omega
  | composite layout get set =>
      rw [size_composite]
      refine Filling.Within.forM fun p _ => ?_
      exact (Filling.within_ofTransfer (takes_unpackScalar p.1.kind)).bind fun _ =>
        Filling.within_update _

theorem spans_unpack {f : Field ρ} {E : ExchangeError → Prop} (h : f.RefusesWith E) :
    f.unpack.Spans f.size E fun _ => True := by
  obtain ⟨name, access⟩ := f
  cases access with
  | int get set =>
      refine (Filling.spans_ofTransfer takes_unpackInt).bind fun wire _ => ?_
      exact Filling.spans_update fun r e he => h r wire e he
  | index get set =>
      refine (Filling.spans_ofTransfer takes_unpackInt).bind (n := 0) fun wire _ => ?_
      split
      · exact Filling.spans_throw (h wire.toInt) _
      · exact Filling.spans_update fun r e he => by cases he
  | double get set =>
      refine (Filling.spans_ofTransfer takes_unpackDouble).bind fun value _ => ?_
      exact Filling.spans_update fun r e he => by cases he
  | doubles count get room set =>
      -- The length is checked before any byte is taken, and is refused with an error of its own.
      have hspans := Filling.spans_record.bind fun r _ =>
        (Filling.spans_lift (h r)).bind fun _ _ =>
          (Filling.spans_ofTransfer (takes_unpackDoubles count)).bind fun values _ =>
            Filling.spans_update (f := fun r => .ok (set r values)) fun r e he => by cases he
      have hsize : size ⟨name, .doubles count get room set⟩ = 0 + (0 + (count * 8 + 0)) := by
        show 0 * 4 + count * 8 + 0 = _
        omega
      rw [hsize]
      exact hspans
  | composite layout get set =>
      rw [size_composite]
      refine Filling.Spans.forM fun p hp => ?_
      refine (Filling.spans_ofTransfer (takes_unpackScalar p.1.kind)).bind (n := 0) ?_
      rintro value ⟨bytes, rfl⟩
      exact Filling.spans_update fun r e he => h p hp r _ e (kind_scalarOfBytes _ bytes) he

end Field

namespace Schema

variable {ρ : Type}

theorem within_unpack (s : Schema ρ) : s.unpack.Within s.size :=
  Filling.Within.forM fun f _ => f.within_unpack

end Schema

end StellarWind
