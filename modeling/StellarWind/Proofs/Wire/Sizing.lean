import StellarWind.Exchange.Worker
import StellarWind.Proofs.Except
import StellarWind.Proofs.Wire.Span

/-!
# Packing, unpacking and sizing agree

For the records of any schema. A packer and an unpacker that succeed step over
`Schema.size` bytes; the packer changes these only, the unpacker changes none.
Neither runs out of bytes where there are as many, and neither succeeds where there are
fewer. A buffer for a number of records is as large as their sizes say, whatever
composite types have to be asked for.

`Transfer.Spans` is for packers what `Filling.Spans` is for unpackers.
-/

namespace StellarWind

/-- The error of a buffer that has too few bytes left. -/
def ExchangeError.IsOverflow : ExchangeError → Prop
  | bufferOverflow _ _ _ => True
  | _ => False

/-! ## Buffers

The contents of a buffer are what is behind the cursor and what is ahead. To put bytes changes the
bytes right ahead, and to step over bytes changes none.
-/

namespace Buffer

theorem position_replace (b : Buffer) (bytes : List UInt8) :
    (b.replace bytes).position = b.position + bytes.length := by
  simp [position, replace, Nat.add_comm]

theorem length_ahead (b : Buffer) : b.position + b.ahead.length = b.capacity := rfl

theorem contents_replace (b : Buffer) (bytes : List UInt8) :
    (b.replace bytes).contents = b.behind.reverse ++ (bytes ++ b.ahead.drop bytes.length) := by
  simp [contents, replace]

/-- Bytes that are put at the cursor leave those before and behind them. -/
theorem getElem?_contents_replace {b : Buffer} {bytes : List UInt8} {i : Nat}
    (hi : i < b.position ∨ b.position + bytes.length ≤ i) :
    (b.replace bytes).contents[i]? = b.contents[i]? := by
  have hbehind : b.behind.reverse.length = b.position := List.length_reverse
  rw [contents_replace, contents]
  rcases hi with hi | hi
  · rw [List.getElem?_append_left (by omega), List.getElem?_append_left (by omega)]
  · rw [List.getElem?_append_right (by omega), List.getElem?_append_right (by omega),
      List.getElem?_append_right (by omega), List.getElem?_drop, hbehind]
    congr 1
    omega

theorem contents_skip (b : Buffer) (n : Nat) : (b.skip n).contents = b.contents := by
  rw [skip_eq, contents, contents, List.reverse_append, List.reverse_reverse, List.append_assoc,
    List.take_append_drop]

end Buffer

/-! ## Packers

A packer does not look at the bytes that it replaces, and it may fail before it has reached the end
of the buffer. So where room is short it is only said that it fails.
-/

namespace Transfer

variable {α β : Type} {E : ExchangeError → Prop}

/-- The packer `t` puts exactly `n` bytes, or fails: with one of its own errors `E`, or in
any way where there are fewer bytes left. -/
def Spans (t : Transfer α) (n : Nat) (E : ExchangeError → Prop) : Prop :=
  ∀ b : Buffer,
    (∃ a bytes, bytes.length = n ∧ n ≤ b.ahead.length ∧ t.on b = (.ok a, b.replace bytes)) ∨
    ∃ e, (t.on b).1 = .error e ∧ (E e ∨ b.ahead.length < n)

theorem spans_pure (a : α) : (pure a : Transfer α).Spans 0 E :=
  fun _ => .inl ⟨a, [], rfl, Nat.zero_le _, rfl⟩

theorem spans_throw {e : ExchangeError} (h : E e) (n : Nat) :
    (throw e : Transfer α).Spans n E :=
  fun _ => .inr ⟨e, rfl, .inl h⟩

theorem spans_lift {x : Except ExchangeError α} (h : ∀ e, x = .error e → E e) :
    (liftM x : Transfer α).Spans 0 E := by
  intro b
  cases x with
  | ok a => exact .inl ⟨a, [], rfl, Nat.zero_le _, rfl⟩
  | error e => exact .inr ⟨e, rfl, .inl (h e rfl)⟩

theorem spans_put (bytes : List UInt8) : (put bytes).Spans bytes.length E := by
  intro b
  by_cases hroom : bytes.length ≤ b.ahead.length
  · have hon := (writes_put bytes b (b.replace bytes) ()).mpr ⟨trivial, hroom, rfl, rfl⟩
    exact .inl ⟨(), bytes, rfl, hroom, hon⟩
  · have hshort : b.ahead.length < bytes.length := Nat.not_le.mp hroom
    exact .inr ⟨b.overflow bytes.length, by rw [on_put_short hshort], .inr hshort⟩

theorem Spans.bind {t : Transfer α} {f : α → Transfer β} {m n : Nat} (ht : t.Spans m E)
    (hf : ∀ a, (f a).Spans n E) : (t >>= f).Spans (m + n) E := by
  intro b
  rw [on_bind]
  rcases ht b with ⟨a, xs, rfl, hm, hon⟩ | ⟨e, he, hcause⟩
  · rw [hon]
    have hahead := b.length_ahead_replace xs
    rcases hf a (b.replace xs) with ⟨c, ys, rfl, hn, hon'⟩ | ⟨e, he, hcause⟩
    · refine .inl ⟨c, xs ++ ys, List.length_append, by omega, ?_⟩
      rw [Buffer.replace_append]
      exact hon'
    · exact .inr ⟨e, he, hcause.imp_right fun hshort => by omega⟩
  · refine .inr ⟨e, ?_, hcause.imp_right fun hshort => by omega⟩
    rcases hb : t.on b with ⟨_ | a, b'⟩ <;> rw [hb] at he <;> cases he
    rfl

theorem Spans.forM {xs : List α} {f : α → Transfer Unit} {size : α → Nat}
    (h : ∀ x ∈ xs, (f x).Spans (size x) E) :
    (xs.forM f).Spans ((xs.map size).sum) E := by
  induction xs with
  | nil => exact spans_pure ()
  | cons x xs ih =>
      exact (h x List.mem_cons_self).bind fun _ =>
        ih fun y hy => h y (List.mem_cons_of_mem x hy)

/-- A packer that succeeds has put its bytes at the cursor. -/
theorem Spans.eq_replace {t : Transfer α} {n : Nat} (h : t.Spans n E) {b b' : Buffer} {a : α}
    (hon : t.on b = (.ok a, b')) :
    ∃ bytes, bytes.length = n ∧ n ≤ b.ahead.length ∧ b' = b.replace bytes := by
  rcases h b with ⟨_, bytes, hlen, hroom, hb⟩ | ⟨e, he, -⟩
  · rw [hon] at hb
    exact ⟨bytes, hlen, hroom, congrArg Prod.snd hb⟩
  · rw [hon] at he
    cases he

/-- With room for its bytes, a packer fails with its own errors only. -/
theorem Spans.own_error {t : Transfer α} {n : Nat} (h : t.Spans n E) {b : Buffer}
    (hroom : n ≤ b.ahead.length) {e : ExchangeError} (hon : (t.on b).1 = .error e) : E e := by
  rcases h b with ⟨_, _, -, -, hb⟩ | ⟨cause, hb, hcause⟩
  · rw [hb] at hon
    cases hon
  · obtain rfl : cause = e := Except.error.inj (hb.symm.trans hon)
    exact hcause.resolve_right (Nat.not_lt.mpr hroom)

/-- Without room for its bytes, a packer fails. -/
theorem Spans.exists_error {t : Transfer α} {n : Nat} (h : t.Spans n E) {b : Buffer}
    (hshort : b.ahead.length < n) : ∃ e, (t.on b).1 = .error e := by
  rcases h b with ⟨_, _, -, hroom, -⟩ | ⟨e, he, -⟩
  · omega
  · exact ⟨e, he⟩

theorem spans_packInt (value : Int32) : (packInt value).Spans 4 E := by
  have h := spans_put (E := E) (intBytes value)
  rwa [length_intBytes] at h

theorem spans_packScalar (value : Scalar) : (packScalar value).Spans value.kind.size E := by
  cases value with
  | int value => exact spans_packInt value
  | double value =>
      have h := spans_put (E := E) (doubleBytes value)
      rwa [length_doubleBytes] at h

end Transfer

/-! ## Unpackers

The three consequences of spanning, for unpackers as for packers.
-/

namespace Filling

variable {ρ α : Type} {E : ExchangeError → Prop} {Q : α → Prop}

/-- An unpacker that succeeds has stepped over its bytes. -/
theorem Spans.eq_skip {f : Filling ρ α} {n : Nat} (h : f.Spans n E Q) {r r' : ρ} {b b' : Buffer}
    {a : α} (hon : f.on r b = (.ok a, r', b')) : n ≤ b.ahead.length ∧ b' = b.skip n := by
  rcases h r b with ⟨_, _, -, hroom, hb⟩ | ⟨e, he, -⟩
  · rw [hon] at hb
    exact ⟨hroom, congrArg (·.2.2) hb⟩
  · rw [hon] at he
    cases he

/-- With all of its bytes ahead, an unpacker fails with its own errors only. -/
theorem Spans.own_error {f : Filling ρ α} {n : Nat} (h : f.Spans n E Q) {r : ρ} {b : Buffer}
    (hroom : n ≤ b.ahead.length) {e : ExchangeError} (hon : (f.on r b).1 = .error e) : E e := by
  rcases h r b with ⟨_, _, -, -, hb⟩ | ⟨cause, hb, hcause⟩
  · rw [hb] at hon
    cases hon
  · obtain rfl : cause = e := Except.error.inj (hb.symm.trans hon)
    exact hcause.resolve_right fun hshort => by omega

/-- Without all of its bytes ahead, an unpacker fails. -/
theorem Spans.exists_error {f : Filling ρ α} {n : Nat} (h : f.Spans n E Q) {r : ρ} {b : Buffer}
    (hshort : b.ahead.length < n) : ∃ e, (f.on r b).1 = .error e := by
  rcases h r b with ⟨_, _, -, hroom, -⟩ | ⟨e, he, -⟩
  · omega
  · exact ⟨e, he⟩

end Filling

/-! ## Records

Fields report problems of their own, with values and sizes. None of these is the error of a full
buffer, unless a setter chooses to report it.
-/

open Transfer

namespace Composite

theorem spans_pack {E : ExchangeError → Prop}
    (hE : ∀ field problem, E (.invalidField field problem)) (c : Composite) (get : Nat → Scalar) :
    (c.pack get).Spans ((c.members.zipIdx.map fun p => p.1.kind.size).sum) E := by
  refine Spans.forM ?_
  rintro ⟨m, i⟩ -
  show Transfer.Spans (if (get i).kind ≠ m.kind then _ else _) m.kind.size E
  by_cases h : (get i).kind = m.kind
  · rw [if_neg (not_not_intro h), ← h]
    exact spans_packScalar (get i)
  · rw [if_pos h]
    exact spans_throw (hE _ _) _

end Composite

namespace Field

variable {ρ : Type}

theorem checkSize_eq_error {f : Field ρ} {declared actual : Nat} {e : ExchangeError}
    (h : f.checkSize declared actual = .error e) :
    e = .invalidField f.name (.wrongSize declared actual) := by
  rw [checkSize] at h
  split at h
  · cases h
  · exact (Except.error.inj h).symm

theorem spans_pack {E : ExchangeError → Prop}
    (hE : ∀ field problem, E (.invalidField field problem)) (f : Field ρ) (r : ρ) :
    (f.pack r).Spans f.size E := by
  obtain ⟨name, access⟩ := f
  cases access with
  | int get set => exact spans_packInt (get r)
  | index get set =>
      show Transfer.Spans (if get r < Count.positive32 then _ else _) 4 E
      split
      · exact spans_packInt _
      · exact spans_throw (hE _ _) 4
  | double get set => exact spans_packScalar (.double (get r))
  | doubles count get room set =>
      -- The size is checked first, so that the run that is put has the declared one.
      show Transfer.Spans
        (liftM (checkSize ⟨name, .doubles count get room set⟩ count (get r).length) >>=
          fun _ => packDoubles (get r)) (0 * 4 + count * 8 + 0) E
      by_cases hsize : count = (get r).length
      · have hput := spans_put (E := E) ((get r).flatMap doubleBytes)
        rw [length_flatMap_doubleBytes, ← hsize] at hput
        have h := (spans_lift (E := E) (x := checkSize ⟨name, .doubles count get room set⟩ count
          (get r).length) fun e he => checkSize_eq_error he ▸ hE _ _).bind fun _ => hput
        have hcount : 0 * 4 + count * 8 + 0 = 0 + count * 8 := by omega
        rw [hcount]
        exact h
      · rw [checkSize, if_neg hsize]
        exact spans_throw (hE _ _) _
  | composite layout get set =>
      rw [size_composite]
      exact layout.spans_pack hE (get r)

/-- No setter of the field reports that a buffer is full. -/
def SetsQuietly (f : Field ρ) : Prop :=
  match f.access with
  | .int _ set => ∀ r wire e, set r wire = .error e → ¬ e.IsOverflow
  | .composite _ _ set => ∀ r i value e, set r i value = .error e → ¬ e.IsOverflow
  | _ => True

theorem SetsQuietly.refusesWith {f : Field ρ} (h : f.SetsQuietly) :
    f.RefusesWith fun e => ¬ e.IsOverflow := by
  obtain ⟨name, access⟩ := f
  cases access with
  | int get set => exact h
  | index get set => exact fun _ => id
  | double get set => trivial
  | doubles count get set => exact fun r e he => checkSize_eq_error he ▸ id
  | composite layout get set => exact fun p _ r value e _ he => h r p.2 value e he

end Field

namespace Schema

variable {ρ : Type}

theorem spans_pack (s : Schema ρ) (r : ρ) :
    (s.pack r).Spans s.size fun e => ¬ e.IsOverflow :=
  Spans.forM fun f _ => f.spans_pack (fun _ _ => id) r

theorem spans_unpack {s : Schema ρ} (h : ∀ f ∈ s.fields, f.SetsQuietly) :
    s.unpack.Spans s.size (fun e => ¬ e.IsOverflow) fun _ => True :=
  Filling.Spans.forM fun f hf => Field.spans_unpack (h f hf).refusesWith

end Schema

/-! ## Sizes from a registry

The size of a buffer is computed from handles and not from the layouts themselves. Handles are given
out in increasing order, so that a later registration leaves the earlier ones as they are.
-/

namespace Registry

/-- The sizes of the handles of layouts add up to those of the layouts. -/
theorem foldlM_bytes {r : Registry} {handles : List Nat} {layouts : List Composite}
    (h : handles.mapM r.layout = .ok layouts) (count : Nat) {total : Nat}
    (ht : total < Count.range64) :
    handles.foldlM (fun total handle => do
        let bytes ← r.bytes count handle
        faulting (checked (total + bytes))) total =
      faulting (checked (total + count * (layouts.map Composite.bytes).sum)) := by
  induction handles generalizing layouts total with
  | nil =>
      cases h
      exact (faulting_checked ht).symm
  | cons handle rest ih =>
      rw [List.mapM_cons] at h
      obtain ⟨c, hc, h⟩ := bind_eq_ok_iff.mp h
      obtain ⟨cs, hcs, h⟩ := bind_eq_ok_iff.mp h
      cases h
      have hsum : total + count * ((c :: cs).map Composite.bytes).sum =
          total + count * c.bytes + count * (cs.map Composite.bytes).sum := by
        rw [List.map_cons, List.sum_cons, Nat.mul_add, Nat.add_assoc]
      have hbytes : r.bytes count handle = faulting (checked (count * c.bytes)) := by
        rw [bytes, hc]
        rfl
      rw [List.foldlM_cons, hbytes, hsum, bind_assoc]
      -- The product and the first sum are checked on the way to the whole sum.
      refine checked_bind (by omega) ?_
      refine checked_bind_of_lt (by omega) fun hlt => ?_
      exact ih hcs hlt

end Registry

namespace Seat

/-- A registration gives out the next handle and leaves all others. -/
theorem register_eq_ok {seat seat' : Seat} {c : Composite} {handle : Nat}
    (h : seat.register c = (.ok handle, seat')) :
    handle = seat.registry.next ∧ seat'.registry.next = handle + 1 ∧
      seat'.registry.layout handle = .ok c ∧
      ∀ other, other ≠ handle → seat'.registry.layout other = seat.registry.layout other := by
  rw [register, Registry.register] at h
  cases hcheck : c.check with
  | error a =>
      rw [hcheck] at h
      cases h
  | ok u =>
      rw [hcheck] at h
      cases h
      refine ⟨rfl, rfl, ?_, fun other hother => ?_⟩
      · rw [Registry.layout, List.lookup_cons_self]
      · rw [Registry.layout, List.lookup_cons, beq_eq_false_iff_ne.mpr hother]
        rfl

/-- The handles that were given out for layouts stand for them. -/
theorem mapM_layout_registerAll {layouts : List Composite} {seat seat' : Seat}
    {handles : List Nat} (h : Exchange.registerAll layouts seat = (.ok handles, seat')) :
    handles.mapM seat'.registry.layout = .ok layouts ∧
      ∀ other < seat.registry.next, seat'.registry.layout other = seat.registry.layout other := by
  induction layouts generalizing seat handles with
  | nil =>
      cases h
      exact ⟨rfl, fun _ _ => rfl⟩
  | cons c rest ih =>
      rw [Exchange.registerAll] at h
      split at h
      · cases h
      · rename_i handle first hfirst
        split at h
        · cases h
        · rename_i later last hlater
          cases h
          obtain ⟨hhandle, hnext, hlayout, hothers⟩ := register_eq_ok hfirst
          obtain ⟨hrest, hkept⟩ := ih hlater
          refine ⟨?_, fun other hother => ?_⟩
          · -- The registrations that follow have later handles.
            rw [List.mapM_cons, hkept handle (by omega), hlayout, ok_bind, hrest]
            rfl
          · rw [hkept other (by omega), hothers other (by omega)]

end Seat

namespace Schema

variable {ρ : Type}

/-- A buffer for a number of records, by the sizes of a registry in which the handles stand
for the layouts of the schema. -/
theorem capacity_eq {σ : Type} [Endpoint σ] {e : σ} {r : Registry}
    (he : ∀ count handle, Endpoint.compositeBytes e count handle = r.bytes count handle)
    {s : Schema ρ} (hsize : s.size < Count.range64) {handles : List Nat}
    (h : handles.mapM r.layout = .ok s.layouts) (limit : Nat) :
    s.capacity e handles limit = faulting (checked (4 + limit * (4 + s.size))) := by
  have hrange : 2 ≤ Count.range64 := by decide
  rw [s.size_eq] at hsize ⊢
  simp only [capacity, he, ints, doubles, checkedSum_eq]
  generalize (s.fields.map Field.ints).sum = ints at *
  generalize (s.fields.map Field.doubles).sum = doubles at *
  have hbytes : 4 + limit * (4 + (ints * 4 + doubles * 8 + (s.layouts.map Composite.bytes).sum)) =
      (1 + limit * (ints + 1)) * 4 + limit * doubles * 8 +
        limit * (s.layouts.map Composite.bytes).sum := by
    grind
  rw [hbytes, faulting_checked (by omega), ok_bind, faulting_checked (by omega), ok_bind,
    faulting_checked (by omega), ok_bind]
  -- Every count that the limit enters is at most the total, so that only its check matters.
  refine checked_bind (by omega) (checked_bind (by omega) (checked_bind ?_ ?_))
  · show (1 + limit * (ints + 1)) * 4 ≤ _
    omega
  refine checked_bind (by omega) (checked_bind ?_ ?_)
  · show limit * doubles * 8 ≤ _
    omega
  refine checked_bind_of_lt ?_ fun hlt => ?_
  · exact Nat.le_add_right _ _
  · exact Registry.foldlM_bytes h limit hlt

/-! ## They never drift apart

All parts are about the one number `Schema.size`. The two ways to compute it, for one record and for
a buffer of many, are exact as long as the result is in the range.
-/

/-- Packing, unpacking and sizing agree for every schema whose setters do not themselves
report a full buffer: on the bytes that a record takes, on the room that it needs, and on the
buffer for any number of records. The size of a record and that of a buffer are exact unless
they leave the 64-bit range. -/
theorem pack_unpack_sized (s : Schema ρ) (hquiet : ∀ f ∈ s.fields, f.SetsQuietly) :
    (s.recordBytes = if s.size < Count.range64 then .ok s.size else .error .overflow) ∧
    (∀ (r : ρ) (b b' : Buffer), (s.pack r).on b = (.ok (), b') →
      b'.position = b.position + s.size ∧ b'.capacity = b.capacity ∧
      ∀ i, i < b.position ∨ b'.position ≤ i → b'.contents[i]? = b.contents[i]?) ∧
    (∀ (r r' : ρ) (b b' : Buffer), s.unpack.on r b = (.ok (), r', b') →
      b'.position = b.position + s.size ∧ b'.contents = b.contents) ∧
    (∀ (r : ρ) (b : Buffer), b.position + s.size ≤ b.capacity → ∀ e,
      (((s.pack r).on b).1 = .error e → ¬ e.IsOverflow) ∧
      ((s.unpack.on r b).1 = .error e → ¬ e.IsOverflow)) ∧
    (∀ (r : ρ) (b : Buffer), b.capacity < b.position + s.size →
      (∃ e, ((s.pack r).on b).1 = .error e) ∧ ∃ e, (s.unpack.on r b).1 = .error e) ∧
    (∀ (seat seat' : Seat) (handles : List Nat),
      Exchange.registerAll s.layouts seat = (.ok handles, seat') →
        handles.mapM seat'.registry.layout = .ok s.layouts) ∧
    ∀ bytes, s.recordBytes = .ok bytes → ∀ (seat : Seat) (handles : List Nat),
      handles.mapM seat.registry.layout = .ok s.layouts → ∀ limit,
        s.capacity seat handles limit = if 4 + limit * (4 + bytes) < Count.range64
          then .ok (4 + limit * (4 + bytes)) else .error (.fault .overflow) := by
  have hunpack := spans_unpack hquiet
  -- Both ways span `s.size` bytes, and the parts about buffers follow from that.
  refine ⟨s.recordBytes_eq, fun r b b' h => ?_, fun r r' b b' h => ?_, fun r b hroom e => ?_,
    fun r b hshort => ?_, fun _ _ _ h => (Seat.mapM_layout_registerAll h).1,
    fun bytes hbytes seat handles h limit => ?_⟩
  · obtain ⟨bytes, hlen, hroom, rfl⟩ := (s.spans_pack r).eq_replace h
    rw [Buffer.position_replace, ← hlen]
    exact ⟨rfl, Buffer.capacity_replace (by omega), fun i => Buffer.getElem?_contents_replace⟩
  · obtain ⟨hroom, rfl⟩ := hunpack.eq_skip h
    exact ⟨Buffer.position_skip hroom, b.contents_skip _⟩
  · have hahead : s.size ≤ b.ahead.length := by
      rw [← b.length_ahead] at hroom
      omega
    exact ⟨(s.spans_pack r).own_error hahead, hunpack.own_error hahead⟩
  · have hahead : b.ahead.length < s.size := by
      rw [← b.length_ahead] at hshort
      omega
    exact ⟨(s.spans_pack r).exists_error hahead, hunpack.exists_error hahead⟩
  · rw [s.recordBytes_eq] at hbytes
    obtain rfl := eq_of_checked hbytes
    rw [capacity_eq (fun _ _ => rfl) (lt_of_checked hbytes) h limit]
    exact faulting_checked_eq_ite _

/-- An integer and a double, with a gap between them. -/
def mixed : Composite := ⟨"mixed", [⟨"n", .int, 0⟩, ⟨"x", .double, 8⟩], 16⟩

/-- Records of a digit and some doubles, with a field of every kind. Only digits are
accepted, and only records of three doubles fit the field of doubles. -/
def reading : Schema (Int32 × List Binary64) where
  name := "reading"
  fields := [
    ⟨"digit", .int (·.1) fun r v =>
      if 0 ≤ v ∧ v < 10 then .ok (v, r.2) else .error (.invalidField "digit" (.refused "large"))⟩,
    ⟨"count", .index (·.2.length) fun r _ => r⟩,
    ⟨"first", .double (·.2.headD .zero) fun r x => (r.1, x :: r.2.tail)⟩,
    ⟨"all", .doubles 3 (·.2) (·.2.length) fun r xs => (r.1, xs)⟩,
    ⟨"mixed", .composite mixed
      (fun r i => if i = 0 then .int r.1 else .double (r.2.headD .zero)) fun r _ v =>
        match v with
        | .int n => .ok (n, r.2)
        | .double x => .ok (r.1, x :: r.2.tail)⟩]

/-- A seat where the composite type of readings is registered. -/
def readingSeat : Seat := ⟨0, 1, 6, [(5, mixed)]⟩

theorem setsQuietly_reading : ∀ f ∈ reading.fields, f.SetsQuietly := by
  simp only [reading, List.forall_mem_cons]
  refine ⟨fun r wire e h => ?_, trivial, trivial, trivial, fun r i value e h => ?_, by simp⟩
  · dsimp only at h
    split at h <;> cases h
    exact id
  · cases value <;> cases h

theorem pack_unpack_sized_reading :
    (∀ f ∈ reading.fields, f.SetsQuietly) ∧ reading.recordBytes = .ok 52 ∧
    (∃ b', (reading.pack (7, [⟨1⟩, ⟨2⟩, ⟨3⟩])).on ⟨[9], List.replicate 60 3⟩ = (.ok (), b') ∧
      b'.position = 53 ∧ b'.contents[0]? = some 9 ∧ b'.contents[53]? = some 3) ∧
    (∃ e, (reading.unpack.on (7, [⟨1⟩, ⟨2⟩, ⟨3⟩]) ⟨[9], List.replicate 51 3⟩).1 = .error e) ∧
    reading.capacity readingSeat [5] 3 = .ok 172 := by
  obtain ⟨hbytes, hpack, -, -, hshort, -, hcapacity⟩ :=
    reading.pack_unpack_sized setsQuietly_reading
  refine ⟨setsQuietly_reading, hbytes, ⟨_, rfl, ?_⟩, (hshort _ _ (by decide)).2,
    hcapacity 52 hbytes readingSeat [5] rfl 3⟩
  obtain ⟨hposition, -, hkept⟩ := hpack (7, [⟨1⟩, ⟨2⟩, ⟨3⟩]) ⟨[9], List.replicate 60 3⟩ _ rfl
  have hend : _ = 53 := hposition
  exact ⟨hend, (hkept 0 (.inl Nat.one_pos)).trans rfl,
    (hkept 53 (.inr (Nat.le_of_eq hend))).trans rfl⟩

/-- The bytes of so many readings cannot be counted, although those of one can. -/
theorem capacity_beyond_range :
    (∀ f ∈ reading.fields, f.SetsQuietly) ∧ reading.recordBytes = .ok 52 ∧
    [5].mapM readingSeat.registry.layout = .ok reading.layouts ∧
    reading.capacity readingSeat [5] 1152921504606846976 = .error (.fault .overflow) :=
  ⟨setsQuietly_reading, rfl, rfl, capacity_eq (fun _ _ => rfl) (by decide) rfl _⟩

end Schema

end StellarWind
