import Mathlib.Control.Monad.Basic
import StellarWind.Proofs.Exchange.Share
import StellarWind.Proofs.Wind.CellBytes
import StellarWind.Proofs.Wire.Span

/-!
# Merging any bytes

What arrives in a round may be anything. Whatever it is, `mergeShare` writes a number of
whole records in order, and stops at the first one that it cannot take over. `Sound` says
of a record that it is taken over and `Refused` why it is not, both by the bytes alone.
Bytes behind the last record make no difference.
-/

namespace StellarWind

open Transfer

/-! ## Reading at an offset

The cursor of a buffer that is being read is an offset into the bytes that arrived (`seek`). So
what a record says can be expressed by the bytes and the number of the record, and no buffer is
left in the statements.
-/

namespace Buffer

/-- The buffer of some bytes with its cursor at an offset. -/
def seek (bytes : List UInt8) (offset : Nat) : Buffer := (⟨[], bytes⟩ : Buffer).skip offset

theorem seek_zero (bytes : List UInt8) : seek bytes 0 = ⟨[], bytes⟩ := skip_zero _

theorem skip_seek (bytes : List UInt8) (offset n : Nat) :
    (seek bytes offset).skip n = seek bytes (offset + n) := skip_skip _ _ _

@[simp] theorem ahead_seek (bytes : List UInt8) (offset : Nat) :
    (seek bytes offset).ahead = bytes.drop offset := ahead_skip _ _

@[simp] theorem capacity_seek (bytes : List UInt8) (offset : Nat) :
    (seek bytes offset).capacity = bytes.length := by
  rw [seek, capacity_skip, capacity, List.length_nil, Nat.zero_add]

theorem position_seek {bytes : List UInt8} {offset : Nat} (h : offset ≤ bytes.length) :
    (seek bytes offset).position = offset := by
  rw [seek, position_skip h, position, List.length_nil, Nat.zero_add]

end Buffer

open Buffer (seek)

theorem Transfer.on_unpackInt_seek {bytes : List UInt8} {offset : Nat}
    (h : offset ≤ bytes.length) :
    unpackInt.on (seek bytes offset) =
      if bytes.length < offset + 4 then
        (.error (.bufferOverflow bytes.length offset 4), seek bytes offset)
      else (.ok (Cell.intAt bytes offset), seek bytes (offset + 4)) := by
  rw [takes_unpackInt, Buffer.ahead_seek, List.length_drop, Buffer.overflow,
    Buffer.capacity_seek, Buffer.position_seek h, Buffer.skip_seek]
  by_cases hroom : bytes.length < offset + 4
  · rw [if_pos hroom, if_neg (by omega)]
  · rw [if_neg hroom, if_pos (by omega)]
    rfl

/-- What stays within `n` bytes is the same wherever these and the ones before them are. -/
theorem Filling.Within.congr {ρ α : Type} {f : Filling ρ α} {n : Nat} (hf : f.Within n) (r : ρ)
    {bytes other : List UInt8} {offset : Nat} (hroom : offset + n ≤ bytes.length)
    (htake : other.take (offset + n) = bytes.take (offset + n)) :
    (f.on r (seek other offset)).1 = (f.on r (seek bytes offset)).1 ∧
      (f.on r (seek other offset)).2.1 = (f.on r (seek bytes offset)).2.1 := by
  have hseek (xs : List UInt8) : seek xs offset = ⟨((xs.take (offset + n)).take offset).reverse,
      (xs.take (offset + n)).drop offset ++ xs.drop (offset + n)⟩ := by
    rw [seek, Buffer.skip_eq, List.take_take, Nat.min_eq_left (Nat.le_add_right _ _),
      List.drop_take, Nat.add_sub_cancel_left, ← List.drop_drop, List.take_append_drop,
      List.append_nil]
  have hwindow : n ≤ ((bytes.take (offset + n)).drop offset).length := by
    rw [List.length_drop, List.length_take]
    omega
  obtain ⟨result, r', k, -, hon⟩ := hf r ((bytes.take (offset + n)).take offset).reverse _ hwindow
  rw [hseek, hseek bytes, htake, hon, hon]
  exact ⟨rfl, rfl⟩

theorem Field.on_unpack_index_seek {ρ : Type} (name : String) (get : ρ → Nat) (set : ρ → Nat → ρ)
    (later : Filling ρ Unit) (t : ρ) {bytes : List UInt8} {offset : Nat}
    (h : offset ≤ bytes.length) :
    (unpack ⟨name, .index get set⟩ >>= fun _ => later).on t (seek bytes offset) =
      if bytes.length < offset + 4 then
        (.error (.bufferOverflow bytes.length offset 4), t, seek bytes offset)
      else if Cell.intAt bytes offset < 0 then
        (.error (.invalidField name (.negativeIndex (Cell.intAt bytes offset).toInt)), t,
          seek bytes (offset + 4))
      else later.on (set t (Cell.intAt bytes offset).toNatClampNeg) (seek bytes (offset + 4)) := by
  show ((Filling.ofTransfer unpackInt >>= fun wire => _) >>= fun _ => later).on t _ = _
  rw [bind_assoc, Filling.on_bind, Filling.on_ofTransfer, on_unpackInt_seek h]
  by_cases hroom : bytes.length < offset + 4
  · rw [if_pos hroom, if_pos hroom]
  · rw [if_neg hroom, if_neg hroom]
    show Filling.on ((if Cell.intAt bytes offset < 0 then _ else _) >>= fun _ => later) t _ = _
    by_cases hneg : Cell.intAt bytes offset < 0
    · rw [if_pos hneg, if_pos hneg]
      rfl
    · rw [if_neg hneg, if_neg hneg]
      rfl

/-! ## A cell at an offset

Of the fields of a cell only the three indices in front can be refused. Behind them there are
doubles and a standing of any code, and reading those fails only where the bytes end.
-/

namespace Cell

/-- None of the first `count` integers from `start` on is negative. -/
def Natural (bytes : List UInt8) (start count : Nat) : Prop :=
  ∀ k < count, ¬ intAt bytes (start + 4 * k) < 0

theorem natural_succ {bytes : List UInt8} {start count : Nat} :
    Natural bytes start (count + 1) ↔
      ¬ intAt bytes start < 0 ∧ Natural bytes (start + 4) count := by
  have hshift (k : Nat) : start + 4 * (k + 1) = start + 4 + 4 * k := by omega
  constructor
  · intro h
    refine ⟨h 0 (by omega), fun k hk => ?_⟩
    rw [← hshift]
    exact h (k + 1) (by omega)
  · rintro ⟨hfirst, hrest⟩ k hk
    cases k with
    | zero => exact hfirst
    | succ k =>
        rw [hshift]
        exact hrest k (by omega)

/-- Why the integers of some fields from `start` on are not all indices: one is cut off, or
one is negative, and none before it is. -/
inductive BadIndex (fields : List String) (bytes : List UInt8) (start : Nat) :
    ExchangeError → Prop where
  | cut {k : Nat} (hfield : k < fields.length) (hstart : start + 4 * k ≤ bytes.length)
      (hend : bytes.length < start + 4 * k + 4) (hfirst : Natural bytes start k) :
      BadIndex fields bytes start (.bufferOverflow bytes.length (start + 4 * k) 4)
  | negative {k : Nat} {field : String} (hfield : fields[k]? = some field)
      (hwhole : start + 4 * k + 4 ≤ bytes.length) (hneg : intAt bytes (start + 4 * k) < 0)
      (hfirst : Natural bytes start k) :
      BadIndex fields bytes start
        (.invalidField field (.negativeIndex (intAt bytes (start + 4 * k)).toInt))

theorem BadIndex.cons {name : String} {fields : List String} {bytes : List UInt8} {start : Nat}
    {e : ExchangeError} (hfirst : ¬ intAt bytes start < 0)
    (h : BadIndex fields bytes (start + 4) e) : BadIndex (name :: fields) bytes start e := by
  have hshift (k : Nat) : start + 4 + 4 * k = start + 4 * (k + 1) := by omega
  cases h with
  | cut hfield hstart hend hrest =>
      rw [hshift] at *
      exact .cut (by simpa using hfield) hstart hend (natural_succ.mpr ⟨hfirst, hrest⟩)
  | negative hfield hwhole hneg hrest =>
      rw [hshift] at *
      exact .negative (by simpa using hfield) hwhole hneg (natural_succ.mpr ⟨hfirst, hrest⟩)

/-- Indices are read one after the other, up to the first bad one. -/
theorem on_unpack_indices {ρ : Type} {fields : List (Field ρ)}
    (hfields : ∀ f ∈ fields, ∃ get set, f.access = .index get set) (later : Filling ρ Unit)
    (t : ρ) {bytes : List UInt8} {start : Nat} (h : start ≤ bytes.length) :
    (∃ t', start + 4 * fields.length ≤ bytes.length ∧ Natural bytes start fields.length ∧
      (fields.forM Field.unpack >>= fun _ => later).on t (seek bytes start) =
        later.on t' (seek bytes (start + 4 * fields.length))) ∨
    ∃ e, BadIndex (fields.map (·.name)) bytes start e ∧
      ((fields.forM Field.unpack >>= fun _ => later).on t (seek bytes start)).1 = .error e := by
  induction fields generalizing t start with
  | nil => exact .inl ⟨t, h, fun k hk => absurd hk (Nat.not_lt_zero k), rfl⟩
  | cons f rest ih =>
      obtain ⟨name, access⟩ := f
      obtain ⟨get, set, rfl⟩ : ∃ get set, access = .index get set :=
        hfields _ List.mem_cons_self
      have ih := ih fun g hg => hfields g (List.mem_cons_of_mem _ hg)
      have hsplit : ((⟨name, .index get set⟩ :: rest : List (Field ρ)).forM Field.unpack >>=
          fun _ => later) = (Field.unpack ⟨name, .index get set⟩ >>= fun _ =>
            rest.forM Field.unpack >>= fun _ => later) := by
        show ((Field.unpack _ >>= fun _ => rest.forM Field.unpack) >>= fun _ => later) = _
        rw [bind_assoc]
      rw [hsplit, Field.on_unpack_index_seek _ _ _ _ _ h]
      -- The first index is cut off, or negative, or read, and only then do the others matter.
      by_cases hcut : bytes.length < start + 4
      · rw [if_pos hcut]
        exact .inr ⟨_, .cut (k := 0) (Nat.succ_pos _) h hcut fun k hk =>
          absurd hk (Nat.not_lt_zero k), rfl⟩
      rw [if_neg hcut]
      by_cases hneg : intAt bytes start < 0
      · rw [if_pos hneg]
        exact .inr ⟨_, .negative (k := 0) rfl (Nat.not_lt.mp hcut) hneg fun k hk =>
          absurd hk (Nat.not_lt_zero k), rfl⟩
      rw [if_neg hneg]
      rcases ih (set t (intAt bytes start).toNatClampNeg) (Nat.not_lt.mp hcut) with
        ⟨t', hlen, hnatural, hon⟩ | ⟨e, hbad, hon⟩
      · have hend : start + 4 + 4 * rest.length = start + 4 * (rest.length + 1) := by omega
        rw [hend] at hlen hon
        exact .inl ⟨t', hlen, natural_succ.mpr ⟨hneg, hnatural⟩, hon⟩
      · exact .inr ⟨e, hbad.cons hneg, hon⟩

/-! ### The fields behind the indices

They have a fixed size and refuse nothing. So behind the indices a record can only fail for lack of
bytes.
-/

/-- Why the bytes from `start` on are not the record of a cell: one of its indices is bad, or
the bytes end behind them. -/
inductive Unreadable (bytes : List UInt8) (start : Nat) : ExchangeError → Prop where
  | index {e : ExchangeError}
      (hbad : BadIndex ["domain", "domain_index", "plasma_index"] bytes start e) :
      Unreadable bytes start e
  | short {position requested : Nat} (hnatural : Natural bytes start 3)
      (hstart : start + 12 ≤ position) (hinside : position ≤ bytes.length)
      (hbeyond : bytes.length < position + requested)
      (hrecord : position + requested ≤ start + 280) :
      Unreadable bytes start (.bufferOverflow bytes.length position requested)

/-- Behind the indices nothing is refused. -/
theorem refusesWith_laterFields : ∀ f ∈ laterFields, f.RefusesWith fun _ => False := by
  have hcone : ∀ p ∈ Cone.layout.members.zipIdx, ∀ (r : Cell) (value : Scalar) (e : ExchangeError),
      value.kind = p.1.kind → (do return { r with cone := ← r.cone.set p.2 value }) = .error e →
        False := by
    intro p hp r value e hkind he
    have hmem : p ∈ [(⟨"offset", .double, 0⟩, 0), (⟨"slope", .double, 8⟩, 1)] := hp
    cases value with
    | int v =>
        simp only [List.mem_cons, List.not_mem_nil, or_false] at hmem
        rcases hmem with rfl | rfl <;> cases hkind
    | double v =>
        simp only [List.mem_cons, List.not_mem_nil, or_false] at hmem
        rcases hmem with rfl | rfl <;> cases he
  simp only [laterFields, schema, List.drop_succ_cons, List.drop_zero, List.forall_mem_cons,
    Field.RefusesWith, vectorField, tensorField, Field.checkSize, List.not_mem_nil,
    false_implies, implies_true, and_true, if_true, reduceCtorEq, true_and]
  exact hcone

theorem size_laterFields : (laterFields.map Field.size).sum = 268 := by decide

theorem spans_laterFields :
    (laterFields.forM Field.unpack).Spans 268 (fun _ => False) fun _ => True := by
  rw [← size_laterFields]
  exact Filling.Spans.forM fun f hf => Field.spans_unpack (refusesWith_laterFields f hf)

theorem intAt_slice (bytes : List UInt8) (start : Nat) {offset : Nat} (h : offset + 4 ≤ 280) :
    intAt ((bytes.drop start).take 280) offset = intAt bytes (start + offset) := by
  rw [intAt, intAt, List.drop_take, List.drop_drop, List.take_take, Nat.min_eq_left (by omega)]

theorem readable_slice_iff (bytes : List UInt8) (start : Nat) :
    Readable ((bytes.drop start).take 280) ↔ Natural bytes start 3 := by
  rw [Readable, intAt_slice _ _ (by omega), intAt_slice _ _ (by omega), intAt_slice _ _ (by omega)]
  constructor
  · rintro ⟨h₀, h₄, h₈⟩ k hk
    obtain rfl | rfl | rfl : k = 0 ∨ k = 1 ∨ k = 2 := by omega
    · exact h₀
    · exact h₄
    · exact h₈
  · intro h
    exact ⟨h 0 (by omega), h 1 (by omega), h 2 (by omega)⟩

theorem on_unpack_readable (t : Cell) {bytes : List UInt8} {start : Nat}
    (hwhole : start + 280 ≤ bytes.length) (h : Readable ((bytes.drop start).take 280)) :
    schema.unpack.on t (seek bytes start) =
      (.ok (), ofRecord ((bytes.drop start).take 280), seek bytes (start + 280)) := by
  have hread := reads_unpack_record (length_take_drop_of_le hwhole) h t
    (bytes.take start).reverse (bytes.drop (start + 280))
  have hbefore : seek bytes start =
      ⟨(bytes.take start).reverse, (bytes.drop start).take 280 ++ bytes.drop (start + 280)⟩ := by
    rw [seek, Buffer.skip_eq, take_drop_append, List.append_nil]
  rw [← Buffer.skip_seek, Buffer.skip_eq, Buffer.ahead_seek, List.drop_drop, hbefore]
  exact hread

/-- A cell is unpacked at any offset, or there is a reason why not. -/
theorem unpack_seek (t : Cell) {bytes : List UInt8} {start : Nat} (h : start ≤ bytes.length) :
    (start + 280 ≤ bytes.length ∧ Readable ((bytes.drop start).take 280) ∧
      schema.unpack.on t (seek bytes start) =
        (.ok (), ofRecord ((bytes.drop start).take 280), seek bytes (start + 280))) ∨
    ∃ e, Unreadable bytes start e ∧ (schema.unpack.on t (seek bytes start)).1 = .error e := by
  have hindices : ∀ f ∈ schema.fields.take 3, ∃ get set, f.access = .index get set := by
    simp [schema]
  have hsplit : schema.unpack = ((schema.fields.take 3).forM Field.unpack >>= fun _ =>
      laterFields.forM Field.unpack) := by
    calc schema.unpack
        = forM (schema.fields.take 3 ++ laterFields) Field.unpack := by
          rw [laterFields, List.take_append_drop]; rfl
      _ = _ := List.forM_append
  rcases on_unpack_indices hindices (laterFields.forM Field.unpack) t h with
    ⟨t', hlen, hnatural, hon⟩ | ⟨e, hbad, hon⟩
  · by_cases hwhole : start + 280 ≤ bytes.length
    · have hread := (readable_slice_iff bytes start).mpr hnatural
      exact .inl ⟨hwhole, hread, on_unpack_readable t hwhole hread⟩
    · -- The bytes end behind the indices, and nothing there has an error of its own.
      right
      rw [hsplit, hon]
      change start + 12 ≤ bytes.length at hlen
      rcases spans_laterFields t' (seek bytes (start + 12)) with
        ⟨_, _, -, hroom, -⟩ | ⟨e, he, hcause⟩
      · rw [Buffer.ahead_seek, List.length_drop] at hroom
        omega
      · obtain ⟨-, position, requested, rfl, hle, hcap, hlt, hend⟩ := hcause.resolve_left id
        rw [Buffer.position_seek hlen] at hle hend
        rw [Buffer.capacity_seek] at he hcap hlt
        exact ⟨_, .short hnatural hle hcap hlt (by omega), he⟩
  · right
    rw [hsplit]
    exact ⟨e, .index hbad, hon⟩

end Cell

/-! ## One record

A record is an index and a cell. All that can be wrong with it is found before the grid is changed.
-/

namespace Exchange

/-- Where record `i` starts: behind the count and the records before it. -/
def recordStart (i : Nat) : Nat := 4 + 284 * i

/-- The index of record `i`. -/
def indexIn (bytes : List UInt8) (i : Nat) : Int32 := Cell.intAt bytes (recordStart i)

/-- The bytes of the cell of record `i`. -/
def cellBytesIn (bytes : List UInt8) (i : Nat) : List UInt8 :=
  (bytes.drop (recordStart i + 4)).take 280

/-- The grid with the cell of record `i` at its index. -/
def writeRecord (bytes : List UInt8) (cells : List Cell) (i : Nat) : List Cell :=
  cells.set (indexIn bytes i).toNatClampNeg (Cell.ofRecord (cellBytesIn bytes i))

/-- The grid with the first `k` records written in order. -/
def written (bytes : List UInt8) (k : Nat) (cells : List Cell) : List Cell :=
  (List.range k).foldl (writeRecord bytes) cells

/-- Record `i` is whole, has an index of a grid of `n` cells, and holds a cell. -/
structure Sound (bytes : List UInt8) (n i : Nat) : Prop where
  whole : recordStart (i + 1) ≤ bytes.length
  natural : ¬ indexIn bytes i < 0
  inside : (indexIn bytes i).toNatClampNeg < n
  readable : Cell.Readable (cellBytesIn bytes i)

/-- Why record `i` is not taken over into a grid of `n` cells. -/
inductive Refused (bytes : List UInt8) (n i : Nat) : ExchangeError → Prop where
  | cut (hstart : recordStart i ≤ bytes.length) (hend : bytes.length < recordStart i + 4) :
      Refused bytes n i (.bufferOverflow bytes.length (recordStart i) 4)
  | outside (hindex : recordStart i + 4 ≤ bytes.length)
      (h : indexIn bytes i < 0 ∨ n ≤ (indexIn bytes i).toNatClampNeg) :
      Refused bytes n i (.cellIndexOutOfRange (indexIn bytes i).toInt n)
  | unreadable {e : ExchangeError} (hindex : recordStart i + 4 ≤ bytes.length)
      (hnatural : ¬ indexIn bytes i < 0) (hinside : (indexIn bytes i).toNatClampNeg < n)
      (h : Cell.Unreadable bytes (recordStart i + 4) e) : Refused bytes n i e

theorem recordStart_succ (i : Nat) : recordStart (i + 1) = recordStart i + 4 + 280 := by
  unfold recordStart
  omega

@[simp] theorem length_writeRecord (bytes : List UInt8) (cells : List Cell) (i : Nat) :
    (writeRecord bytes cells i).length = cells.length := List.length_set

theorem length_foldl_writeRecord (bytes : List UInt8) (is : List Nat) (cells : List Cell) :
    (is.foldl (writeRecord bytes) cells).length = cells.length := by
  induction is generalizing cells with
  | nil => rfl
  | cons i is ih => rw [List.foldl_cons, ih, length_writeRecord]

/-- One record is written as a whole, or refused with the grid as it was. -/
theorem mergeRecord_seek (cells : List Cell) {bytes : List UInt8} {i : Nat}
    (h : recordStart i ≤ bytes.length) :
    (Sound bytes cells.length i ∧ mergeRecord.on cells (seek bytes (recordStart i)) =
      (.ok (), writeRecord bytes cells i, seek bytes (recordStart (i + 1)))) ∨
    ∃ e b, Refused bytes cells.length i e ∧
      mergeRecord.on cells (seek bytes (recordStart i)) = (.error e, cells, b) := by
  unfold mergeRecord
  rw [Filling.on_bind, Filling.on_ofTransfer, on_unpackInt_seek h]
  by_cases hcut : bytes.length < recordStart i + 4
  · rw [if_pos hcut]
    exact .inr ⟨_, _, .cut h hcut, rfl⟩
  have hindex := Nat.not_lt.mp hcut
  rw [if_neg hcut, ← indexIn]
  dsimp only
  rw [Filling.on_mk]
  dsimp only
  by_cases hneg : indexIn bytes i < 0
  · rw [if_pos hneg]
    exact .inr ⟨_, _, .outside hindex (.inl hneg), rfl⟩
  rw [if_neg hneg]
  by_cases hin : (indexIn bytes i).toNatClampNeg < cells.length
  · rw [List.getElem?_eq_getElem hin]
    dsimp only
    -- The cell is replaced only when the whole record has been read.
    rcases Cell.unpack_seek cells[(indexIn bytes i).toNatClampNeg] hindex with
      ⟨hwhole, hread, hon⟩ | ⟨e, hbad, he⟩
    · rw [← recordStart_succ] at hwhole hon
      rw [hon]
      exact .inl ⟨⟨hwhole, hneg, hin, hread⟩, rfl⟩
    · right
      rcases hon : Cell.schema.unpack.on cells[(indexIn bytes i).toNatClampNeg]
        (seek bytes (recordStart i + 4)) with ⟨cause | u, new, b⟩
      · rw [hon] at he
        cases he
        exact ⟨_, _, .unreadable hindex hneg hin hbad, rfl⟩
      · rw [hon] at he
        cases he
  · rw [List.getElem?_eq_none (Nat.not_lt.mp hin)]
    exact .inr ⟨_, _, .outside hindex (.inr (Nat.not_lt.mp hin)), rfl⟩

/-! ## All records

Records are written until one is refused. The number of those written is found along the way, so
that the induction is on the records still to come, from any record on.
-/

/-- From record `i` on, records are written in order up to the first one that is refused. -/
theorem mergeRecords_seek (m : Nat) (cells : List Cell) {bytes : List UInt8} {i : Nat}
    (h : recordStart i ≤ bytes.length) :
    ∃ d result b, (mergeRecords m).on cells (seek bytes (recordStart i)) =
        (result, (List.range' i d).foldl (writeRecord bytes) cells, b) ∧
      (∀ j, i ≤ j → j < i + d → Sound bytes cells.length j) ∧
      (result = .ok () ∧ d = m ∨
        ∃ e, result = .error e ∧ d < m ∧ Refused bytes cells.length (i + d) e) := by
  induction m generalizing cells i with
  | zero => exact ⟨0, _, _, rfl, fun j hij hj => by omega, .inl ⟨rfl, rfl⟩⟩
  | succ m ih =>
      rcases mergeRecord_seek cells h with ⟨hsound, hon⟩ | ⟨e, b, hrefused, hon⟩
      · -- Record `i` is written, and `d` records behind it.
        obtain ⟨d, result, b, hrest, hall, hend⟩ := ih (writeRecord bytes cells i) hsound.whole
        rw [length_writeRecord] at hall hend
        refine ⟨d + 1, result, b, ?_, fun j hij hj => ?_, ?_⟩
        · rw [mergeRecords, Filling.on_bind, hon]
          exact hrest
        · rcases Nat.eq_or_lt_of_le hij with rfl | hlt
          · exact hsound
          · exact hall j hlt (by omega)
        · rw [Nat.add_right_comm] at hend
          rcases hend with ⟨hok, rfl⟩ | ⟨e, he, hlt, hrefused⟩
          · exact .inl ⟨hok, rfl⟩
          · exact .inr ⟨e, he, Nat.succ_lt_succ hlt, hrefused⟩
      · refine ⟨0, .error e, b, ?_, fun j hij hj => by omega, .inr ⟨e, rfl, m.succ_pos, hrefused⟩⟩
        rw [mergeRecords, Filling.on_bind, hon]
        rfl

/-- A record is read within its 284 bytes. -/
theorem within_mergeRecord : mergeRecord.Within 284 := by
  refine (Filling.within_ofTransfer takes_unpackInt).bind (n := 280) fun index => ?_
  intro cells behind bytes hlen
  cases htarget : (if index < 0 then none else cells[index.toNatClampNeg]?) with
  | none =>
      refine ⟨.error (.cellIndexOutOfRange index.toInt cells.length), cells, 0, Nat.zero_le 280,
        fun rest => ?_⟩
      simp only [Filling.on_mk, htarget]
      rfl
  | some old =>
      obtain ⟨result, new, k, hk, hon⟩ := Cell.schema.within_unpack old behind bytes hlen
      cases result with
      | ok u =>
          refine ⟨.ok (), cells.set index.toNatClampNeg new, k, hk, fun rest => ?_⟩
          simp only [Filling.on_mk, htarget, hon rest]
      | error e =>
          refine ⟨.error e, cells, k, hk, fun rest => ?_⟩
          simp only [Filling.on_mk, htarget, hon rest]

theorem within_mergeRecords (m : Nat) : (mergeRecords m).Within (284 * m) := by
  induction m with
  | zero => exact Filling.within_pure ()
  | succ m ih =>
      have h := within_mergeRecord.bind (g := fun _ => mergeRecords m) fun _ => ih
      rwa [Nat.add_comm, ← Nat.mul_succ] at h

/-! ## A whole share

The count in front decides whether there are records at all: a negative one is the mark of a sender
that failed, or else an error of its own.
-/

/-- The number in front of the records. -/
def header (bytes : List UInt8) : Int32 := Cell.intAt bytes 0

/-- How many bytes the header lays claim to, itself included. -/
def claimed (bytes : List UInt8) : Nat :=
  if header bytes < 0 then 4 else recordStart (header bytes).toNatClampNeg

/-- How merging ends after `k` records, by the bytes alone. -/
inductive Ending (root : Nat) (bytes : List UInt8) (n : Nat) :
    Nat → Except ExchangeError Nat → Prop where
  | cut (h : bytes.length < 4) :
      Ending root bytes n 0 (.error (.bufferOverflow bytes.length 0 4))
  | aborted (h : 4 ≤ bytes.length) (hmark : header bytes = abortMark) :
      Ending root bytes n 0 (.error (.roundAborted root))
  | negative (h : 4 ≤ bytes.length) (hmark : header bytes ≠ abortMark)
      (hneg : header bytes < 0) :
      Ending root bytes n 0
        (.error (.invalidField "cell_count" (.negativeCount (header bytes).toInt)))
  | refused {k : Nat} {e : ExchangeError} (h : 4 ≤ bytes.length) (hcount : ¬ header bytes < 0)
      (hk : k < (header bytes).toNatClampNeg) (hrefused : Refused bytes n k e) :
      Ending root bytes n k (.error e)
  | complete (h : 4 ≤ bytes.length) (hcount : ¬ header bytes < 0) :
      Ending root bytes n (header bytes).toNatClampNeg (.ok (header bytes).toNatClampNeg)

theorem Ending.eq_ok_iff {root : Nat} {bytes : List UInt8} {n k m : Nat}
    {result : Except ExchangeError Nat} (h : Ending root bytes n k result) :
    result = .ok m ↔ 4 ≤ bytes.length ∧ ¬ header bytes < 0 ∧
      k = (header bytes).toNatClampNeg ∧ m = k := by
  cases h with
  | cut hlen => simp [Nat.not_le.mpr hlen]
  | aborted hlen hmark => simp [hmark, show abortMark < 0 by decide]
  | negative hlen hmark hneg => simp [hneg]
  | refused hlen hcount hk hrefused => simp [Nat.ne_of_lt hk]
  | complete hlen hcount => simp [hlen, hcount, eq_comm]

theorem on_mergeShare (root : Nat) (cells : List Cell) (bytes : List UInt8) :
    (mergeShare root).on cells ⟨[], bytes⟩ =
      if bytes.length < 4 then (.error (.bufferOverflow bytes.length 0 4), cells, ⟨[], bytes⟩)
      else if header bytes = abortMark then
        (.error (.roundAborted root), cells, seek bytes 4)
      else if header bytes < 0 then
        (.error (.invalidField "cell_count" (.negativeCount (header bytes).toInt)), cells,
          seek bytes 4)
      else (mergeRecords (header bytes).toNatClampNeg >>= fun _ =>
        pure (header bytes).toNatClampNeg).on cells (seek bytes 4) := by
  rw [← Buffer.seek_zero, mergeShare, Filling.on_bind, Filling.on_ofTransfer,
    on_unpackInt_seek (Nat.zero_le _), ← header, Nat.zero_add]
  by_cases hcut : bytes.length < 4
  · rw [if_pos hcut, if_pos hcut]
  rw [if_neg hcut, if_neg hcut]
  show Filling.on (if header bytes = abortMark then _ else _) _ _ = _
  by_cases hmark : header bytes = abortMark
  · rw [if_pos hmark, if_pos hmark]
    rfl
  rw [if_neg hmark, if_neg hmark]
  show Filling.on (if header bytes < 0 then _ else _) _ _ = _
  by_cases hneg : header bytes < 0
  · rw [if_pos hneg, if_pos hneg]
    rfl
  · rw [if_neg hneg, if_neg hneg]

theorem mergeShare_ending (root : Nat) (cells : List Cell) (bytes : List UInt8) :
    ∃ k result b, (mergeShare root).on cells ⟨[], bytes⟩ = (result, written bytes k cells, b) ∧
      (∀ i < k, Sound bytes cells.length i) ∧ Ending root bytes cells.length k result := by
  rw [on_mergeShare]
  by_cases hcut : bytes.length < 4
  · rw [if_pos hcut]
    exact ⟨0, _, _, rfl, fun i hi => absurd hi i.not_lt_zero, .cut hcut⟩
  have hlen := Nat.not_lt.mp hcut
  rw [if_neg hcut]
  by_cases hmark : header bytes = abortMark
  · rw [if_pos hmark]
    exact ⟨0, _, _, rfl, fun i hi => absurd hi i.not_lt_zero, .aborted hlen hmark⟩
  rw [if_neg hmark]
  by_cases hneg : header bytes < 0
  · rw [if_pos hneg]
    exact ⟨0, _, _, rfl, fun i hi => absurd hi i.not_lt_zero, .negative hlen hmark hneg⟩
  rw [if_neg hneg]
  -- The header is a number of records, and these are merged in order.
  obtain ⟨k, result, b, hon, hsound, hend⟩ :=
    mergeRecords_seek (header bytes).toNatClampNeg cells (i := 0) hlen
  rw [Nat.zero_add] at hend
  rw [Filling.on_bind, show seek bytes 4 = seek bytes (recordStart 0) from rfl, hon,
    ← List.range_eq_range', ← written]
  have hsound : ∀ i < k, Sound bytes cells.length i := fun i hi =>
    hsound i i.zero_le (by omega)
  rcases hend with ⟨rfl, rfl⟩ | ⟨e, rfl, hlt, hrefused⟩
  · exact ⟨_, _, _, rfl, hsound, .complete hlen hneg⟩
  · exact ⟨k, _, _, rfl, hsound, .refused hlen hneg hlt hrefused⟩

/-! ### What is left in the buffer

A buffer is larger than most shares, and behind the records are the bytes of earlier rounds. They
make no difference, since the header says how many bytes matter (`claimed`).
-/

/-- Bytes behind the ones that the header lays claim to make no difference. -/
theorem mergeShare_congr (root : Nat) (cells : List Cell) {bytes other : List UInt8}
    (hlen : other.length = bytes.length)
    (htake : other.take (claimed bytes) = bytes.take (claimed bytes)) :
    ((mergeShare root).on cells ⟨[], other⟩).1 = ((mergeShare root).on cells ⟨[], bytes⟩).1 ∧
      ((mergeShare root).on cells ⟨[], other⟩).2.1 =
        ((mergeShare root).on cells ⟨[], bytes⟩).2.1 := by
  have hfour : 4 ≤ claimed bytes := by
    unfold claimed recordStart
    split <;> omega
  have hheader : header other = header bytes := by
    have h := congrArg (List.take 4) htake
    rw [List.take_take, List.take_take, Nat.min_eq_left hfour] at h
    exact congrArg intOfBytes h
  -- Without bytes behind the claimed ones there is nothing that could differ.
  by_cases hall : bytes.length ≤ claimed bytes
  · rw [List.take_of_length_le hall, List.take_of_length_le (hlen ▸ hall)] at htake
    rw [htake]
    exact ⟨rfl, rfl⟩
  rw [on_mergeShare, on_mergeShare, hlen, hheader]
  by_cases hcut : bytes.length < 4
  · rw [if_pos hcut, if_pos hcut]
    exact ⟨rfl, rfl⟩
  rw [if_neg hcut, if_neg hcut]
  by_cases hmark : header bytes = abortMark
  · rw [if_pos hmark, if_pos hmark]
    exact ⟨rfl, rfl⟩
  rw [if_neg hmark, if_neg hmark]
  by_cases hneg : header bytes < 0
  · rw [if_pos hneg, if_pos hneg]
    exact ⟨rfl, rfl⟩
  rw [if_neg hneg, if_neg hneg]
  rw [claimed, if_neg hneg] at htake hall
  have hwithin := (within_mergeRecords (header bytes).toNatClampNeg).bind fun _ =>
    Filling.within_pure (header bytes).toNatClampNeg
  exact hwithin.congr cells (Nat.le_of_not_le hall) htake

/-- Whatever bytes arrive, merging them writes the first `k` records whole and in order, and
the bytes say which `k`: all of them with success, or those before the first one that is
refused with its error. Only the bytes that the header lays claim to matter. -/
theorem mergeShare_all_or_nothing (root : Nat) (cells : List Cell) (bytes : List UInt8) :
    ∃ k result b, (mergeShare root).on cells ⟨[], bytes⟩ = (result, written bytes k cells, b) ∧
      (written bytes k cells).length = cells.length ∧
      (∀ i < k, Sound bytes cells.length i) ∧
      Ending root bytes cells.length k result ∧
      (∀ m, result = .ok m ↔ 4 ≤ bytes.length ∧ ¬ header bytes < 0 ∧
        k = (header bytes).toNatClampNeg ∧ m = k) ∧
      ∀ other : List UInt8, other.length = bytes.length →
        other.take (claimed bytes) = bytes.take (claimed bytes) →
        ((mergeShare root).on cells ⟨[], other⟩).1 = result ∧
          ((mergeShare root).on cells ⟨[], other⟩).2.1 = written bytes k cells := by
  obtain ⟨k, result, b, hon, hsound, hend⟩ := mergeShare_ending root cells bytes
  refine ⟨k, result, b, hon, length_foldl_writeRecord bytes _ cells, hsound, hend,
    fun m => hend.eq_ok_iff, fun other hlen htake => ?_⟩
  have hsame := mergeShare_congr root cells hlen htake
  rw [hon] at hsame
  exact hsame

/-- A record with an index and a cell that has nothing but a number in its domain. -/
def bareRecord (index number : UInt8) : List UInt8 :=
  [index, 0, 0, 0] ++ [0, 0, 0, 0] ++ [number, 0, 0, 0] ++ List.replicate 272 0

/-- Three records, the last of them of a cell that a grid of two does not have, with two bytes
behind them that are left from an earlier round. -/
def strayThird (left right : UInt8) : List UInt8 :=
  [3, 0, 0, 0] ++ bareRecord 1 7 ++ bareRecord 0 8 ++ bareRecord 2 9 ++ [left, right]

/-- The two records before the stray one are written, whatever is left behind it. -/
theorem mergeShare_stale_tail :
    (strayThird 9 8).take (claimed (strayThird 1 2)) =
        (strayThird 1 2).take (claimed (strayThird 1 2)) ∧
      ((mergeShare 3).on [.blank 0 0 0, .blank 0 1 1] ⟨[], strayThird 9 8⟩).1 =
        .error (.cellIndexOutOfRange 2 2) ∧
      ((mergeShare 3).on [.blank 0 0 0, .blank 0 1 1] ⟨[], strayThird 9 8⟩).2.1.map
        (·.domainIndex) = [8, 7] := by
  obtain ⟨k, result, b, hon, -, -, -, -, htail⟩ :=
    mergeShare_all_or_nothing 3 [.blank 0 0 0, .blank 0 1 1] (strayThird 1 2)
  have htake : (strayThird 9 8).take (claimed (strayThird 1 2)) =
      (strayThird 1 2).take (claimed (strayThird 1 2)) := by decide +kernel
  obtain ⟨hresult, hcells⟩ := htail (strayThird 9 8) (by decide +kernel) htake
  have hsame : ((mergeShare 3).on [.blank 0 0 0, .blank 0 1 1] ⟨[], strayThird 1 2⟩).2.1 =
      written (strayThird 1 2) k [.blank 0 0 0, .blank 0 1 1] := by rw [hon]
  refine ⟨htake, hresult.trans ?_, (congrArg (List.map _) (hcells.trans hsame.symm)).trans ?_⟩
  · calc result
        = ((mergeShare 3).on [.blank 0 0 0, .blank 0 1 1] ⟨[], strayThird 1 2⟩).1 := by rw [hon]
      _ = .error (.cellIndexOutOfRange 2 2) := by decide +kernel
  · decide +kernel

end Exchange

end StellarWind
