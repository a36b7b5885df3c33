import StellarWind.Proofs.Wire.Members

/-!
# The cursor of a buffer

Calls that pack, unpack and rewind share one cursor. They may come in any order, and a call that
fails does not end the run. Whatever was called before, a call leaves all bytes alone that are
not between its first and its last cursor. A scalar or a run of doubles is moved as a whole or
not at all. A composite value is moved up to the member at which the call fails.

Scalars that are packed from the start, up to the first that does not fit, are the longest front
that fits into the buffer (`Scalar.fitting`), and unpacking gives them back.
-/

namespace StellarWind

open Transfer

/-! ## Fronts of a list of scalars

The front is cut where the first scalar does not fit, and a smaller scalar behind it is not tried.
So it is a front of the list and no front that fits is longer, while more scalars might fit if some
were left out.
-/

namespace Scalar

/-- The longest front of a list of values that fits into `room` bytes. -/
def fitting : Nat → List Scalar → List Scalar
  | _, [] => []
  | room, v :: rest =>
    if v.kind.size ≤ room then v :: fitting (room - v.kind.size) rest else []

theorem fitting_isPrefix (room : Nat) (values : List Scalar) : fitting room values <+: values := by
  induction values generalizing room with
  | nil => exact List.prefix_refl []
  | cons v rest ih =>
      rw [fitting]
      split
      · exact (List.cons_prefix_cons).mpr ⟨rfl, ih _⟩
      · exact List.nil_prefix

theorem total_fitting_le (room : Nat) (values : List Scalar) :
    total (fitting room values) ≤ room := by
  induction values generalizing room with
  | nil => exact Nat.zero_le room
  | cons v rest ih =>
      rw [fitting]
      split
      · have hrest := ih (room - v.kind.size)
        rw [total_cons]
        omega
      · exact Nat.zero_le room

/-- No front that fits is longer. -/
theorem prefix_fitting {room : Nat} {values other : List Scalar} (hother : other <+: values)
    (hroom : total other ≤ room) : other <+: fitting room values := by
  induction values generalizing room other with
  | nil =>
      rw [List.prefix_nil] at hother
      rw [hother]
      exact List.nil_prefix
  | cons v rest ih =>
      cases other with
      | nil => exact List.nil_prefix
      | cons w others =>
          obtain ⟨rfl, hrest⟩ := List.cons_prefix_cons.mp hother
          rw [total_cons] at hroom
          rw [fitting, if_pos (by omega)]
          exact List.cons_prefix_cons.mpr ⟨rfl, ih hrest (by omega)⟩

/-- The value behind the longest front that fits does not fit any more. -/
theorem lt_total_of_fitting {room : Nat} {packed rest : List Scalar} {v : Scalar}
    (h : fitting room (packed ++ v :: rest) = packed) : room < total packed + v.kind.size := by
  apply Nat.lt_of_not_le
  intro hroom
  have hfront : packed ++ [v] <+: packed ++ v :: rest :=
    (List.prefix_append_right_inj packed).mpr (List.prefix_append [v] rest)
  have hlonger := (prefix_fitting hfront (by simpa using hroom)).length_le
  rw [h, List.length_append, List.length_singleton] at hlonger
  omega

end Scalar

/-! ## Packing and unpacking scalars in order

Scalars that fit are packed side by side from the cursor on. What is packed before a failure stays,
and unpacking by the same kinds steps over the same bytes.
-/

namespace Transfer

variable {α β : Type}

theorem on_packScalars {values : List Scalar} {b : Buffer}
    (h : Scalar.total values ≤ b.ahead.length) :
    (values.forM packScalar).on b = (.ok (), b.replace (values.flatMap bytesOfScalar)) := by
  have hwrites : (values.forM packScalar).Writes (∀ v ∈ values, True)
      (values.flatMap bytesOfScalar) () := Writes.forM fun v _ => writes_packScalar v
  refine (hwrites b _ ()).mpr ⟨fun _ _ => trivial, ?_, rfl, rfl⟩
  rwa [Scalar.length_bytes]

/-- Packing stops at the first scalar that does not fit. -/
theorem on_packScalars_short {packed rest : List Scalar} {v : Scalar} {b : Buffer}
    (hpacked : Scalar.total packed ≤ b.ahead.length)
    (hv : b.ahead.length < Scalar.total packed + v.kind.size) :
    ((packed ++ v :: rest).forM packScalar).on b =
      (.error ((b.replace (packed.flatMap bytesOfScalar)).overflow v.kind.size),
        b.replace (packed.flatMap bytesOfScalar)) := by
  have hshort : (b.replace (packed.flatMap bytesOfScalar)).ahead.length < v.kind.size := by
    rw [Buffer.length_ahead_replace, Scalar.length_bytes]
    omega
  have hparts : (packed ++ v :: rest).forM packScalar =
      packed.forM packScalar >>= fun _ => packScalar v >>= fun _ => rest.forM packScalar :=
    List.forM_append
  rw [hparts, on_bind, on_packScalars hpacked]
  dsimp only
  rw [on_bind, on_packScalar_short hshort]

theorem gives_pure (a : α) : (pure a : Transfer α).Gives [] a := fun _ _ => rfl

theorem Gives.bind {t : Transfer α} {f : α → Transfer β} {xs ys : List UInt8} {a : α} {c : β}
    (ht : t.Gives xs a) (hf : (f a).Gives ys c) : (t >>= f).Gives (xs ++ ys) c := by
  intro behind rest
  rw [on_bind, List.append_assoc, ht behind (ys ++ rest)]
  show (f a).on _ = _
  rw [hf, List.reverse_append, List.append_assoc]

theorem gives_unpackScalars (values : List Scalar) :
    ((values.map Scalar.kind).mapM unpackScalar).Gives (values.flatMap bytesOfScalar) values := by
  induction values with
  | nil => exact gives_pure []
  | cons v rest ih =>
      rw [List.map_cons, List.mapM_cons, List.flatMap_cons]
      exact (gives_unpackScalar v).bind (ih.map (v :: ·))

end Transfer

/-! ## Runs of calls

A call is looked at from the outside: how it ends and which buffer it leaves. All that is needed of
a call for the run is that it rewinds or steps over bytes at the cursor, and from this the induction
over the calls follows.
-/

namespace Buffer

theorem contents_rewind (b : Buffer) : b.rewind.contents = b.contents := rfl

/-- The run moves `n` bytes as a whole, or fails and leaves the buffer as it was if there are
fewer. -/
def MovesWhole (run : Buffer → Except ExchangeError Unit × Buffer) (n : Nat) : Prop :=
  ∀ b : Buffer,
    (∃ bytes, bytes.length = n ∧ n ≤ b.ahead.length ∧ run b = (.ok (), b.replace bytes)) ∨
    b.ahead.length < n ∧ run b = (.error (b.overflow n), b)

theorem movesWhole_put (bytes : List UInt8) : MovesWhole (put bytes).on bytes.length := by
  intro b
  by_cases hroom : bytes.length ≤ b.ahead.length
  · exact .inl ⟨bytes, rfl, hroom, (writes_put bytes b _ ()).mpr ⟨trivial, hroom, rfl, rfl⟩⟩
  · have hshort : b.ahead.length < bytes.length := Nat.lt_of_not_le hroom
    exact .inr ⟨hshort, on_put_short hshort⟩

theorem movesWhole_discard {α : Type} {t : Transfer α} {n : Nat} {value : List UInt8 → α}
    (h : t.Takes n value) : MovesWhole (discard t).on n := by
  have hdiscard : discard t = do return (fun _ => ()) (← t) := map_eq_pure_bind _ t
  intro b
  rw [hdiscard, h.map (fun _ => ()) b]
  by_cases hroom : n ≤ b.ahead.length
  · rw [if_pos hroom]
    exact .inl ⟨b.ahead.take n, List.length_take_of_le hroom, hroom, rfl⟩
  · rw [if_neg hroom]
    exact .inr ⟨Nat.lt_of_not_le hroom, rfl⟩

/-! ### Calls

What one call does to the cursor and the bytes, by the kind of the call.
-/

/-- A call on a buffer. -/
inductive Call : Type 1 where
  | packInt (value : Int32)
  | packDouble (value : Binary64)
  | packDoubles (values : List Binary64)
  | packComposite (layout : Composite) (get : Nat → Scalar)
  | unpackInt
  | unpackDouble
  | unpackDoubles (count : Nat)
  | unpackComposite {ρ : Type} (layout : Composite)
      (set : ρ → Nat → Scalar → Except ExchangeError ρ) (target : ρ)
  | rewind

namespace Call

/-- How a call ends, apart from the values that it gives, and the buffer that it leaves. -/
def on : Call → Buffer → Except ExchangeError Unit × Buffer
  | packInt value, b => (Transfer.packInt value).on b
  | packDouble value, b => (Transfer.packDouble value).on b
  | packDoubles values, b => (Transfer.packDoubles values).on b
  | packComposite layout get, b => (layout.pack get).on b
  | unpackInt, b => (discard Transfer.unpackInt).on b
  | unpackDouble, b => (discard Transfer.unpackDouble).on b
  | unpackDoubles count, b => (discard (Transfer.unpackDoubles count)).on b
  | unpackComposite layout set target, b =>
    let (result, _, b') := (layout.unpack set).on target b
    (result, b')
  | rewind, b => (.ok (), b.rewind)

/-- The number of bytes of a call for a scalar or a run of doubles. -/
def bytes? : Call → Option Nat
  | packInt _ | unpackInt => some 4
  | packDouble _ | unpackDouble => some 8
  | packDoubles values => some (values.length * 8)
  | unpackDoubles count => some (count * 8)
  | packComposite _ _ | unpackComposite _ _ _ | rewind => none

theorem movesWhole {call : Call} {n : Nat} (h : call.bytes? = some n) : MovesWhole call.on n := by
  cases call with
  | packInt value =>
      cases h
      have hput := movesWhole_put (intBytes value)
      rwa [length_intBytes] at hput
  | packDouble value =>
      cases h
      have hput := movesWhole_put (doubleBytes value)
      rwa [length_doubleBytes] at hput
  | packDoubles values =>
      cases h
      have hput := movesWhole_put (values.flatMap doubleBytes)
      rwa [length_flatMap_doubleBytes] at hput
  | unpackInt =>
      cases h
      exact movesWhole_discard takes_unpackInt
  | unpackDouble =>
      cases h
      exact movesWhole_discard takes_unpackDouble
  | unpackDoubles count =>
      cases h
      exact movesWhole_discard (takes_unpackDoubles count)
  | packComposite layout get => cases h
  | unpackComposite layout set target => cases h
  | rewind => cases h

/-- A call goes back to the start, or steps over bytes at the cursor and changes no others. -/
theorem rewinds_or_reaches (call : Call) (b : Buffer) :
    (call.on b).2 = b.rewind ∨ b.Reaches (call.on b).2 := by
  cases hwhole : call.bytes? with
  | some n =>
      obtain ⟨bytes, rfl, hroom, hon⟩ | ⟨-, hon⟩ := movesWhole hwhole b
      · exact .inr ⟨bytes, hroom, congrArg Prod.snd hon⟩
      · rw [hon]
        exact .inr (.refl b)
  | none =>
      cases call with
      | packComposite layout get =>
          -- The bytes of the members that were moved are those that were stepped over.
          obtain ⟨values, r, b', hon, hmoves, -⟩ := layout.on_pack get b
          refine .inr ?_
          show b.Reaches ((layout.pack get).on b).2
          rw [hon]
          exact hmoves.reaches
      | unpackComposite layout set target =>
          obtain ⟨values, r, t, b', hon, hmoves, -⟩ := layout.on_unpack set target b
          refine .inr ?_
          show b.Reaches ((layout.unpack set).on target b).2.2
          rw [hon]
          exact hmoves.reaches
      | rewind => exact .inl rfl
      | _ => cases hwhole

theorem capacity_on (call : Call) (b : Buffer) : (call.on b).2.capacity = b.capacity := by
  obtain h | h := call.rewinds_or_reaches b
  · rw [h, capacity_rewind]
  · exact h.capacity

/-- A call changes no byte outside its first and its last cursor. -/
theorem getElem?_contents_on (call : Call) {b : Buffer} {i : Nat}
    (hi : i < b.position ∨ (call.on b).2.position ≤ i) :
    (call.on b).2.contents[i]? = b.contents[i]? := by
  obtain h | ⟨bytes, -, h⟩ := call.rewinds_or_reaches b
  · rw [h, contents_rewind]
  · rw [h] at hi ⊢
    rw [position_replace] at hi
    exact getElem?_contents_replace hi

end Call

/-! ### Calls in a row

The state of a buffer after calls is all that the next call can see of them.
-/

/-- The buffer after calls, of which some may have failed. -/
def after (b : Buffer) (calls : List Call) : Buffer := calls.foldl (fun b call => (call.on b).2) b

theorem capacity_after (b : Buffer) (calls : List Call) :
    (b.after calls).capacity = b.capacity := by
  induction calls generalizing b with
  | nil => rfl
  | cons call rest ih => exact (ih (call.on b).2).trans (call.capacity_on b)

theorem capacity_of_allocate {capacity : Nat} {b : Buffer} (h : allocate capacity = .ok b) :
    b.capacity = capacity := by
  unfold allocate at h
  split at h
  · cases h
    simp [Buffer.capacity]
  · cases h

/-- What a call for a scalar or a run of doubles does, by the room that there is for it. -/
theorem Call.on_whole_eq {call : Call} {n : Nat} (h : call.bytes? = some n) (b : Buffer) :
    if b.position + n ≤ b.capacity then
      ∃ b', call.on b = (.ok (), b') ∧ b'.position = b.position + n
    else call.on b = (.error (.bufferOverflow b.capacity b.position n), b) := by
  have hahead := b.length_ahead
  obtain ⟨bytes, rfl, hroom, hon⟩ | ⟨hshort, hon⟩ := movesWhole h b
  · rw [if_pos (by omega)]
    exact ⟨_, hon, b.position_replace bytes⟩
  · rw [if_neg (by omega)]
    exact hon

/-! ## Scalars from the start

After a rewind the whole buffer is ahead, whatever was there before.
-/

/-- Scalars that fit are packed from the start, also when others that do not fit follow, and come
back when they are unpacked. -/
theorem exists_on_packScalars (b : Buffer) {packed : List Scalar}
    (hfits : Scalar.total packed ≤ b.capacity) :
    ∃ b', (packed.forM packScalar).on b.rewind = (.ok (), b') ∧
      b'.position = Scalar.total packed ∧
      (∀ v rest, b.capacity < Scalar.total packed + v.kind.size →
        ((packed ++ v :: rest).forM packScalar).on b.rewind =
          (.error (.bufferOverflow b.capacity (Scalar.total packed) v.kind.size), b')) ∧
      ((packed.map Scalar.kind).mapM unpackScalar).on b'.rewind = (.ok packed, b') := by
  have hroom : Scalar.total packed ≤ b.rewind.ahead.length := by rwa [length_ahead_rewind]
  have hposition : (b.rewind.replace (packed.flatMap bytesOfScalar)).position =
      Scalar.total packed := by
    rw [position_replace, Scalar.length_bytes]
    exact Nat.zero_add _
  have hcapacity : (b.rewind.replace (packed.flatMap bytesOfScalar)).capacity = b.capacity := by
    rw [capacity_replace (by rwa [Scalar.length_bytes]), capacity_rewind]
  refine ⟨_, on_packScalars hroom, hposition, fun v rest hlong => ?_, ?_⟩
  · rw [on_packScalars_short hroom (by rwa [length_ahead_rewind]), overflow, hposition, hcapacity]
  · rw [rewind, contents_rewind_replace, gives_unpackScalars packed [] _]
    rfl

/-! ## The discipline of the cursor

The calls before matter only through the buffer that they leave, and its size is all that is known
of it.
-/

/-- Whatever has been called on a buffer since it was allocated, and whether or not it failed: the
cursor is in the buffer, whose size is the same. A call changes no byte outside its first and its
last cursor. One for a scalar or a run of doubles moves the cursor over all of its bytes, or
fails and changes nothing where they do not fit. One for a composite value leaves the cursor
behind the members that it has moved. Scalars that are packed from the start up to the first
failure are the longest front that fits, and are unpacked as they were. -/
theorem calls_keep_cursor {capacity : Nat} {fresh : Buffer} (hfresh : allocate capacity = .ok fresh)
    {calls : List Call} {b : Buffer} (hb : fresh.after calls = b) :
    b.capacity = capacity ∧ b.position ≤ capacity ∧
    (∀ (call : Call) (i : Nat), i < b.position ∨ (call.on b).2.position ≤ i →
      (call.on b).2.contents[i]? = b.contents[i]?) ∧
    (∀ (call : Call) (n : Nat), call.bytes? = some n →
      if b.position + n ≤ capacity then
        ∃ b', call.on b = (.ok (), b') ∧ b'.position = b.position + n
      else call.on b = (.error (.bufferOverflow capacity b.position n), b)) ∧
    (∀ (layout : Composite) (get : Nat → Scalar), ∃ values r b',
      (layout.pack get).on b = (r, b') ∧ layout.Moves values b b' ∧
      b'.position = b.position + layout.bytesOfFirst values.length ∧
      values = (List.range values.length).map get ∧ layout.PackEnds get values.length b' r) ∧
    (∀ (ρ : Type) (layout : Composite) (set : ρ → Nat → Scalar → Except ExchangeError ρ)
      (target : ρ), ∃ values r t b',
      (layout.unpack set).on target b = (r, t, b') ∧ layout.Moves values b b' ∧
      b'.position = b.position + layout.bytesOfFirst values.length ∧
      b'.contents = b.contents ∧ layout.UnpackEnds set target values b' r t) ∧
    ∀ values packed : List Scalar, Scalar.fitting capacity values = packed →
      packed <+: values ∧ Scalar.total packed ≤ capacity ∧
      (∀ other, other <+: values → Scalar.total other ≤ capacity → other <+: packed) ∧
      ∃ b', (packed.forM packScalar).on b.rewind = (.ok (), b') ∧
        b'.position = Scalar.total packed ∧
        (∀ v rest, values = packed ++ v :: rest → (values.forM packScalar).on b.rewind =
          (.error (.bufferOverflow capacity (Scalar.total packed) v.kind.size), b')) ∧
        ((packed.map Scalar.kind).mapM unpackScalar).on b'.rewind = (.ok packed, b') := by
  have hcapacity : b.capacity = capacity := by
    rw [← hb, capacity_after, capacity_of_allocate hfresh]
  -- From here on only the buffer that the calls have left matters.
  subst hcapacity
  refine ⟨rfl, Nat.le_add_right _ _, fun call i => call.getElem?_contents_on, ?_, ?_, ?_, ?_⟩
  · exact fun call n hn => Call.on_whole_eq hn b
  · intro layout get
    obtain ⟨values, r, b', hon, hmoves, hvalues, hends⟩ := layout.on_pack get b
    exact ⟨values, r, b', hon, hmoves, hmoves.position, hvalues, hends⟩
  · intro ρ layout set target
    obtain ⟨values, r, t, b', hon, hmoves, hkept, hends⟩ := layout.on_unpack set target b
    exact ⟨values, r, t, b', hon, hmoves, hmoves.position, hkept, hends⟩
  · intro values packed hpacked
    have hfront := Scalar.fitting_isPrefix b.capacity values
    have hfits := Scalar.total_fitting_le b.capacity values
    rw [hpacked] at hfront hfits
    refine ⟨hfront, hfits, fun other hother hroom => ?_, ?_⟩
    · exact hpacked ▸ Scalar.prefix_fitting hother hroom
    · obtain ⟨b', hpack, hposition, hbeyond, hunpack⟩ := b.exists_on_packScalars hfits
      refine ⟨b', hpack, hposition, fun v rest hvalues => ?_, hunpack⟩
      rw [hvalues] at hpacked ⊢
      exact hbeyond v rest (Scalar.lt_total_of_fitting hpacked)

/-- Calls of all kinds. The runs of doubles do not fit, nor does the double that is unpacked. -/
def mixedCalls : List Call :=
  [.packInt (-42), .packDoubles [⟨1⟩, ⟨2⟩, ⟨3⟩], .packComposite Cone.layout (Cone.get ⟨⟨4⟩, ⟨5⟩⟩),
    .rewind, .unpackInt, .unpackComposite Cone.layout Cone.set Cone.zero, .unpackDouble, .rewind,
    .packDouble ⟨8⟩, .unpackDoubles 2]

/-- A layout whose first member cones refuse. -/
def coneOfInt : Composite := ⟨"cone_boundary", [⟨"offset", .int, 0⟩, ⟨"slope", .double, 8⟩], 16⟩

theorem calls_keep_cursor_mixed :
    ∃ fresh b, allocate 22 = .ok fresh ∧ fresh.after mixedCalls = b ∧ b.position = 8 ∧
      (Call.packDoubles [⟨1⟩, ⟨2⟩]).on b = (.error (.bufferOverflow 22 8 16), b) ∧
      (∃ values b', (Cone.layout.pack (Cone.get ⟨⟨6⟩, ⟨7⟩⟩)).on b =
        (.error (.bufferOverflow 22 16 8), b') ∧ Cone.layout.Moves values b b') ∧
      (∃ values b', (coneOfInt.unpack Cone.set).on Cone.zero b =
        (.error (.invalidField "offset" .notADouble), Cone.zero, b') ∧ b'.position = 12 ∧
          coneOfInt.Moves values b b') ∧
      ∃ b', ([.int 7, .double ⟨5⟩, .int (-1), .double ⟨9⟩].forM packScalar).on b.rewind =
          (.error (.bufferOverflow 22 16 8), b') ∧
        ([.int, .double, .int].mapM unpackScalar).on b'.rewind =
          (.ok [.int 7, .double ⟨5⟩, .int (-1)], b') := by
  obtain ⟨-, -, -, hwhole, hpack, hunpack, hscalars⟩ :=
    @calls_keep_cursor 22 _ rfl mixedCalls _ rfl
  refine ⟨_, _, rfl, rfl, rfl, hwhole (.packDoubles [⟨1⟩, ⟨2⟩]) 16 rfl, ?_, ?_, ?_⟩
  · obtain ⟨values, r, b', hon, hmoves, -⟩ := hpack Cone.layout (Cone.get ⟨⟨6⟩, ⟨7⟩⟩)
    obtain rfl : .error (.bufferOverflow 22 16 8) = r := congrArg Prod.fst hon
    exact ⟨values, b', hon, hmoves⟩
  · obtain ⟨values, r, t, b', hon, hmoves, -⟩ := hunpack Cone coneOfInt Cone.set Cone.zero
    obtain rfl : .error (.invalidField "offset" .notADouble) = r := congrArg Prod.fst hon
    obtain rfl : Cone.zero = t := congrArg (·.2.1) hon
    have hposition : 12 = b'.position := congrArg (·.2.2.position) hon
    exact ⟨values, b', hon, hposition.symm, hmoves⟩
  · obtain ⟨-, -, -, b', -, -, hbeyond, hback⟩ :=
      hscalars [.int 7, .double ⟨5⟩, .int (-1), .double ⟨9⟩] _ rfl
    exact ⟨b', hbeyond (.double ⟨9⟩) [] rfl, hback⟩

end Buffer

end StellarWind
