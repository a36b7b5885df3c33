import StellarWind.Proofs.Wire.Sizing

/-!
# Composite values, member by member

The members of a composite value are packed and unpacked one after the other, and what was done
before a failure stays done. `Composite.Moves` says which members have been moved between two
states of a buffer. `Composite.PackEnds` and `Composite.UnpackEnds` say why it went no further:
all members are there, or the next one has another kind, or it does not fit, or the target of an
unpacked value refuses it.
-/

namespace StellarWind

open Transfer

/-- A walk over numbered items: the first one, then the others under the next numbers. -/
theorem forM_zipIdx_cons {μ : Type → Type} [Monad μ] [LawfulMonad μ] {α : Type}
    (f : α × Nat → μ Unit) (x : α) (xs : List α) :
    (x :: xs).zipIdx.forM f = f (x, 0) >>= fun _ => xs.zipIdx.forM fun p => f (p.1, p.2 + 1) := by
  rw [List.zipIdx_cons', List.forM_eq_forM, List.forM_cons, List.forM_map]
  rfl

/-! ## Scalars

One member is a scalar. It is moved as a whole, or the buffer stays as it is.
-/

namespace Scalar

/-- The number of bytes of values on the wire. -/
def total (values : List Scalar) : Nat := (values.map (·.kind.size)).sum

@[simp] theorem total_nil : total [] = 0 := rfl

@[simp] theorem total_cons (v : Scalar) (rest : List Scalar) :
    total (v :: rest) = v.kind.size + total rest := rfl

@[simp] theorem total_append (xs ys : List Scalar) : total (xs ++ ys) = total xs + total ys := by
  rw [total, List.map_append, List.sum_append]
  rfl

@[simp] theorem length_bytes (values : List Scalar) :
    (values.flatMap bytesOfScalar).length = total values := by
  induction values with
  | nil => rfl
  | cons v rest ih =>
      rw [List.flatMap_cons, List.length_append, ih, Composite.length_bytesOfScalar, total_cons]

end Scalar

namespace Transfer

theorem packScalar_eq_put (v : Scalar) : packScalar v = put (bytesOfScalar v) := by
  cases v <;> rfl

theorem on_packScalar {v : Scalar} {b : Buffer} (h : v.kind.size ≤ b.ahead.length) :
    (packScalar v).on b = (.ok (), b.replace (bytesOfScalar v)) := by
  refine (writes_packScalar v b _ ()).mpr ⟨trivial, ?_, rfl, rfl⟩
  rwa [Composite.length_bytesOfScalar]

theorem on_packScalar_short {v : Scalar} {b : Buffer} (h : b.ahead.length < v.kind.size) :
    (packScalar v).on b = (.error (b.overflow v.kind.size), b) := by
  rw [← Composite.length_bytesOfScalar] at h ⊢
  rw [packScalar_eq_put, on_put_short h]

/-- Unpacking a scalar finds a value whose bytes are those at the cursor. -/
theorem exists_on_unpackScalar {kind : ScalarKind} {b : Buffer} (h : kind.size ≤ b.ahead.length) :
    ∃ v : Scalar, v.kind = kind ∧ (unpackScalar kind).on b = (.ok v, b.replace (bytesOfScalar v)) ∧
      (b.replace (bytesOfScalar v)).contents = b.contents := by
  have hlength : (b.ahead.take kind.size).length = kind.size := List.length_take_of_le h
  have hbytes : bytesOfScalar (scalarOfBytes kind (b.ahead.take kind.size)) =
      b.ahead.take kind.size := by
    cases kind with
    | int => exact intBytes_intOfBytes hlength
    | double => exact doubleBytes_doubleOfBytes hlength
  refine ⟨scalarOfBytes kind (b.ahead.take kind.size), kind_scalarOfBytes kind _, ?_, ?_⟩
  · rw [takes_unpackScalar kind b, if_pos h, hbytes, Buffer.skip]
  · rw [hbytes]
    exact b.contents_skip kind.size

theorem on_unpackScalar_short {kind : ScalarKind} {b : Buffer} (h : b.ahead.length < kind.size) :
    (unpackScalar kind).on b = (.error (b.overflow kind.size), b) := by
  rw [takes_unpackScalar kind b, if_neg (Nat.not_le.mpr h)]

end Transfer

/-! ## Members that have been moved

Moved members are a front of the layout. Their bytes stand side by side, so that the cursor has gone
on by their sizes.
-/

namespace Composite

variable {ρ : Type}

/-- The number of bytes of the first members of the layout. -/
def bytesOfFirst (c : Composite) (count : Nat) : Nat :=
  ((c.members.take count).map (·.kind.size)).sum

/-- The values are of the first members of the layout. In `b'` they stand right before the
cursor, from the cursor of `b` on, and nothing else is different. -/
structure Moves (c : Composite) (values : List Scalar) (b b' : Buffer) : Prop where
  kinds : values.map Scalar.kind <+: c.members.map Member.kind
  room : Scalar.total values ≤ b.ahead.length
  buffer : b' = b.replace (values.flatMap bytesOfScalar)

namespace Moves

theorem nil (c : Composite) (b : Buffer) : c.Moves [] b b where
  kinds := List.nil_prefix
  room := Nat.zero_le _
  buffer := rfl

theorem cons {name : String} {m : Member} {rest : List Member} {extent : Nat} {v : Scalar}
    {values : List Scalar} {b b' : Buffer} (hkind : v.kind = m.kind)
    (hroom : v.kind.size ≤ b.ahead.length)
    (h : Moves ⟨name, rest, extent⟩ values (b.replace (bytesOfScalar v)) b') :
    Moves ⟨name, m :: rest, extent⟩ (v :: values) b b' where
  kinds := List.cons_prefix_cons.mpr ⟨hkind, h.kinds⟩
  room := by
    have hrest := h.room
    rw [Buffer.length_ahead_replace, length_bytesOfScalar] at hrest
    rw [Scalar.total_cons]
    omega
  buffer := by
    rw [h.buffer, List.flatMap_cons, Buffer.replace_append]

variable {c : Composite} {values : List Scalar} {b b' : Buffer}

theorem reaches (h : c.Moves values b b') : b.Reaches b' :=
  ⟨values.flatMap bytesOfScalar, by rw [Scalar.length_bytes]; exact h.room, h.buffer⟩

theorem total_eq (h : c.Moves values b b') :
    Scalar.total values = c.bytesOfFirst values.length := by
  have hkinds : values.map Scalar.kind = (c.members.take values.length).map Member.kind := by
    have htake := List.prefix_iff_eq_take.mp h.kinds
    rwa [List.length_map, ← List.map_take] at htake
  calc Scalar.total values
      = ((values.map Scalar.kind).map ScalarKind.size).sum := by rw [List.map_map]; rfl
    _ = (((c.members.take values.length).map Member.kind).map ScalarKind.size).sum := by
        rw [hkinds]
    _ = c.bytesOfFirst values.length := by rw [List.map_map]; rfl

theorem position (h : c.Moves values b b') :
    b'.position = b.position + c.bytesOfFirst values.length := by
  rw [h.buffer, Buffer.position_replace, Scalar.length_bytes, h.total_eq]

end Moves

/-! ## Packing

A layout is packed member by member, and behind the first member comes the layout of the others with
its own numbers. The induction on the members therefore shifts the numbers of the value by one.
-/

/-- How packing ends when the cursor of `b'` is behind the first `count` members: all are there,
or the value has another kind than the next one, or there is no room for it. -/
inductive PackEnds (c : Composite) (get : Nat → Scalar) (count : Nat) (b' : Buffer) :
    Except ExchangeError Unit → Prop
  | complete (hall : count = c.members.length) : PackEnds c get count b' (.ok ())
  | wrongKind {m : Member} (hm : c.members[count]? = some m) (hkind : (get count).kind ≠ m.kind) :
      PackEnds c get count b'
        (.error (.invalidField m.name (.wrongKind c.name m.kind (get count).kind)))
  | full {m : Member} (hm : c.members[count]? = some m) (hkind : (get count).kind = m.kind)
      (hroom : b'.ahead.length < m.kind.size) :
      PackEnds c get count b' (.error (b'.overflow m.kind.size))

theorem PackEnds.cons {name : String} {m : Member} {rest : List Member} {extent count : Nat}
    {get : Nat → Scalar} {b' : Buffer} {r : Except ExchangeError Unit}
    (h : PackEnds ⟨name, rest, extent⟩ (fun i => get (i + 1)) count b' r) :
    PackEnds ⟨name, m :: rest, extent⟩ get (count + 1) b' r := by
  cases h with
  | complete hall => exact .complete (congrArg Nat.succ hall)
  | wrongKind hm hkind => exact .wrongKind (c := ⟨name, m :: rest, extent⟩) hm hkind
  | full hm hkind hroom => exact .full (c := ⟨name, m :: rest, extent⟩) hm hkind hroom

theorem pack_cons (name : String) (m : Member) (rest : List Member) (extent : Nat)
    (get : Nat → Scalar) :
    pack ⟨name, m :: rest, extent⟩ get =
      (if (get 0).kind ≠ m.kind then
          throw (.invalidField m.name (.wrongKind name m.kind (get 0).kind))
        else packScalar (get 0)) >>= fun _ => pack ⟨name, rest, extent⟩ fun i => get (i + 1) :=
  forM_zipIdx_cons _ m rest

/-- Packing moves the members in front of the first that it fails at. -/
theorem on_pack (c : Composite) (get : Nat → Scalar) (b : Buffer) :
    ∃ values r b', (c.pack get).on b = (r, b') ∧ c.Moves values b b' ∧
      values = (List.range values.length).map get ∧ c.PackEnds get values.length b' r := by
  obtain ⟨name, members, extent⟩ := c
  induction members generalizing get b with
  | nil => exact ⟨[], .ok (), b, rfl, .nil _ b, rfl, .complete rfl⟩
  | cons m rest ih =>
      rw [pack_cons, on_bind]
      by_cases hkind : (get 0).kind = m.kind
      · rw [if_neg (not_not_intro hkind)]
        by_cases hroom : (get 0).kind.size ≤ b.ahead.length
        · rw [on_packScalar hroom]
          -- The other members follow behind the first, as those of a layout without it.
          obtain ⟨values, r, b', hon, hmoves, hvalues, hends⟩ :=
            ih (fun i => get (i + 1)) (b.replace (bytesOfScalar (get 0)))
          refine ⟨get 0 :: values, r, b', hon, hmoves.cons hkind hroom, ?_, hends.cons⟩
          rw [List.length_cons, List.range_succ_eq_map, List.map_cons, List.map_map]
          exact congrArg (get 0 :: ·) hvalues
        · have hshort : b.ahead.length < (get 0).kind.size := Nat.lt_of_not_le hroom
          rw [on_packScalar_short hshort, hkind]
          exact ⟨[], _, b, rfl, .nil _ b, rfl, .full rfl hkind (hkind ▸ hshort)⟩
      · rw [if_pos hkind, on_throw]
        exact ⟨[], _, b, rfl, .nil _ b, rfl, .wrongKind (c := ⟨name, m :: rest, extent⟩) rfl hkind⟩

/-! ## Unpacking

Unpacking goes the same way, with a target that is asked for each value. What the target has become
on the way is the fold of its setter over the values (`handOver`).
-/

/-- Hand values to a target, member after member. -/
def handOver (set : ρ → Nat → Scalar → Except ExchangeError ρ) (target : ρ)
    (values : List Scalar) : Except ExchangeError ρ :=
  values.zipIdx.foldlM (fun t p => set t p.2 p.1) target

theorem handOver_cons (set : ρ → Nat → Scalar → Except ExchangeError ρ) (target : ρ) (v : Scalar)
    (values : List Scalar) :
    handOver set target (v :: values) =
      set target 0 v >>= fun t => handOver (fun t i => set t (i + 1)) t values := by
  unfold handOver
  simp only [List.zipIdx_cons', List.foldlM_cons, List.foldlM_map, Prod.map_fst, Prod.map_snd]
  rfl

/-- How unpacking ends when the cursor of `b'` is behind the values: the target has taken those
of all members, or it has taken all and there are too few bytes for the next member, or it has
refused the last one. A value that is refused has been unpacked. -/
inductive UnpackEnds (c : Composite) (set : ρ → Nat → Scalar → Except ExchangeError ρ) (target : ρ)
    (values : List Scalar) (b' : Buffer) : Except ExchangeError Unit → ρ → Prop
  | complete {t : ρ} (hall : values.length = c.members.length)
      (ht : handOver set target values = .ok t) : UnpackEnds c set target values b' (.ok ()) t
  | short {m : Member} {t : ρ} (hm : c.members[values.length]? = some m)
      (ht : handOver set target values = .ok t) (hroom : b'.ahead.length < m.kind.size) :
      UnpackEnds c set target values b' (.error (b'.overflow m.kind.size)) t
  | refused {earlier : List Scalar} {last : Scalar} {t : ρ} {e : ExchangeError}
      (hvalues : values = earlier ++ [last]) (ht : handOver set target earlier = .ok t)
      (hlast : set t earlier.length last = .error e) :
      UnpackEnds c set target values b' (.error e) t

theorem UnpackEnds.cons {name : String} {m : Member} {rest : List Member} {extent : Nat}
    {set : ρ → Nat → Scalar → Except ExchangeError ρ} {target t t' : ρ} {v : Scalar}
    {values : List Scalar} {b' : Buffer} {r : Except ExchangeError Unit}
    (hv : set target 0 v = .ok t)
    (h : UnpackEnds ⟨name, rest, extent⟩ (fun t i => set t (i + 1)) t values b' r t') :
    UnpackEnds ⟨name, m :: rest, extent⟩ set target (v :: values) b' r t' := by
  have hfirst (others : List Scalar) : handOver set target (v :: others) =
      handOver (fun t i => set t (i + 1)) t others := by
    rw [handOver_cons, hv]
    rfl
  cases h with
  | complete hall ht => exact .complete (congrArg Nat.succ hall) ((hfirst values).trans ht)
  | short hm ht hroom =>
      exact .short (c := ⟨name, m :: rest, extent⟩) hm ((hfirst values).trans ht) hroom
  | refused hvalues ht hlast =>
      exact .refused (congrArg (v :: ·) hvalues) ((hfirst _).trans ht) hlast

theorem unpack_cons (name : String) (m : Member) (rest : List Member) (extent : Nat)
    (set : ρ → Nat → Scalar → Except ExchangeError ρ) :
    unpack ⟨name, m :: rest, extent⟩ set =
      (Filling.ofTransfer (unpackScalar m.kind) >>= fun v => Filling.update (set · 0 v)) >>=
        fun _ => unpack ⟨name, rest, extent⟩ fun t i => set t (i + 1) :=
  forM_zipIdx_cons _ m rest

/-- Unpacking moves the members in front of the first that it lacks bytes for, or those up to the
first that the target refuses. The bytes stay as they are. -/
theorem on_unpack (c : Composite) (set : ρ → Nat → Scalar → Except ExchangeError ρ) (target : ρ)
    (b : Buffer) :
    ∃ values r t b', (c.unpack set).on target b = (r, t, b') ∧ c.Moves values b b' ∧
      b'.contents = b.contents ∧ c.UnpackEnds set target values b' r t := by
  obtain ⟨name, members, extent⟩ := c
  induction members generalizing set target b with
  | nil => exact ⟨[], .ok (), target, b, rfl, .nil _ b, rfl, .complete rfl rfl⟩
  | cons m rest ih =>
      rw [unpack_cons, Filling.on_bind, Filling.on_bind, Filling.on_ofTransfer]
      by_cases hroom : m.kind.size ≤ b.ahead.length
      · obtain ⟨v, hkind, hon, hcontents⟩ := exists_on_unpackScalar hroom
        have hfits : v.kind.size ≤ b.ahead.length := hkind ▸ hroom
        rw [hon]
        dsimp only
        rw [Filling.on_update]
        cases hset : set target 0 v with
        | error e =>
            -- The target is asked when the value has been stepped over.
            exact ⟨[v], .error e, target, _, rfl, (Moves.nil _ _).cons hkind hfits, hcontents,
              .refused (List.nil_append [v]).symm rfl hset⟩
        | ok t =>
            obtain ⟨values, r, t', b', hon, hmoves, hkept, hends⟩ :=
              ih (fun t i => set t (i + 1)) t (b.replace (bytesOfScalar v))
            exact ⟨v :: values, r, t', b', hon, hmoves.cons hkind hfits, hkept.trans hcontents,
              hends.cons hset⟩
      · have hshort : b.ahead.length < m.kind.size := Nat.lt_of_not_le hroom
        rw [on_unpackScalar_short hshort]
        exact ⟨[], _, target, b, rfl, .nil _ b, rfl,
          .short (c := ⟨name, m :: rest, extent⟩) rfl rfl hshort⟩

end Composite

end StellarWind
