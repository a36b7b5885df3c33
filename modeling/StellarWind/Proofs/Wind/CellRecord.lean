import StellarWind.Proofs.Except
import StellarWind.Proofs.Wire.Record
import StellarWind.Wind.Cell

/-!
# Cells on the wire

A cell travels in 280 bytes and arrives pattern for pattern, whatever the target
held before. Only its standing can change on the way: a standing without a meaning
that has the code of one with a meaning arrives as the latter.
-/

namespace StellarWind

/-! ## Standings

A standing is sent as its code, and a code that has a meaning arrives as that meaning.
-/

namespace Standing

/-- The codes that have a meaning. -/
def named : List Int32 := [0, 1, -1, -2, -999]

/-- A standing that does not hide the code of another one. -/
def IsProper : Standing → Prop
  | other code => code ∉ named
  | _ => True

instance : DecidablePred IsProper
  | all | partly | outside | ignored | unassigned => isTrue trivial
  | other code => inferInstanceAs (Decidable (code ∉ named))

theorem ofCode_code_iff (s : Standing) : ofCode s.code = s ↔ s.IsProper := by
  cases s with
  | other code =>
      simp only [IsProper, named, List.mem_cons, List.not_mem_nil, or_false, not_or]
      show ofCode code = other code ↔ _
      unfold ofCode
      repeat' split
      all_goals simp_all
  | all => exact ⟨fun _ => trivial, fun _ => rfl⟩
  | partly => exact ⟨fun _ => trivial, fun _ => rfl⟩
  | outside => exact ⟨fun _ => trivial, fun _ => rfl⟩
  | ignored => exact ⟨fun _ => trivial, fun _ => rfl⟩
  | unassigned => exact ⟨fun _ => trivial, fun _ => rfl⟩

end Standing

theorem Cone.holds_layout (c : Cone) : Cone.layout.Holds c.get := by
  intro p hp
  have h : p ∈ [(⟨"offset", .double, 0⟩, 0), (⟨"slope", .double, 8⟩, 1)] := hp
  simp only [List.mem_cons, List.not_mem_nil, or_false] at h
  rcases h with rfl | rfl <;> rfl

/-! ## Cells

What a schema does to a record follows from what its fields do. The fields of a cell cover the whole
cell, and of all conditions on their values only those on the indices are left.
-/

namespace Cell

/-- The indices of the cell fit into integers on the wire. -/
def IsIndexed (c : Cell) : Prop :=
  c.domain < Count.positive32 ∧ c.domainIndex < Count.positive32 ∧ c.tallyIndex < Count.positive32

instance : DecidablePred IsIndexed := fun _ => inferInstanceAs (Decidable (_ ∧ _ ∧ _))

/-- The cell as it arrives. -/
def arrived (c : Cell) : Cell := { c with standing := .ofCode c.standing.code }

theorem arrived_eq_self_iff (c : Cell) : c.arrived = c ↔ c.standing.IsProper := by
  rw [← Standing.ofCode_code_iff]
  constructor
  · intro h
    exact congrArg Cell.standing h
  · intro h
    rw [arrived, h]

@[simp] theorem isIndexed_arrived (c : Cell) : c.arrived.IsIndexed ↔ c.IsIndexed := Iff.rfl

theorem carries_iff (c : Cell) : schema.Carries c ↔ c.IsIndexed := by
  simp only [Schema.Carries, schema, List.forall_mem_cons, Field.Carries, vectorField, tensorField,
    Cone.holds_layout, Vec3.toList, Tensor3.toList, List.length_append, List.length_cons,
    List.length_nil, List.not_mem_nil, false_implies, implies_true, and_true, IsIndexed]

theorem copy_vectorField (name : String) (get : Cell → Vec3 Binary64)
    (set : Cell → Vec3 Binary64 → Cell) (c t : Cell) :
    (vectorField name get set).copy c t = .ok (set t (get c)) := rfl

theorem copy_tensorField (name : String) (get : Cell → Tensor3 Binary64)
    (set : Cell → Tensor3 Binary64 → Cell) (c t : Cell) :
    (tensorField name get set).copy c t = .ok (set t (get c)) := rfl

theorem copy_coneField (c t : Cell) :
    Field.copy ⟨"cone", .composite Cone.layout (·.cone.get) fun c i v => do
      return { c with cone := ← c.cone.set i v }⟩ c t = .ok { t with cone := c.cone } := rfl

/-- Every field is copied, so nothing of the target is left. -/
theorem copy_schema (c t : Cell) : schema.copy c t = .ok c.arrived := by
  -- One step per field: `rfl` has to compare records nested 22 deep and takes far longer.
  simp only [Schema.copy, schema, List.foldlM_cons, List.foldlM_nil, ok_bind, Field.copy_int,
    Field.copy_index, Field.copy_double, copy_vectorField, copy_tensorField, copy_coneField]
  rfl

theorem length_bytes {c : Cell} (h : c.IsIndexed) : (schema.bytes c).length = 280 :=
  Schema.length_bytes ((carries_iff c).mpr h)

theorem writes_pack (c : Cell) : (schema.pack c).Writes c.IsIndexed (schema.bytes c) () :=
  (schema.writes_pack c).congr (carries_iff c)

/-- A packed cell is unpacked as it arrives, over any target. -/
theorem reads_unpack {c : Cell} (h : c.IsIndexed) (t : Cell) :
    schema.unpack.Reads t (schema.bytes c) c.arrived () :=
  Schema.reads_unpack ((carries_iff c).mpr h) (copy_schema c t)

end Cell

end StellarWind
