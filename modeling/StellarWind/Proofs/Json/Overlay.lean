import StellarWind.Json.Document
import StellarWind.Proofs.Json.Reading

/-!
# Objects as overlays

An object that stands for a record gives some of its fields and says nothing about the others.
A `NamedField` is a field of a record with its name in documents. A record type reads objects as
overlays on a base (`Overlaid`) if what it reads has the given value in every field that the
object names, and the value of the base in the others. Then only the values under known names
matter: their order does not, nor does anything under other names (`Overlaid.ofJson?_congr`).
-/

namespace StellarWind

namespace Json

variable {ms ms' : List (Option String × Json)}

/-! ## Values under a name

The reader of records first looks at the keys and then looks up the names. Both are said here by
the values under each name: there is at most one for a name that is known, and if there is one it
is the value of the field.
-/

/-- The values that members have under a name, in order. -/
def valuesOf (name : String) (ms : List (Option String × Json)) : List Json :=
  (ms.filter (·.1 == some name)).map Prod.snd

/-- All keys are texts. -/
def Keyed (ms : List (Option String × Json)) : Prop := ∀ m ∈ ms, m.1.isSome

instance (ms : List (Option String × Json)) : Decidable (Keyed ms) :=
  inferInstanceAs (Decidable (∀ m ∈ ms, _))

/-- Members whose keys are texts. -/
def keyed (members : List (String × Json)) : List (Option String × Json) :=
  members.map fun m => (some m.1, m.2)

theorem exists_keyed (h : Keyed ms) : ∃ members, ms = keyed members := by
  induction ms with
  | nil => exact ⟨[], rfl⟩
  | cons m ms ih =>
      obtain ⟨k, v⟩ := m
      obtain ⟨hk, hms⟩ := List.forall_mem_cons.mp h
      obtain ⟨key, rfl⟩ := Option.isSome_iff_exists.mp hk
      obtain ⟨members, rfl⟩ := ih hms
      exact ⟨(key, v) :: members, rfl⟩

theorem members?_keyed (members : List (String × Json)) :
    members? (keyed members) = some members := by
  induction members with
  | nil => rfl
  | cons m members ih =>
      show ((members? (keyed members)).bind _) = _
      rw [ih]
      rfl

theorem members?_of_not_keyed (h : ¬ Keyed ms) : members? ms = none := by
  induction ms with
  | nil => exact absurd (List.forall_mem_nil _) h
  | cons m ms ih =>
      obtain ⟨k, v⟩ := m
      cases k with
      | none => rfl
      | some key =>
          have hms : ¬ Keyed ms := fun hms => h (List.forall_mem_cons.mpr ⟨rfl, hms⟩)
          rw [members?, ih hms]
          rfl

theorem valuesOf_keyed (name : String) (members : List (String × Json)) :
    valuesOf name (keyed members) = (members.filter (·.1 == name)).map Prod.snd := by
  simp [valuesOf, keyed, List.filter_map, Function.comp_def]

theorem lookup_eq_head? (name : String) (members : List (String × Json)) :
    members.lookup name = (valuesOf name (keyed members)).head? := by
  rw [valuesOf_keyed]
  induction members with
  | nil => rfl
  | cons m members ih =>
      rw [List.lookup_cons, List.filter_cons]
      by_cases hname : m.1 = name
      · simp [hname]
      · simp [hname, beq_false_of_ne (Ne.symm hname), ih]

/-- The fields of an object: all keys are texts, and of each name there is at most one. -/
theorem fields?_object (names : List String) (ms : List (Option String × Json)) :
    fields? names (.object ms) =
      if Keyed ms ∧ ∀ name ∈ names, (valuesOf name ms).length ≤ 1 then
        some (names.map fun name => (valuesOf name ms).head?)
      else none := by
  show (members? ms).bind _ = _
  by_cases hkeyed : Keyed ms
  · obtain ⟨members, rfl⟩ := exists_keyed hkeyed
    have hlength (name : String) :
        (members.filter (·.1 == name)).length = (valuesOf name (keyed members)).length := by
      rw [valuesOf_keyed, List.length_map]
    rw [members?_keyed]
    simp only [Option.bind_some, hlength, lookup_eq_head?, hkeyed, true_and, List.all_eq_true,
      decide_eq_true_eq]
    rfl
  · rw [members?_of_not_keyed hkeyed, if_neg fun h => hkeyed h.1]
    rfl

/-! ## Objects that agree

Two objects agree on some names if they have the same number of values under each and these are
related in order. Where related means equal, they have the same fields.
-/

/-- Objects with texts for keys that have related values under each of the given names. Other
members and the order of all do not matter. -/
structure Agree (names : List String) (R : String → Json → Json → Prop)
    (ms ms' : List (Option String × Json)) : Prop where
  keyed : Keyed ms
  keyed' : Keyed ms'
  values : ∀ name ∈ names, List.Forall₂ (R name) (valuesOf name ms) (valuesOf name ms')

theorem Agree.fields?_eq {names : List String} (h : Agree names (fun _ => Eq) ms ms') :
    fields? names (.object ms) = fields? names (.object ms') := by
  have hvalues : ∀ name ∈ names, valuesOf name ms = valuesOf name ms' := by
    intro name hname
    have hall := h.values name hname
    rwa [List.forall₂_eq_eq_eq] at hall
  have hfields : names.map (fun name => (valuesOf name ms).head?) =
      names.map fun name => (valuesOf name ms').head? :=
    List.map_congr_left fun name hname => by rw [hvalues name hname]
  have honce : (∀ name ∈ names, (valuesOf name ms).length ≤ 1) ↔
      ∀ name ∈ names, (valuesOf name ms').length ≤ 1 :=
    forall₂_congr fun name hname => by rw [hvalues name hname]
  rw [fields?_object, fields?_object, hfields]
  simp only [h.keyed, h.keyed', true_and, honce]

end Json

/-! ## Named fields

A field knows how to be taken from a record and how to be read, so that what an object says about
a field can be stated for all fields of all records alike (`NamedField.Given`).
-/

/-- A field of a record with its name in documents. -/
structure NamedField (ρ : Type) where
  name : String
  Value : Type
  get : ρ → Value
  [document : Document Value]

attribute [instance] NamedField.document

namespace NamedField

open Json (valuesOf)

variable {ρ : Type} {ms ms' : List (Option String × Json)}

/-- The object names the field at most once and gives it a value of its type. -/
def Fits (f : NamedField ρ) (ms : List (Option String × Json)) : Prop :=
  (valuesOf f.name ms).length ≤ 1 ∧ ∀ j ∈ valuesOf f.name ms, (ofJson? j : Option f.Value).isSome

/-- The record has the value in this field that the object gives, or that of the base if the
object gives none. -/
def Given (f : NamedField ρ) (ms : List (Option String × Json)) (base r : ρ) : Prop :=
  match valuesOf f.name ms with
  | [] => f.get r = f.get base
  | [j] => ofJson? j = some (f.get r)
  | _ => False

theorem given_iff (f : NamedField ρ) (ms : List (Option String × Json)) (base r : ρ) :
    f.Given ms base r ↔ (valuesOf f.name ms).length ≤ 1 ∧
      Json.defaulted (f.get base) (valuesOf f.name ms).head? = some (f.get r) := by
  unfold Given
  rcases valuesOf f.name ms with _ | ⟨j, _ | ⟨j', js⟩⟩
  · simp [Json.defaulted, eq_comm]
  · simp [Json.defaulted]
  · simp

theorem Fits.exists_value {f : NamedField ρ} (h : f.Fits ms) (base : ρ) :
    ∃ v : f.Value, Json.defaulted (f.get base) (valuesOf f.name ms).head? = some v := by
  obtain ⟨-, htype⟩ := h
  rcases hvalues : valuesOf f.name ms with _ | ⟨j, js⟩
  · exact ⟨_, rfl⟩
  · rw [hvalues] at htype
    exact Option.isSome_iff_exists.mp (htype j List.mem_cons_self)

theorem given_congr {f : NamedField ρ} {R : Json → Json → Prop}
    (hR : ∀ j j', R j j' → (ofJson? j : Option f.Value) = ofJson? j')
    (h : List.Forall₂ R (valuesOf f.name ms) (valuesOf f.name ms')) (base r : ρ) :
    f.Given ms base r ↔ f.Given ms' base r := by
  unfold Given
  generalize valuesOf f.name ms = js at h ⊢
  generalize valuesOf f.name ms' = js' at h ⊢
  rcases h with _ | ⟨hj, _ | _⟩
  · rfl
  · simp only [hR _ _ hj]
  · rfl

end NamedField

/-! ## Overlays on a base

That a record type reads overlays is proved once for each type, from how it reads the list of its
optional fields (`Overlaid.of_fields?`). Everything else follows for all types together.
-/

/-- A record type reads objects as overlays on a base, and has a record for all fields that an
object can give. -/
structure Overlaid {ρ : Type} [Document ρ] (fields : List (NamedField ρ)) (base : ρ) : Prop where
  ofJson?_object : ∀ ms r, ofJson? (.object ms) = some r ↔
    Json.Keyed ms ∧ ∀ f ∈ fields, f.Given ms base r
  exists_given : ∀ ms, (∀ f ∈ fields, f.Fits ms) → ∃ r, ∀ f ∈ fields, f.Given ms base r

namespace Overlaid

variable {ρ : Type} [Document ρ] {fields : List (NamedField ρ)} {base : ρ}
  {ms ms' : List (Option String × Json)}

/-- A record that is made of its fields one by one, each with a default. -/
theorem of_fields? {names : List String} (hnames : names = fields.map NamedField.name)
    {make : List (Option Json) → Option ρ}
    (hobject : ∀ ms, ofJson? (.object ms) = ((Json.object ms).fields? names).bind make)
    (hmake : ∀ (field : String → Option Json) r, make (names.map field) = some r ↔
      ∀ f ∈ fields, Json.defaulted (f.get base) (field f.name) = some (f.get r))
    (hexists : ∀ field : String → Option Json,
      (∀ f ∈ fields, ∃ v, Json.defaulted (f.get base) (field f.name) = some v) →
        ∃ r, make (names.map field) = some r) : Overlaid fields base where
  ofJson?_object ms r := by
    have honce : (∀ name ∈ names, (Json.valuesOf name ms).length ≤ 1) ↔
        ∀ f ∈ fields, (Json.valuesOf f.name ms).length ≤ 1 := by
      rw [hnames, List.forall_mem_map]
    simp only [NamedField.given_iff, forall₂_and, ← honce,
      ← hmake fun name => (Json.valuesOf name ms).head?]
    -- Both sides ask for keys, for no name twice, and for a record made of the first values.
    rw [hobject, Json.fields?_object]
    split
    · next h => exact ⟨fun hr => ⟨h.1, h.2, hr⟩, fun hr => hr.2.2⟩
    · next h =>
        refine iff_of_false (by simp) ?_
        rintro ⟨hkeyed, hnames, -⟩
        exact h ⟨hkeyed, hnames⟩
  exists_given ms hfits := by
    obtain ⟨r, hr⟩ := hexists (fun name => (Json.valuesOf name ms).head?) fun f hf =>
      (hfits f hf).exists_value base
    refine ⟨r, fun f hf => ?_⟩
    rw [NamedField.given_iff]
    exact ⟨(hfits f hf).1, (hmake _ r).mp hr f hf⟩

/-- An object with texts for keys and fitting values under the known ones is read as the one
record that it gives. -/
theorem exists_unique (h : Overlaid fields base) (hkeyed : Json.Keyed ms)
    (hfits : ∀ f ∈ fields, f.Fits ms) :
    ∃ r, ofJson? (.object ms) = some r ∧ ∀ r', (∀ f ∈ fields, f.Given ms base r') ↔ r' = r := by
  obtain ⟨r, hr⟩ := h.exists_given ms hfits
  have hread := (h.ofJson?_object ms r).mpr ⟨hkeyed, hr⟩
  refine ⟨r, hread, fun r' => ⟨fun hr' => ?_, fun heq => heq ▸ hr⟩⟩
  have hread' := (h.ofJson?_object ms r').mpr ⟨hkeyed, hr'⟩
  exact Option.some.inj (hread'.symm.trans hread)

theorem ofJson?_congr (h : Overlaid fields base) {names : List String}
    {R : String → Json → Json → Prop} (hsame : Json.Agree names R ms ms')
    (hR : ∀ f ∈ fields, f.name ∈ names ∧
      ∀ j j', R f.name j j' → (ofJson? j : Option f.Value) = ofJson? j') :
    (ofJson? (.object ms) : Option ρ) = ofJson? (.object ms') := by
  -- Both objects are read as the same records, and so as the same result.
  apply Option.ext
  intro r
  rw [h.ofJson?_object, h.ofJson?_object]
  refine and_congr (iff_of_true hsame.keyed hsame.keyed') (forall₂_congr fun f hf => ?_)
  obtain ⟨hname, hvalue⟩ := hR f hf
  exact NamedField.given_congr hvalue (hsame.values f.name hname) base r

end Overlaid

end StellarWind
