import StellarWind.Settings.Basic
import StellarWind.Proofs.Except
import StellarWind.Proofs.Json.Document

/-!
# Settings back from their document

Settings are written as nested records and a choice, and read by another path that
knows defaults and checks. Main statement: what `Settings.read` gives for a document
that `Settings.write` wrote is the same settings exactly when they pass their check,
their counts fit into 64 bits, and each of their doubles has a numeral that reads as
the same double again.
-/

namespace StellarWind

theorem ofJson?_system (c : CoordSystem) : ofJson? (toJson c) = some c := by
  cases c <;> rfl

theorem written_system (c : CoordSystem) : (toJson c).Written := by
  intro t ht
  obtain rfl := List.mem_singleton.mp ht
  rfl

/-! ## Meshes

The reader takes the fields one after another, so that a mesh comes back exactly when each of its
fields does. The coordinate system always does.
-/

namespace Mesh

/-- The counts of a mesh. -/
def counts (m : Mesh) : List Nat := [m.columns, m.rows]

/-- The doubles of a mesh. -/
def floats (m : Mesh) : List Float := [m.rMin, m.rMax, m.speed, m.radius, m.fudgeFraction]

theorem written (m : Mesh) : (toJson m).Written := by
  refine Json.written_record _ ?_
  simp only [List.forall_mem_cons, written_nat, written_float, written_system, true_and]
  exact List.forall_mem_nil _

theorem ofJson?_toJson (m : Mesh) :
    ofJson? (toJson m) = some m ↔
      (∀ n ∈ m.counts, n < Count.range64) ∧ ∀ x ∈ m.floats, ReadsBack x := by
  have hfields : (toJson m).fields? keys = some _ := Json.fields?_record (by decide) rfl
  show ((toJson m).fields? keys).bind _ = _ ↔ _
  rw [hfields]
  simp only [counts, floats, List.forall_mem_cons, ← ofJson?_nat, ← ofJson?_float]
  simp only [List.map, Json.defaulted, Option.bind_some, Option.bind_eq_bind,
    Option.bind_eq_some_iff, Option.pure_def, Option.some.injEq]
  constructor
  · rintro ⟨system, -, columns, hcolumns, rows, hrows, rMin, hrMin, rMax, hrMax, speed, hspeed,
      radius, hradius, fudgeFraction, hfudge, rfl⟩
    exact ⟨⟨hcolumns, hrows, List.forall_mem_nil _⟩, hrMin, hrMax, hspeed, hradius, hfudge,
      List.forall_mem_nil _⟩
  · rintro ⟨⟨hcolumns, hrows, -⟩, hrMin, hrMax, hspeed, hradius, hfudge, -⟩
    exact ⟨_, ofJson?_system _, _, hcolumns, _, hrows, _, hrMin, _, hrMax, _, hspeed, _, hradius,
      _, hfudge, rfl⟩

end Mesh

/-! ## Recipes

A recipe is a choice between two records. The name of the choice decides which keys are looked up,
and none of them has a default.
-/

namespace Spectrum.Recipe

/-- The counts of a recipe. -/
def counts : Recipe → List Nat
  | .edges _ _ => []
  | .logUniform _ _ count => [count]

/-- The doubles of a recipe. -/
def floats : Recipe → List Float
  | .edges values minFraction => minFraction :: values
  | .logUniform low high _ => [low, high]

theorem written (r : Recipe) : (toJson r).Written := by
  cases r with
  | edges values minFraction =>
      refine Json.written_choice _ (Json.written_record _ ?_)
      simp only [List.forall_mem_cons, written_float, true_and]
      exact ⟨written_list fun x _ => written_float x, List.forall_mem_nil _⟩
  | logUniform low high count =>
      refine Json.written_choice _ (Json.written_record _ ?_)
      simp only [List.forall_mem_cons, written_float, written_nat, true_and]
      exact List.forall_mem_nil _

theorem ofJson?_edges (held : Json) :
    (ofJson? (.choice "edges" held) : Option Recipe) = (held.fields? edgeKeys).bind fun
      | [values, minFraction] =>
        do return edges (← Json.required values) (← Json.required minFraction)
      | _ => none := rfl

theorem ofJson?_logUniform (held : Json) :
    (ofJson? (.choice "log_uniform" held) : Option Recipe) = (held.fields? logKeys).bind fun
      | [low, high, count] =>
        do return logUniform (← Json.required low) (← Json.required high) (← Json.required count)
      | _ => none := rfl

theorem ofJson?_toJson (r : Recipe) :
    ofJson? (toJson r) = some r ↔
      (∀ n ∈ r.counts, n < Count.range64) ∧ ∀ x ∈ r.floats, ReadsBack x := by
  cases r with
  | edges values minFraction =>
      have hfields : (Json.record edgeKeys [toJson values, toJson minFraction]).fields? edgeKeys =
        some _ := Json.fields?_record (by decide) rfl
      rw [toJson, instDocumentRecipe, ofJson?_edges, hfields]
      simp only [counts, floats, List.forall_mem_cons, ← ofJson?_float, ← ofJson?_list]
      simp only [List.map, Json.required, Option.bind_some, Option.bind_eq_bind,
        Option.bind_eq_some_iff, Option.pure_def, Option.some.injEq, edges.injEq]
      constructor
      · rintro ⟨_, hvalues, _, hleast, rfl, rfl⟩
        exact ⟨List.forall_mem_nil _, hleast, hvalues⟩
      · rintro ⟨-, hleast, hvalues⟩
        exact ⟨_, hvalues, _, hleast, rfl, rfl⟩
  | logUniform low high count =>
      have hfields : (Json.record logKeys [toJson low, toJson high, toJson count]).fields? logKeys =
        some _ := Json.fields?_record (by decide) rfl
      rw [toJson, instDocumentRecipe, ofJson?_logUniform, hfields]
      simp only [counts, floats, List.forall_mem_cons, ← ofJson?_nat, ← ofJson?_float]
      simp only [List.map, Json.required, Option.bind_some, Option.bind_eq_bind,
        Option.bind_eq_some_iff, Option.pure_def, Option.some.injEq, logUniform.injEq]
      constructor
      · rintro ⟨_, hlow, _, hhigh, _, hcount, rfl, rfl, rfl⟩
        exact ⟨⟨hcount, List.forall_mem_nil _⟩, hlow, hhigh, List.forall_mem_nil _⟩
      · rintro ⟨⟨hcount, -⟩, hlow, hhigh, -⟩
        exact ⟨_, hlow, _, hhigh, _, hcount, rfl, rfl, rfl⟩

end Spectrum.Recipe

/-! ## Settings

The counts and the doubles of settings are those of their own fields, of the mesh and of the
recipe, so that both parts of the condition are put together from the parts.
-/

namespace Settings

/-- The counts of settings. -/
def counts (s : Settings) : List Nat :=
  [s.workers, s.photonsPerCell, s.seed] ++ s.mesh.counts ++ s.recipe.counts

/-- The doubles of settings. -/
def floats (s : Settings) : List Float :=
  [s.freqMin, s.freqMax] ++ s.mesh.floats ++ s.recipe.floats

theorem written (s : Settings) : (toJson s).Written := by
  refine Json.written_record _ ?_
  simp only [List.forall_mem_cons, written_nat, written_float, s.mesh.written, s.recipe.written,
    true_and]
  exact List.forall_mem_nil _

theorem ofJson?_toJson (s : Settings) :
    ofJson? (toJson s) = some s ↔
      (∀ n ∈ s.counts, n < Count.range64) ∧ ∀ x ∈ s.floats, ReadsBack x := by
  have hfields : (toJson s).fields? keys = some _ := Json.fields?_record (by decide) rfl
  show ((toJson s).fields? keys).bind _ = _ ↔ _
  rw [hfields]
  simp only [List.map, Json.defaulted, Option.bind_some, Option.bind_eq_bind,
    Option.bind_eq_some_iff, Option.pure_def, Option.some.injEq]
  simp only [counts, floats, List.forall_mem_append, List.forall_mem_cons]
  constructor
  · rintro ⟨workers, hworkers, mesh, hmesh, recipe, hrecipe, photonsPerCell, hphotons, seed, hseed,
      freqMin, hlow, freqMax, hhigh, rfl⟩
    rw [ofJson?_nat] at hworkers hphotons hseed
    rw [ofJson?_float] at hlow hhigh
    -- The mesh and the recipe come back by their own numbers.
    obtain ⟨hmeshCounts, hmeshFloats⟩ := mesh.ofJson?_toJson.mp hmesh
    obtain ⟨hrecipeCounts, hrecipeFloats⟩ := recipe.ofJson?_toJson.mp hrecipe
    exact ⟨⟨⟨⟨hworkers, hphotons, hseed, List.forall_mem_nil _⟩, hmeshCounts⟩, hrecipeCounts⟩,
      ⟨⟨hlow, hhigh, List.forall_mem_nil _⟩, hmeshFloats⟩, hrecipeFloats⟩
  · rintro ⟨⟨⟨⟨hworkers, hphotons, hseed, -⟩, hmeshCounts⟩, hrecipeCounts⟩,
      ⟨⟨hlow, hhigh, -⟩, hmeshFloats⟩, hrecipeFloats⟩
    rw [← ofJson?_nat] at hworkers hphotons hseed
    rw [← ofJson?_float] at hlow hhigh
    exact ⟨_, hworkers, _, s.mesh.ofJson?_toJson.mpr ⟨hmeshCounts, hmeshFloats⟩,
      _, s.recipe.ofJson?_toJson.mpr ⟨hrecipeCounts, hrecipeFloats⟩, _, hphotons, _, hseed,
      _, hlow, _, hhigh, rfl⟩

theorem parse?_write (s : Settings) : Json.parse? s.write = some (toJson s) :=
  Json.parse?_render Json.Spacing.isBlank_lines s.written 0

/-- Settings come back from their document exactly when they pass their check, their counts
fit into 64 bits and their doubles come back. -/
theorem read_write_eq_ok_iff [Elementary] (s : Settings) :
    read s.write = .ok s ↔
      s.check = .ok () ∧ (∀ n ∈ s.counts, n < Count.range64) ∧ ∀ x ∈ s.floats, ReadsBack x := by
  rw [← s.ofJson?_toJson, read, parse?_write, Option.bind_some]
  cases hback : (ofJson? (toJson s) : Option Settings) with
  | none => simp
  | some t =>
      -- A check gives back the settings it was given, so that the question is whether `t` is `s`.
      show (t.check >>= fun _ => pure t) = _ ↔ _
      cases hcheck : t.check with
      | error e =>
          constructor
          · intro h
            cases h
          · rintro ⟨hok, h⟩
            obtain rfl := Option.some.inj h
            cases hcheck.symm.trans hok
      | ok u =>
          constructor
          · intro h
            obtain rfl := Except.ok.inj h
            exact ⟨hcheck, rfl⟩
          · rintro ⟨-, h⟩
            exact congrArg Except.ok (Option.some.inj h)

/-- Settings with the largest seed, and with doubles in every layout of a numeral. -/
def wide : Settings where
  workers := 3
  mesh := { Mesh.default with columns := 7, rows := 11, rMin := 2.5e-7, speed := -1.5e6 }
  recipe := .edges [1e14, 2.5e15, 7.25e16, 1e18] 0.125
  photonsPerCell := 0
  seed := 18446744073709551615
  freqMin := 0.0009765625
  freqMax := 1e22

theorem read_write_wide :
    wide.check = .ok () ∧ (∀ n ∈ wide.counts, n < Count.range64) ∧
      (∀ x ∈ wide.floats, ReadsBack x) ∧ read wide.write = .ok wide := by
  have hcheck : wide.check = .ok () := eq_ok_of_isOk (by decide +kernel)
  have hcounts : ∀ n ∈ wide.counts, n < Count.range64 := by decide
  have hfloats : ∀ x ∈ wide.floats, ReadsBack x := by decide +kernel
  exact ⟨hcheck, hcounts, hfloats, (read_write_eq_ok_iff wide).mpr ⟨hcheck, hcounts, hfloats⟩⟩

end Settings

end StellarWind
