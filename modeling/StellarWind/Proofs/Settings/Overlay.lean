import StellarWind.Proofs.Json.Overlay
import StellarWind.Proofs.Settings.Document

/-!
# Partial settings

A document of settings may name any of them, in any order, among members that nobody knows.
Main statement: it is read as an overlay on the default settings, and a mesh in it as an
overlay on the default mesh, however the document is spelled; documents that differ in blanks,
in the order of members and in unknown members have the same settings or the same error.
-/

namespace StellarWind

open Json (valuesOf Keyed Agree)

/-! ## Meshes

The names of the fields are the keys that the reader looks up, in the same order. The two sides of
the overlay are then the two directions of the same eight steps.
-/

namespace Mesh

/-- The fields of a mesh. -/
def namedFields : List (NamedField Mesh) :=
  [⟨"coord_system", CoordSystem, system⟩, ⟨"n_x", Nat, columns⟩, ⟨"n_z", Nat, rows⟩,
    ⟨"r_min", Float, rMin⟩, ⟨"r_max", Float, rMax⟩, ⟨"v0", Float, speed⟩,
    ⟨"r0", Float, radius⟩, ⟨"fudge_fraction", Float, fudgeFraction⟩]

theorem overlaid : Overlaid namedFields Mesh.default := by
  refine .of_fields? (show keys = _ from rfl) (fun _ => rfl) ?_ ?_
  · intro field m
    simp only [keys, namedFields, List.map, List.forall_mem_cons, Option.bind_eq_bind,
      Option.bind_eq_some_iff, Option.pure_def, Option.some.injEq]
    constructor
    · rintro ⟨system, hsystem, columns, hcolumns, rows, hrows, rMin, hrMin, rMax, hrMax, speed,
        hspeed, radius, hradius, fudgeFraction, hfudge, rfl⟩
      exact ⟨hsystem, hcolumns, hrows, hrMin, hrMax, hspeed, hradius, hfudge,
        List.forall_mem_nil _⟩
    · rintro ⟨hsystem, hcolumns, hrows, hrMin, hrMax, hspeed, hradius, hfudge, -⟩
      exact ⟨_, hsystem, _, hcolumns, _, hrows, _, hrMin, _, hrMax, _, hspeed, _, hradius, _,
        hfudge, rfl⟩
  · intro field h
    simp only [namedFields, List.forall_mem_cons] at h
    obtain ⟨⟨system, hsystem⟩, ⟨columns, hcolumns⟩, ⟨rows, hrows⟩, ⟨rMin, hrMin⟩, ⟨rMax, hrMax⟩,
      ⟨speed, hspeed⟩, ⟨radius, hradius⟩, ⟨fudgeFraction, hfudge⟩, -⟩ := h
    -- The record is made of the values that its fields have.
    refine ⟨⟨system, columns, rows, rMin, rMax, speed, radius, fudgeFraction⟩, ?_⟩
    simp only [keys, List.map, hsystem, hcolumns, hrows, hrMin, hrMax, hspeed, hradius, hfudge]
    rfl

/-- Documents of a mesh that differ in the order of members and in unknown members only. -/
inductive SameDocument : Json → Json → Prop
  | refl (j : Json) : SameDocument j j
  | object {ms ms' : List (Option String × Json)} (h : Agree keys (fun _ => Eq) ms ms') :
      SameDocument (.object ms) (.object ms')

theorem SameDocument.ofJson?_eq {j j' : Json} (h : SameDocument j j') :
    (ofJson? j : Option Mesh) = ofJson? j' := by
  cases h with
  | refl => rfl
  | @object ms ms' h =>
      show ((Json.object ms).fields? keys).bind _ = ((Json.object ms').fields? keys).bind _
      rw [h.fields?_eq]

end Mesh

/-! ## Recipes

Recipes have no defaults and are no overlays. Unknown members are ignored in them all the same, and
the order of the known ones does not matter.
-/

namespace Spectrum.Recipe

/-- Documents of a recipe that differ in the order of members and in unknown members only. -/
inductive SameDocument : Json → Json → Prop
  | refl (j : Json) : SameDocument j j
  | edges {ms ms' : List (Option String × Json)} (h : Agree edgeKeys (fun _ => Eq) ms ms') :
      SameDocument (.choice "edges" (.object ms)) (.choice "edges" (.object ms'))
  | logUniform {ms ms' : List (Option String × Json)} (h : Agree logKeys (fun _ => Eq) ms ms') :
      SameDocument (.choice "log_uniform" (.object ms)) (.choice "log_uniform" (.object ms'))

theorem SameDocument.ofJson?_eq {j j' : Json} (h : SameDocument j j') :
    (ofJson? j : Option Recipe) = ofJson? j' := by
  cases h with
  | refl => rfl
  | edges h => rw [ofJson?_edges, ofJson?_edges, h.fields?_eq]
  | logUniform h => rw [ofJson?_logUniform, ofJson?_logUniform, h.fields?_eq]

end Spectrum.Recipe

/-! ## Settings

Settings are an overlay, and two of their fields are documents with members of their own. What it
means for two of these to say the same is the relation of their type (`SameValue`), and equality
for all other fields.
-/

namespace Settings

/-- The settings by their names. -/
def namedFields : List (NamedField Settings) :=
  [⟨"workers", Nat, workers⟩, ⟨"layout", Mesh, mesh⟩, ⟨"bands", Spectrum.Recipe, recipe⟩,
    ⟨"photons_per_cell", Nat, photonsPerCell⟩, ⟨"seed", Nat, seed⟩,
    ⟨"freq_min", Float, freqMin⟩, ⟨"freq_max", Float, freqMax⟩]

theorem overlaid : Overlaid namedFields default := by
  refine .of_fields? (show keys = _ from rfl) (fun _ => rfl) ?_ ?_
  · intro field s
    simp only [keys, namedFields, List.map, List.forall_mem_cons, Option.bind_eq_bind,
      Option.bind_eq_some_iff, Option.pure_def, Option.some.injEq]
    constructor
    · rintro ⟨workers, hworkers, mesh, hmesh, recipe, hrecipe, photonsPerCell, hphotons, seed,
        hseed, freqMin, hlow, freqMax, hhigh, rfl⟩
      exact ⟨hworkers, hmesh, hrecipe, hphotons, hseed, hlow, hhigh, List.forall_mem_nil _⟩
    · rintro ⟨hworkers, hmesh, hrecipe, hphotons, hseed, hlow, hhigh, -⟩
      exact ⟨_, hworkers, _, hmesh, _, hrecipe, _, hphotons, _, hseed, _, hlow, _, hhigh, rfl⟩
  · intro field h
    simp only [namedFields, List.forall_mem_cons] at h
    obtain ⟨⟨workers, hworkers⟩, ⟨mesh, hmesh⟩, ⟨recipe, hrecipe⟩, ⟨photonsPerCell, hphotons⟩,
      ⟨seed, hseed⟩, ⟨freqMin, hlow⟩, ⟨freqMax, hhigh⟩, -⟩ := h
    refine ⟨⟨workers, mesh, recipe, photonsPerCell, seed, freqMin, freqMax⟩, ?_⟩
    simp only [keys, List.map, hworkers, hmesh, hrecipe, hphotons, hseed, hlow, hhigh]
    rfl

/-! ### Documents that say the same

Two documents may list their members in another order and have other members that nobody asks for.
The mesh and the recipe of the bands are compared in this way, too.
-/

/-- The same value of a setting, up to the order of members and unknown members inside. -/
def SameValue : String → Json → Json → Prop
  | "layout" => Mesh.SameDocument
  | "bands" => Spectrum.Recipe.SameDocument
  | _ => Eq

/-- Documents of settings that differ in the order of members and in unknown members only. -/
inductive SameDocument : Json → Json → Prop
  | object {ms ms' : List (Option String × Json)} (h : Agree keys SameValue ms ms') :
      SameDocument (.object ms) (.object ms')

theorem SameDocument.ofJson?_eq {j j' : Json} (h : SameDocument j j') :
    (ofJson? j : Option Settings) = ofJson? j' := by
  obtain ⟨h⟩ := h
  apply overlaid.ofJson?_congr h
  simp only [namedFields, List.forall_mem_cons]
  have heq {α : Type} [Document α] {name : String} (hname : SameValue name = Eq) (j j' : Json)
      (h : SameValue name j j') : (ofJson? j : Option α) = ofJson? j' := by
    rw [hname] at h
    rw [h]
  refine ⟨⟨by decide, heq rfl⟩, ⟨by decide, fun _ _ h => Mesh.SameDocument.ofJson?_eq h⟩,
    ⟨by decide, fun _ _ h => Spectrum.Recipe.SameDocument.ofJson?_eq h⟩, ⟨by decide, heq rfl⟩,
    ⟨by decide, heq rfl⟩, ⟨by decide, heq rfl⟩, ⟨by decide, heq rfl⟩, List.forall_mem_nil _⟩

section

variable [Elementary]

theorem read_of_parse {text : String} {s : Settings}
    (h : (Json.parse? text).bind ofJson? = some s) : read text = s.check.map fun _ => s := by
  rw [read, h]
  show (s.check >>= fun _ => .ok s) = _
  cases s.check <;> rfl

/-- Settings are an overlay on the defaults, and so are the meshes in them, however their
document is spelled and whatever else it holds. -/
theorem read_overlay :
    (∀ ms, Keyed ms → (∀ f ∈ Mesh.namedFields, f.Fits ms) →
      ∃ m, ofJson? (.object ms) = some m ∧
        ∀ r, (∀ f ∈ Mesh.namedFields, f.Given ms Mesh.default r) ↔ r = m) ∧
    (∀ ms (text : String), Token.Row (Json.object ms).tokens text.toList → Keyed ms →
      (∀ f ∈ namedFields, f.Fits ms) →
        ∃ s, (Json.parse? text).bind ofJson? = some s ∧
          (∀ r, (∀ f ∈ namedFields, f.Given ms default r) ↔ r = s) ∧
          read text = s.check.map fun _ => s) ∧
    ∀ j j' (text text' : String), Token.Row j.tokens text.toList →
      Token.Row j'.tokens text'.toList → SameDocument j j' → read text = read text' := by
  refine ⟨fun ms => Mesh.overlaid.exists_unique, ?_, ?_⟩
  · intro ms text htext hkeyed hfits
    obtain ⟨s, hs, hunique⟩ := overlaid.exists_unique hkeyed hfits
    have hparse : (Json.parse? text).bind ofJson? = some s := by
      rw [Json.parse?_of_row htext]
      exact hs
    exact ⟨s, hparse, hunique, read_of_parse hparse⟩
  · intro j j' text text' htext htext' hsame
    rw [read, read, Json.parse?_of_row htext, Json.parse?_of_row htext', Option.bind_some,
      Option.bind_some, hsame.ofJson?_eq]

end

/-- Fields of a mesh among members that nobody knows. -/
def scatteredMesh : List (Option String × Json) :=
  [(some "colour", .bool true), (some "n_x", .ofNat 3)]

/-- Settings out of order among members that nobody knows. -/
def scattered : List (Option String × Json) :=
  [(some "note", .array [.null, .text (some "seed")]), (some "seed", .ofNat 7),
    (some "layout", .object scatteredMesh), (some "note", .object []),
    (some "workers", .ofNat 2)]

/-- The same settings in order. -/
def tidy : List (Option String × Json) :=
  [(some "workers", .ofNat 2), (some "layout", .object [(some "n_x", .ofNat 3)]),
    (some "seed", .ofNat 7)]

theorem agree_scattered : Agree keys SameValue scattered tidy := by
  have hmesh : Agree Mesh.keys (fun _ => Eq) scatteredMesh [(some "n_x", .ofNat 3)] := by
    refine ⟨by decide, by decide, ?_⟩
    simp only [Mesh.keys, List.forall_mem_cons]
    exact ⟨.nil, .cons rfl .nil, .nil, .nil, .nil, .nil, .nil, .nil, List.forall_mem_nil _⟩
  refine ⟨by decide, by decide, ?_⟩
  simp only [keys, List.forall_mem_cons]
  exact ⟨.cons rfl .nil, .cons (.object hmesh) .nil, .nil, .nil, .cons rfl .nil, .nil, .nil,
    List.forall_mem_nil _⟩

theorem read_overlay_scattered :
    Keyed scatteredMesh ∧ (∀ f ∈ Mesh.namedFields, f.Fits scatteredMesh) ∧
    Keyed scattered ∧ (∀ f ∈ namedFields, f.Fits scattered) ∧
    ∃ s : Settings, s = { default with
        workers := 2, mesh := { Mesh.default with columns := 3 }, seed := 7 } ∧
      read (String.ofList (Json.render .lines 0 (.object scattered))) =
        s.check.map (fun _ => s) ∧
      read (String.ofList (Json.render .none 0 (.object tidy))) = s.check.map fun _ => s := by
  have hnat : ∀ n < 8, (ofJson? (Json.ofNat n) : Option Nat).isSome := by decide
  have hfitsMesh : ∀ f ∈ Mesh.namedFields, f.Fits scatteredMesh := by
    simp [Mesh.namedFields, NamedField.Fits, scatteredMesh, Json.valuesOf, hnat]
  have hfits : ∀ f ∈ namedFields, f.Fits scattered := by
    have hmesh : (ofJson? (.object scatteredMesh) : Option Mesh).isSome := rfl
    simp [namedFields, NamedField.Fits, scattered, Json.valuesOf, hmesh, hnat]
  -- The two documents differ in their spacing, too.
  have hscattered : Token.Row (Json.object scattered).tokens
      (String.ofList (Json.render .lines 0 (.object scattered))).toList := by
    rw [String.toList_ofList]
    apply Json.row_render Json.Spacing.isBlank_lines
    simp [scattered, scatteredMesh, Json.tokens, Json.itemTokens, Json.memberTokens, Json.ofNat,
      Token.Written, Numeral.written_ofNat]
  have htidy : Token.Row (Json.object tidy).tokens
      (String.ofList (Json.render .none 0 (.object tidy))).toList := by
    rw [String.toList_ofList]
    apply Json.row_render ⟨fun _ => List.forall_mem_nil _, fun _ => List.forall_mem_nil _,
      List.forall_mem_nil _⟩
    simp [tidy, Json.tokens, Json.memberTokens, Json.ofNat, Token.Written, Numeral.written_ofNat]
  obtain ⟨hmesh, hread, hsame⟩ := read_overlay
  obtain ⟨m, hm, hunique⟩ := hmesh scatteredMesh (by decide) hfitsMesh
  obtain ⟨s, -, hs, htext⟩ := hread _ _ hscattered (by decide) hfits
  have hcolumns : { Mesh.default with columns := 3 } = m := by
    apply (hunique _).mp
    simp only [Mesh.namedFields, List.forall_mem_cons]
    exact ⟨rfl, rfl, rfl, rfl, rfl, rfl, rfl, rfl, List.forall_mem_nil _⟩
  refine ⟨by decide, hfitsMesh, by decide, hfits, s, ?_, htext,
    (hsame _ _ _ _ hscattered htidy (.object agree_scattered)).symm.trans htext⟩
  symm
  apply (hs _).mp
  simp only [namedFields, List.forall_mem_cons]
  exact ⟨rfl, hcolumns ▸ hm, rfl, rfl, rfl, rfl, rfl, List.forall_mem_nil _⟩

/-- A key that nobody knows has to be a text all the same: half a surrogate pair in one makes
the document malformed. -/
theorem read_half_pair_key :
    ∃ ms, Token.Row (Json.object ms).tokens "\x7b\"workers\":2,\"\\ud800\":1\x7d".toList ∧
      (∀ f ∈ namedFields, f.Fits ms) ∧ ¬ Keyed ms ∧
      read "\x7b\"workers\":2,\"\\ud800\":1\x7d" = .error (.error .malformed) := by
  have hrow : Token.Row (Json.object [(some "workers", .ofNat 2), (none, .ofNat 1)]).tokens
      "\x7b\"workers\":2,\"\\ud800\":1\x7d".toList := by
    -- The text is put together from its end, token by token.
    have hvalue : Token.Row [.colon, .number (.ofNat 1), .closeBrace] [':', '1', '\x7d'] :=
      .cons_chars trivial trivial <|
        .cons_chars (Numeral.written_ofNat 1) (Token.breaks_cons (by decide) _) <|
          Token.row_singleton trivial
    have hkey : Token.Spelled (.text none) ['"', '\\', 'u', 'd', '8', '0', '0', '"'] :=
      ⟨[.unit 0xd800], [_], rfl, .cons (.hex rfl) .nil, rfl⟩
    have hmember := Token.Row.cons (List.forall_mem_nil _) hkey trivial hvalue rfl
    have hcount : Token.Row _ (_ ++ (',' :: _)) :=
      .cons_chars (t := .number (.ofNat 2)) (Numeral.written_ofNat 2)
        (Token.breaks_cons (by decide) _) (.cons_chars (t := .comma) trivial trivial hmember)
    exact .cons_chars (t := .openBrace) trivial trivial <|
      .cons_chars (t := .text (some "workers")) rfl trivial <|
        .cons_chars (t := .colon) trivial trivial hcount
  refine ⟨_, hrow, ?_, by decide, ?_⟩
  · have hworkers : (ofJson? (Json.ofNat 2) : Option Nat).isSome := rfl
    simp [namedFields, NamedField.Fits, Json.valuesOf, hworkers]
  · rw [read, Json.parse?_of_row hrow]
    rfl

end Settings

end StellarWind
