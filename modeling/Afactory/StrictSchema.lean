import Mathlib
import Afactory.Json
import Afactory.OrdMap

/-!
# Strict schemas

`review-runner/src/task/reply_schema.rs`: the schema a strict facility takes for a captured payload
schema, and what is removed from its replies.

* `project`: every object closed, and every property required, an optional one nullable;
* `stripOptionalNulls`: the nulls of optional properties removed;
* `project_spec`: what a projected schema has under each keyword.
-/

namespace Afactory

namespace ReplySchema

open Json (Value)

/-! ## Schemas as values -/

/-- What a JSON object has under a key. -/
def entry (key : String) : Value → Option Value
  | .object members => lookup key members
  | _ => none

/-- `STRICT_KEYWORDS` -/
def strictKeywords : List String :=
  ["type", "properties", "required", "additionalProperties", "items", "enum", "const", "anyOf"]

/-- The texts of an array. -/
def texts : Value → List String
  | .array items => items.filterMap fun
    | .string s => some s
    | _ => none
  | _ => []

/-- The names under `required`. -/
def requiredNames (schema : Value) : List String := ((entry "required" schema).map texts).getD []

/-- The properties a schema declares. -/
def declared (schema : Value) : List (String × Value) :=
  match entry "properties" schema with
  | some (.object properties) => properties
  | _ => []

/-- The `type` of an object. -/
def isObjectType : Option Value → Bool
  | some (.string type) => type = "object"
  | _ => false

/-- The `is_object` of `project`. -/
def isObjectSchema (schema : Value) : Bool :=
  isObjectType (entry "type" schema) || (entry "properties" schema).isSome

/-! ## The projection -/

/-- A property that may be null. -/
def nullable (property : Value) : Value :=
  .object [("anyOf", .array [property, .object [("type", .string "null")]])]

/-- What a keyword keeps of its value; a value without a projection is refused. -/
def keep (project : Value → Option Value) (key : String) (value : Value) : Option (Option Value) :=
  if key ∉ strictKeywords then some none
  else if key = "properties" ∨ key = "required" ∨ key = "additionalProperties" then some none
  else if key = "items" then (project value).map some
  else if key = "anyOf" then
    match value with
    | .array branches => (branches.mapM project).map fun branches => some (.array branches)
    | _ => none
  else some (some value)

/-- One keyword of a schema; `oneOf` becomes `anyOf`. -/
def projectEntry (project : Value → Option Value) (projected : OrdMap String Value)
    (keyword : String × Value) : Option (OrdMap String Value) :=
  let key := if keyword.1 = "oneOf" then "anyOf" else keyword.1
  (keep project key keyword.2).map fun
    | some value => projected.insert key value
    | none => projected

/-- A strict object is closed: an open map has no strict form. -/
def isClosed (schema : Value) : Bool :=
  match entry "additionalProperties" schema with
  | some (.bool false) => true
  | some _ => false
  | none => (entry "properties" schema).isSome

/-- One declared property: an optional one becomes nullable. -/
def projectProperty (project : Value → Option Value) (required : List String)
    (properties : OrdMap String Value) (property : String × Value) : Option (OrdMap String Value) :=
  (project property.2).map fun projected =>
    properties.insert property.1 (if property.1 ∈ required then projected else nullable projected)

/-- The properties of a strict object. -/
def projectProperties (project : Value → Option Value) (schema : Value) :
    Option (OrdMap String Value) :=
  match entry "properties" schema with
  | none => some .empty
  | some (.object properties) =>
    properties.foldlM (projectProperty project (requiredNames schema)) .empty
  | some _ => none

/-- What closes an object: its type, its properties, all of them required, and no others. -/
def closeObject (projected properties : OrdMap String Value) : OrdMap String Value :=
  (((projected.insert "type" (.string "object")).insert "required"
    (.array (properties.keys.map .string))).insert "properties"
      (.object properties.entries)).insert "additionalProperties" (.bool false)

/-- The strict object of a schema, when it is one of an object. -/
def projectObject (project : Value → Option Value) (schema : Value)
    (projected : OrdMap String Value) : Option (OrdMap String Value) :=
  if !isObjectSchema schema then some projected
  else if !isClosed schema then none
  else (projectProperties project schema).map (closeObject projected)

/-- A strict schema says what its values are. -/
def isTyped (projected : OrdMap String Value) : Bool :=
  projected.contains "type" || projected.contains "anyOf" || projected.contains "enum" ||
    projected.contains "const"

/-- `project`, with the levels that are left. -/
def project : ℕ → Value → Option Value
  | depth + 1, .object members =>
    let schema := Value.object members
    if (entry "$ref" schema).isSome || (entry "$defs" schema).isSome then none
    else do
      let projected ← members.foldlM (projectEntry (project depth)) .empty
      let projected ← projectObject (project depth) schema projected
      if isTyped projected then some (.object projected.entries) else none
  | _, _ => none

/-- The levels of a schema that `project` and `strip_optional_nulls` go down to. -/
def maxDepth : ℕ := 33

/-! ## Replies -/

@[grind =] def isNull : Value → Bool
  | .null => true
  | _ => false

/-- `strip_optional_nulls`, with the levels that are left. -/
@[grind =] def stripOptionalNulls : ℕ → Value → Value → Value
  | depth + 1, schema, .object members =>
    match entry "properties" schema with
    | some (.object properties) =>
      .object ((members.filter fun m => !isNull m.2 || m.1 ∈ requiredNames schema).map fun m =>
        (m.1, match lookup m.1 properties with
          | some property => stripOptionalNulls depth property m.2
          | none => m.2))
    | _ => .object members
  | depth + 1, schema, .array items =>
    match entry "items" schema with
    | some property => .array (items.map (stripOptionalNulls depth property))
    | none => .array items
  | _, _, value => value

/-! ## What a projection has -/

theorem lookup_eq_some_iff {members : List (String × Value)} (h : (members.map Prod.fst).Nodup)
    {key : String} {value : Value} : lookup key members = some value ↔ (key, value) ∈ members := by
  induction members with
  | nil => simp [lookup]
  | cons m members ih =>
    rw [List.map_cons, List.nodup_cons] at h
    rw [lookup, List.mem_cons]
    split_ifs with hkey
    · subst hkey
      constructor
      · intro hvalue
        obtain rfl := Option.some.inj hvalue
        exact .inl rfl
      · rintro (heq | hmem)
        · rw [← heq]
        · exact absurd (List.mem_map_of_mem hmem) h.1
    · rw [ih h.2]
      exact (or_iff_right fun heq => hkey (congrArg Prod.fst heq).symm).symm

/-- A map written entry by entry: each entry is kept as `f` keeps it, or the run is refused. -/
theorem get_foldlM_insert {f : String → Value → Option (Option Value)}
    {step : OrdMap String Value → String × Value → Option (OrdMap String Value)}
    {members : List (String × Value)} (hkeys : (members.map Prod.fst).Nodup)
    (hstep : ∀ m ∈ members, ∀ map, step map m = (f m.1 m.2).map fun
      | some value => map.insert m.1 value
      | none => map)
    {map map' : OrdMap String Value} (h : members.foldlM step map = some map') (key : String) :
    match lookup key members with
    | some value => ∃ kept, f key value = some kept ∧ map'.get key = kept.or (map.get key)
    | none => map'.get key = map.get key := by
  induction members generalizing map with
  | nil =>
    obtain rfl := Option.some.inj h
    rfl
  | cons m members ih =>
    rw [List.map_cons, List.nodup_cons] at hkeys
    rw [List.foldlM_cons] at h
    obtain ⟨next, hnext, hrest⟩ := Option.bind_eq_some_iff.mp h
    rw [hstep m List.mem_cons_self] at hnext
    obtain ⟨kept, hkept, rfl⟩ := Option.map_eq_some_iff.mp hnext
    have ih := ih hkeys.2 (fun m' hm' => hstep m' (List.mem_cons_of_mem _ hm')) hrest
    by_cases hkey : m.1 = key
    · subst hkey
      have hnone : lookup m.1 members = none := by
        rw [Option.eq_none_iff_forall_ne_some]
        intro value hvalue
        exact hkeys.1 (List.mem_map.mpr ⟨_, OrdMap.lookup_mem hvalue, rfl⟩)
      rw [hnone] at ih
      rw [lookup, if_pos rfl]
      refine ⟨kept, hkept, ih.trans ?_⟩
      cases kept with
      | none => rfl
      | some value => exact OrdMap.get_insert_self _ _ _
    · have hother : ∀ kept : Option Value, (match kept with
          | some value => map.insert m.1 value
          | none => map).get key = map.get key := by
        intro kept
        cases kept with
        | none => rfl
        | some value => exact OrdMap.get_insert_ne _ _ (Ne.symm hkey)
      rw [hother] at ih
      rw [lookup, if_neg hkey]
      exact ih

/-- **What a schema and its projection have under the keywords.** -/
structure Projected (project : Value → Option Value) (schema strict : Value) : Prop where
  shape : ∃ entries, strict = .object entries
  type : entry "type" strict =
    if isObjectSchema schema then some (.string "object") else entry "type" schema
  enum : entry "enum" strict = entry "enum" schema
  const : entry "const" strict = entry "const" schema
  items : match entry "items" schema with
    | some item => ∃ item', project item = some item' ∧ entry "items" strict = some item'
    | none => entry "items" strict = none
  anyOf : match entry "anyOf" schema with
    | some branches => ∃ branches' branches'', branches = .array branches' ∧
        branches'.mapM project = some branches'' ∧ entry "anyOf" strict = some (.array branches'')
    | none => entry "anyOf" strict = none
  closed : isObjectSchema schema = true →
    isClosed schema = true ∧ entry "additionalProperties" strict = some (.bool false)
  declared : isObjectSchema schema = true → ∀ name,
    match lookup name (declared schema) with
    | some property => ∃ projected, project property = some projected ∧
        lookup name (ReplySchema.declared strict) =
          some (if name ∈ requiredNames schema then projected else nullable projected)
    | none => lookup name (ReplySchema.declared strict) = none
  required : isObjectSchema schema = true → ∀ name,
    name ∈ requiredNames strict ↔ ∃ property, lookup name (ReplySchema.declared schema) = some property
  unclosed : isObjectSchema schema = false → entry "properties" strict = none ∧
    entry "required" strict = none ∧ entry "additionalProperties" strict = none

theorem keep_plain (project : Value → Option Value) {key : String} (value : Value)
    (h : key ∈ ["type", "enum", "const"]) : keep project key value = some (some value) := by
  rcases List.mem_cons.mp h with rfl | h
  · rfl
  · rcases List.mem_cons.mp h with rfl | h
    · rfl
    · obtain rfl := List.mem_singleton.mp h
      rfl

theorem keep_object (project : Value → Option Value) {key : String} (value : Value)
    (h : key ∈ ["properties", "required", "additionalProperties"]) :
    keep project key value = some none := by
  rcases List.mem_cons.mp h with rfl | h
  · rfl
  · rcases List.mem_cons.mp h with rfl | h
    · rfl
    · obtain rfl := List.mem_singleton.mp h
      rfl

theorem keep_items (project : Value → Option Value) (value : Value) :
    keep project "items" value = (project value).map some := rfl

theorem keep_anyOf_eq_some {project : Value → Option Value} {value : Value} {kept : Option Value}
    (h : keep project "anyOf" value = some kept) : ∃ branches branches', value = .array branches ∧
      branches.mapM project = some branches' ∧ kept = some (.array branches') := by
  cases value with
  | array branches =>
    obtain ⟨branches', hbranches, rfl⟩ := Option.map_eq_some_iff.mp h
    exact ⟨branches, branches', rfl, hbranches, rfl⟩
  | _ => cases h

section Spec

variable {depth : ℕ} {members : List (String × Value)} {projected : OrdMap String Value}

/-- What is kept of the keywords before the object is closed. -/
theorem get_projectEntry (hkeys : (members.map Prod.fst).Nodup)
    (hkeywords : ∀ m ∈ members, m.1 ∈ strictKeywords)
    (h : members.foldlM (projectEntry (project depth)) .empty = some projected) (key : String) :
    match entry key (.object members) with
    | some value => ∃ kept, keep (project depth) key value = some kept ∧ projected.get key = kept
    | none => projected.get key = none := by
  have hstep : ∀ m ∈ members, ∀ map, projectEntry (project depth) map m =
      (keep (project depth) m.1 m.2).map fun
        | some value => map.insert m.1 value
        | none => map := by
    intro m hm map
    have hne : m.1 ≠ "oneOf" := fun heq => absurd (heq ▸ hkeywords m hm) (by decide)
    rw [projectEntry, if_neg hne]
  have hget := get_foldlM_insert hkeys hstep h key
  simp only [OrdMap.get_empty, Option.or_none] at hget
  exact hget

/-- A keyword that is always kept, or never. -/
theorem get_of_keep {key : String}
    (hget : match entry key (.object members) with
      | some value => ∃ kept, keep (project depth) key value = some kept ∧ projected.get key = kept
      | none => projected.get key = none)
    {f : Value → Option Value} (hkeep : ∀ value, keep (project depth) key value = some (f value)) :
    projected.get key = (entry key (.object members)).bind f := by
  cases hentry : entry key (.object members) with
  | none =>
    rw [hentry] at hget
    exact hget
  | some value =>
    rw [hentry] at hget
    obtain ⟨kept, hkept, hvalue⟩ := hget
    rw [hkeep] at hkept
    exact hvalue.trans (Option.some.inj hkept).symm

/-- A projection of an object schema is closed, any other is what was kept. -/
theorem projectObject_eq_some {project : Value → Option Value} {schema : Value}
    {closed : OrdMap String Value} (h : projectObject project schema projected = some closed) :
    isObjectSchema schema = false ∧ closed = projected ∨
      isObjectSchema schema = true ∧ isClosed schema = true ∧ ∃ properties,
        projectProperties project schema = some properties ∧
          closed = closeObject projected properties := by
  rw [projectObject] at h
  split_ifs at h with hobject hclosed
  · obtain rfl := Option.some.inj h
    exact .inl ⟨by simpa using hobject, rfl⟩
  · obtain ⟨properties, hproperties, rfl⟩ := Option.map_eq_some_iff.mp h
    exact .inr ⟨by simpa using hobject, by simpa using hclosed, properties, hproperties, rfl⟩

theorem get_closeObject (projected properties : OrdMap String Value) (key : String) :
    (closeObject projected properties).get key =
      if key = "additionalProperties" then some (.bool false)
      else if key = "properties" then some (.object properties.entries)
      else if key = "required" then some (.array (properties.keys.map .string))
      else if key = "type" then some (.string "object")
      else projected.get key := by
  simp only [closeObject, OrdMap.get_insert]

theorem get_closeObject_ne (projected properties : OrdMap String Value) {key : String}
    (h : key ∉ ["type", "required", "properties", "additionalProperties"]) :
    (closeObject projected properties).get key = projected.get key := by
  simp only [List.mem_cons, List.not_mem_nil, or_false, not_or] at h
  rw [get_closeObject, if_neg h.2.2.2, if_neg h.2.2.1, if_neg h.2.1, if_neg h.1]

theorem texts_strings (names : List String) : texts (.array (names.map .string)) = names := by
  rw [texts, List.filterMap_map]
  exact List.filterMap_some

/-- The properties of a projection: each is projected, an optional one nullable. -/
theorem get_projectProperties {project : Value → Option Value} {schema : Value}
    (hdeclared : ((declared schema).map Prod.fst).Nodup) {properties : OrdMap String Value}
    (h : projectProperties project schema = some properties) (name : String) :
    match lookup name (declared schema) with
    | some property => ∃ projected, project property = some projected ∧ properties.get name =
        some (if name ∈ requiredNames schema then projected else nullable projected)
    | none => properties.get name = none := by
  rw [projectProperties] at h
  rw [declared] at hdeclared ⊢
  split at h
  · next hnone =>
    obtain rfl := Option.some.inj h
    rw [hnone]
    rfl
  · next ps hps =>
    rw [hps] at hdeclared ⊢
    have hget := get_foldlM_insert (f := fun name property => (project property).map fun projected =>
      some (if name ∈ requiredNames schema then projected else nullable projected)) hdeclared
      (fun m _ map => by rw [projectProperty, Option.map_map]; rfl) h name
    dsimp only at hget ⊢
    cases hproperty : lookup name ps with
    | none =>
      rw [hproperty] at hget
      exact hget
    | some property =>
      rw [hproperty] at hget
      obtain ⟨kept, hkept, hvalue⟩ := hget
      obtain ⟨projected, hprojected, rfl⟩ := Option.map_eq_some_iff.mp hkept
      exact ⟨projected, hprojected, hvalue⟩
  · cases h

end Spec

theorem project_spec {depth : ℕ} {members : List (String × Value)} {strict : Value}
    (hkeys : (members.map Prod.fst).Nodup) (hkeywords : ∀ m ∈ members, m.1 ∈ strictKeywords)
    (hdeclared : ((declared (.object members)).map Prod.fst).Nodup)
    (h : project (depth + 1) (.object members) = some strict) :
    Projected (project depth) (.object members) strict := by
  rw [project] at h
  split_ifs at h with href
  obtain ⟨projected, hfold, h⟩ := Option.bind_eq_some_iff.mp h
  obtain ⟨closed, hclosed, h⟩ := Option.bind_eq_some_iff.mp h
  split_ifs at h with htyped
  obtain rfl := Option.some.inj h
  have hget := get_projectEntry hkeys hkeywords hfold
  have hplain : ∀ key ∈ ["type", "enum", "const"],
      projected.get key = entry key (.object members) := fun key hkey =>
    (get_of_keep (hget key) fun value => keep_plain _ value hkey).trans (by simp)
  have hobject : ∀ key ∈ ["properties", "required", "additionalProperties"],
      projected.get key = none := fun key hkey =>
    (get_of_keep (hget key) fun value => keep_object _ value hkey).trans (by simp)
  -- What `items` and `anyOf` keep does not change when the object is closed.
  have hitems : match entry "items" (.object members) with
      | some item => ∃ item', project depth item = some item' ∧ projected.get "items" = some item'
      | none => projected.get "items" = none := by
    have hkept := hget "items"
    cases hentry : entry "items" (.object members) with
    | none =>
      rw [hentry] at hkept
      exact hkept
    | some item =>
      rw [hentry] at hkept
      obtain ⟨kept, hkeep, hvalue⟩ := hkept
      rw [keep_items] at hkeep
      obtain ⟨item', hitem', rfl⟩ := Option.map_eq_some_iff.mp hkeep
      exact ⟨item', hitem', hvalue⟩
  have hanyOf : match entry "anyOf" (.object members) with
      | some branches => ∃ branches' branches'', branches = .array branches' ∧
          branches'.mapM (project depth) = some branches'' ∧
            projected.get "anyOf" = some (.array branches'')
      | none => projected.get "anyOf" = none := by
    have hkept := hget "anyOf"
    cases hentry : entry "anyOf" (.object members) with
    | none =>
      rw [hentry] at hkept
      exact hkept
    | some value =>
      rw [hentry] at hkept
      obtain ⟨kept, hkeep, hvalue⟩ := hkept
      obtain ⟨branches, branches', rfl, hbranches, rfl⟩ := keep_anyOf_eq_some hkeep
      exact ⟨branches, branches', rfl, hbranches, hvalue⟩
  rcases projectObject_eq_some hclosed with ⟨hopen, rfl⟩ | ⟨hobj, hshut, properties, hproperties, rfl⟩
  · exact {
      shape := ⟨_, rfl⟩
      type := by rw [hopen]; exact hplain "type" (by decide)
      enum := hplain "enum" (by decide)
      const := hplain "const" (by decide)
      items := hitems
      anyOf := hanyOf
      closed := fun h => absurd (h.symm.trans hopen) (by decide)
      declared := fun h => absurd (h.symm.trans hopen) (by decide)
      required := fun h => absurd (h.symm.trans hopen) (by decide)
      unclosed := fun _ => ⟨hobject "properties" (by decide), hobject "required" (by decide),
        hobject "additionalProperties" (by decide)⟩ }
  · have hdeclaredStrict : ReplySchema.declared (.object (closeObject projected properties).entries) =
        properties.entries := by
      have hentry : entry "properties" (.object (closeObject projected properties).entries) =
          some (.object properties.entries) := get_closeObject projected properties "properties"
      rw [ReplySchema.declared, hentry]
    have hnames : requiredNames (.object (closeObject projected properties).entries) =
        properties.keys := by
      have hentry : entry "required" (.object (closeObject projected properties).entries) =
          some (.array (properties.keys.map .string)) :=
        get_closeObject projected properties "required"
      rw [requiredNames, hentry]
      exact texts_strings _
    have hkept : ∀ key, key ∉ ["type", "required", "properties", "additionalProperties"] →
        entry key (.object (closeObject projected properties).entries) = projected.get key :=
      fun key hkey => get_closeObject_ne projected properties hkey
    refine ⟨⟨_, rfl⟩, ?_, ?_, ?_, ?_, ?_, fun _ => ⟨hshut, get_closeObject projected properties _⟩,
      fun _ name => ?_, fun _ name => ?_, fun h => absurd (h.symm.trans hobj) (by decide)⟩
    · rw [hobj]
      exact get_closeObject projected properties "type"
    · exact (hkept "enum" (by decide)).trans (hplain "enum" (by decide))
    · exact (hkept "const" (by decide)).trans (hplain "const" (by decide))
    · rw [hkept "items" (by decide)]
      exact hitems
    · rw [hkept "anyOf" (by decide)]
      exact hanyOf
    · rw [hdeclaredStrict]
      exact get_projectProperties hdeclared hproperties name
    · rw [hnames, OrdMap.mem_keys_iff]
      have hproperty := get_projectProperties hdeclared hproperties name
      cases hname : lookup name (declared (.object members)) with
      | none =>
        rw [hname] at hproperty
        dsimp only at hproperty
        simp [hproperty]
      | some property =>
        rw [hname] at hproperty
        obtain ⟨projected, -, hvalue⟩ := hproperty
        simp [hvalue]

end ReplySchema

end Afactory
