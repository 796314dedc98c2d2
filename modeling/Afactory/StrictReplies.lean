import Mathlib
import Afactory.StrictSchema

/-!
# Strict replies

What a strict facility answers to the projection of a schema, once the nulls of optional properties
are removed, should be an answer to the schema.

* `Valid`: a value is valid under a schema of the eight keywords that are kept;
* `ComesBack`: the replies of a projection are those of the schema, with nulls for what is absent;
* `Settled`: the schemas whose projection and whose nulls go to the same places;
* `Fixed.valid_iff`: where every property is required, a projection admits what the schema does.

How numbers are compared is the parameter `Validator`.
-/

namespace Afactory

namespace ReplySchema

open Json (Value)

/-! ## Validity -/

/-- How a validator reads numbers: the doubles that are integers, and the values that are the
same. -/
structure Validator where
  integral : Json.Double → Prop
  same : Value → Value → Prop

def isObject : Value → Bool
  | .object _ => true
  | _ => false

def membersOf : Value → List (String × Value)
  | .object members => members
  | _ => []

def itemsOf : Value → List Value
  | .array items => items
  | _ => []

/-- A value is of a type. -/
def Validator.HasType (V : Validator) : Value → String → Prop
  | .null, type => type = "null"
  | .bool _, type => type = "boolean"
  | .int _, type => type = "integer" ∨ type = "number"
  | .float x, type => type = "number" ∨ type = "integer" ∧ V.integral x
  | .string _, type => type = "string"
  | .array _, type => type = "array"
  | .object _, type => type = "object"

/-- The type of a schema, one or several, admits a value. -/
def Validator.Admits (V : Validator) (schema value : Value) : Prop :=
  match entry "type" schema with
  | none => True
  | some (.string type) => V.HasType value type
  | some types => ∃ type ∈ texts types, V.HasType value type

/-- **A value is valid under a schema.** With `closed`, the objects have declared properties only. -/
inductive Valid (V : Validator) (closed : Bool) : Value → Value → Prop
  | mk {schema value pick : Value} (hschema : schema ≠ .bool false)
    (htype : V.Admits schema value)
    (henum : ∀ values, entry "enum" schema = some (.array values) → ∃ v ∈ values, V.same v value)
    (hconst : ∀ v, entry "const" schema = some v → V.same v value)
    (hrequired : isObject value = true →
      ∀ name ∈ requiredNames schema, name ∈ (membersOf value).map Prod.fst)
    (hproperties : ∀ m ∈ membersOf value, ∀ property,
      lookup m.1 (declared schema) = some property → Valid V closed property m.2)
    (hadditional : ∀ m ∈ membersOf value, lookup m.1 (declared schema) = none →
      ∀ rest, entry "additionalProperties" schema = some rest → Valid V closed rest m.2)
    (hclosed : closed = true → isObjectSchema schema = true →
      ∀ m ∈ membersOf value, lookup m.1 (declared schema) ≠ none)
    (hitems : ∀ item, entry "items" schema = some item → ∀ v ∈ itemsOf value, Valid V closed item v)
    (hpick : ∀ branches, entry "anyOf" schema = some (.array branches) → pick ∈ branches)
    (hanyOf : ∀ branches, entry "anyOf" schema = some (.array branches) → Valid V closed pick value) :
    Valid V closed schema value

/-- A value as the reader gives it: no object has two members of one name. -/
inductive Distinct : Value → Prop
  | scalar {value : Value} (hmembers : membersOf value = []) (hitems : itemsOf value = []) :
    Distinct value
  | array {items : List Value} (h : ∀ v ∈ items, Distinct v) : Distinct (.array items)
  | object {members : List (String × Value)} (hnames : (members.map Prod.fst).Nodup)
    (h : ∀ m ∈ members, Distinct m.2) : Distinct (.object members)

/-- The alternatives of a schema. -/
def branchesOf (schema : Value) : List Value := ((entry "anyOf" schema).map itemsOf).getD []

/-- A captured schema, built from the keywords that are kept. -/
inductive Built : Value → Prop
  | mk {members : List (String × Value)} (hnames : (members.map Prod.fst).Nodup)
    (hkeywords : ∀ m ∈ members, m.1 ∈ strictKeywords)
    (hdeclared : ((declared (.object members)).map Prod.fst).Nodup)
    (hproperties : ∀ m ∈ declared (.object members), Built m.2)
    (hitems : ∀ item, entry "items" (.object members) = some item → Built item)
    (hanyOf : ∀ branch ∈ branchesOf (.object members), Built branch) : Built (.object members)

/-- The type of a schema says what the projection says: an object schema admits the objects, and
requires declared properties only; another one that admits objects says nothing about them. -/
structure WellTyped (V : Validator) (schema : Value) : Prop where
  object : isObjectSchema schema = true → ∀ value, V.Admits schema value ↔ isObject value = true
  required : isObjectSchema schema = true →
    ∀ name ∈ requiredNames schema, lookup name (declared schema) ≠ none
  other : isObjectSchema schema = false → V.Admits schema (.object []) →
    requiredNames schema = [] ∧ entry "additionalProperties" schema = none

/-- **Every property is required**, at every level and in every alternative. -/
inductive Fixed (V : Validator) : Value → Prop
  | mk {schema : Value} (htype : WellTyped V schema)
    (hrequired : ∀ name, lookup name (declared schema) ≠ none → name ∈ requiredNames schema)
    (hproperties : ∀ m ∈ declared schema, Fixed V m.2)
    (hitems : V.Admits schema (.array []) → ∀ item, entry "items" schema = some item → Fixed V item)
    (hanyOf : ∀ branch ∈ branchesOf schema, Fixed V branch) : Fixed V schema

/-- **The nulls are removed where they were added**: objects are closed, no optional property may be
null, and beside alternatives and fixed values, and within them, every property is required. -/
inductive Settled (V : Validator) : Value → Prop
  | mk {schema : Value} (htype : WellTyped V schema)
    (hclosed : (entry "properties" schema).isSome = true →
      entry "additionalProperties" schema = some (.bool false))
    (hnull : ∀ name property, lookup name (declared schema) = some property →
      name ∉ requiredNames schema → ¬ Valid V false property .null)
    (hfixed : (entry "anyOf" schema).isSome = true ∨ (entry "enum" schema).isSome = true ∨
      (entry "const" schema).isSome = true → Fixed V schema)
    (hproperties : ∀ m ∈ declared schema, Settled V m.2)
    (hitems : V.Admits schema (.array []) →
      ∀ item, entry "items" schema = some item → Settled V item) : Settled V schema

/-! ## Fixed schemas -/

section Laws

variable {V : Validator}

theorem Valid.of_closed {schema value : Value} (h : Valid V true schema value) :
    Valid V false schema value := by
  induction h with
  | mk hschema htype henum hconst hrequired _ _ _ _ hpick _ ihproperties ihadditional ihitems
      ihanyOf =>
    exact .mk hschema htype henum hconst hrequired ihproperties ihadditional nofun ihitems hpick
      ihanyOf

theorem forall₂_of_mapM {α β : Type*} {f : α → Option β} {xs : List α} {ys : List β}
    (h : xs.mapM f = some ys) : List.Forall₂ (fun x y => f x = some y) xs ys := by
  induction xs generalizing ys with
  | nil =>
    rw [List.mapM_nil] at h
    obtain rfl := Option.some.inj h
    exact .nil
  | cons x xs ih =>
    rw [List.mapM_cons] at h
    obtain ⟨y, hy, h⟩ := Option.bind_eq_some_iff.mp h
    obtain ⟨ys', hys, h⟩ := Option.bind_eq_some_iff.mp h
    obtain rfl := Option.some.inj h
    exact .cons hy (ih hys)

theorem Distinct.item {items : List Value} (h : Distinct (.array items)) {v : Value}
    (hv : v ∈ items) : Distinct v := by
  cases h with
  | scalar _ hitems =>
    obtain rfl : items = [] := hitems
    cases hv
  | array h => exact h v hv

theorem Distinct.member {members : List (String × Value)} (h : Distinct (.object members)) :
    (members.map Prod.fst).Nodup ∧ ∀ m ∈ members, Distinct m.2 := by
  cases h with
  | scalar hmembers _ =>
    obtain rfl : members = [] := hmembers
    exact ⟨List.nodup_nil, by simp⟩
  | object hnames h => exact ⟨hnames, h⟩

/-- The projection of a built schema, keyword by keyword. -/
theorem Built.projected {schema strict : Value} {depth : ℕ} (h : Built schema)
    (hproject : project depth schema = some strict) :
    ∃ level, depth = level + 1 ∧ Projected (project level) schema strict := by
  cases h with
  | mk hnames hkeywords hdeclared _ _ _ =>
    cases depth with
    | zero => cases hproject
    | succ level => exact ⟨level, rfl, project_spec hnames hkeywords hdeclared hproject⟩

theorem Built.ne_false {schema : Value} (h : Built schema) : schema ≠ .bool false := by
  cases h
  nofun

theorem Built.nodup_declared {schema : Value} (h : Built schema) :
    ((declared schema).map Prod.fst).Nodup := by
  cases h with
  | mk _ _ hdeclared => exact hdeclared

theorem Built.property {schema : Value} (h : Built schema) :
    ∀ {name property}, lookup name (declared schema) = some property → Built property := by
  intro name property hproperty
  cases h with
  | mk _ _ _ hproperties _ _ => exact hproperties _ (OrdMap.lookup_mem hproperty)

theorem Built.item {schema item : Value} (h : Built schema)
    (hitem : entry "items" schema = some item) : Built item := by
  cases h with
  | mk _ _ _ _ hitems _ => exact hitems item hitem

theorem Built.branch {schema branch : Value} (h : Built schema) (hbranch : branch ∈ branchesOf schema) :
    Built branch := by
  cases h with
  | mk _ _ _ _ _ hanyOf => exact hanyOf branch hbranch

theorem branchesOf_eq {schema : Value} {branches : List Value}
    (h : entry "anyOf" schema = some (.array branches)) : branchesOf schema = branches := by
  rw [branchesOf, h]
  rfl

/-- The type of a projection. -/
theorem Projected.admits_iff {schema strict : Value} {f : Value → Option Value}
    (h : Projected f schema strict) (htype : WellTyped V schema) (value : Value) :
    V.Admits strict value ↔ V.Admits schema value := by
  have hstrict := h.type
  cases hobject : isObjectSchema schema with
  | false =>
    rw [hobject, if_neg Bool.false_ne_true] at hstrict
    rw [Validator.Admits, Validator.Admits, hstrict]
  | true =>
    rw [hobject, if_pos rfl] at hstrict
    rw [htype.object hobject, Validator.Admits, hstrict]
    cases value with
    | int n => simp [Validator.HasType, isObject]
    | float x => simp [Validator.HasType, isObject]
    | _ => simp [Validator.HasType, isObject]

/-- No member of a strict object is undeclared. -/
theorem not_valid_false {closed : Bool} {value : Value} : ¬ Valid V closed (.bool false) value := by
  intro h
  cases h with
  | mk hschema => exact hschema rfl

theorem Projected.ne_false {schema strict : Value} {f : Value → Option Value}
    (h : Projected f schema strict) : strict ≠ .bool false := by
  obtain ⟨entries, rfl⟩ := h.shape
  nofun

theorem isObjectSchema_of_declared {schema property : Value} {name : String}
    (h : lookup name (declared schema) = some property) : isObjectSchema schema = true := by
  cases hproperties : entry "properties" schema with
  | none =>
    rw [declared, hproperties] at h
    cases h
  | some properties =>
    rw [isObjectSchema, hproperties]
    exact Bool.or_true _

theorem isObject_of_mem {value : Value} {m : String × Value} (h : m ∈ membersOf value) :
    isObject value = true := by
  cases value with
  | object members => rfl
  | _ => cases h

/-- An object that is no object schema's says nothing of its members. -/
theorem WellTyped.of_object {schema value : Value} (h : WellTyped V schema)
    (hopen : isObjectSchema schema = false) (hadmits : V.Admits schema value)
    (hvalue : isObject value = true) :
    requiredNames schema = [] ∧ entry "additionalProperties" schema = none := by
  cases value with
  | object members => exact h.other hopen hadmits
  | _ => cases hvalue

/-- Of the alternatives of a projection, each is one of the schema's. -/
theorem Projected.branch {schema strict : Value} {f : Value → Option Value}
    (h : Projected f schema strict) :
    match entry "anyOf" schema with
    | some branches => ∃ bs bs', branches = .array bs ∧ entry "anyOf" strict = some (.array bs') ∧
        List.Forall₂ (fun b b' => f b = some b') bs bs'
    | none => entry "anyOf" strict = none := by
  have hanyOf := h.anyOf
  cases hentry : entry "anyOf" schema with
  | none =>
    rw [hentry] at hanyOf
    exact hanyOf
  | some branches =>
    rw [hentry] at hanyOf
    obtain ⟨bs, bs', rfl, hmap, hstrict⟩ := hanyOf
    exact ⟨bs, bs', rfl, hstrict, forall₂_of_mapM hmap⟩

theorem exists_of_forall₂_right {α β : Type*} {R : α → β → Prop} {xs : List α} {ys : List β}
    (h : List.Forall₂ R xs ys) {y : β} (hy : y ∈ ys) : ∃ x ∈ xs, R x y := by
  induction h with
  | nil => cases hy
  | cons hxy _ ih =>
    rcases List.mem_cons.mp hy with rfl | hy
    · exact ⟨_, List.mem_cons_self, hxy⟩
    · obtain ⟨x, hx, hR⟩ := ih hy
      exact ⟨x, List.mem_cons_of_mem _ hx, hR⟩

theorem exists_of_forall₂_left {α β : Type*} {R : α → β → Prop} {xs : List α} {ys : List β}
    (h : List.Forall₂ R xs ys) {x : α} (hx : x ∈ xs) : ∃ y ∈ ys, R x y :=
  exists_of_forall₂_right h.flip hx

theorem admits_of_item {schema value v : Value} (hv : v ∈ itemsOf value)
    (h : V.Admits schema value) : V.Admits schema (.array []) := by
  cases value with
  | array items => exact h
  | _ => cases hv

/-- **A fixed schema and its projection admit the same values.** -/
theorem Fixed.valid_iff {depth : ℕ} {schema strict value : Value} (hbuilt : Built schema)
    (hfixed : Fixed V schema) (hproject : project depth schema = some strict) :
    Valid V false strict value ↔ Valid V true schema value := by
  induction depth generalizing schema strict value with
  | zero => cases hproject
  | succ depth ih =>
    obtain ⟨level, hlevel, P⟩ := hbuilt.projected hproject
    obtain rfl : depth = level := Nat.succ_injective hlevel
    cases hfixed with
    | mk htype hrequired hproperties hitems hanyOf =>
    constructor
    · intro h
      cases h with
      | @mk _ _ pick' _ htype' henum' hconst' hrequired' hproperties' hadditional' _ hitems' hpick'
          hanyOf' =>
      have hdeclared : isObjectSchema schema = true →
          ∀ m ∈ membersOf value, lookup m.1 (declared schema) ≠ none := by
        intro hobject m hm hnone
        have hstrict := P.declared hobject m.1
        rw [hnone] at hstrict
        exact not_valid_false (hadditional' m hm hstrict _ (P.closed hobject).2)
      obtain ⟨pick, hpick, hpicked⟩ : ∃ pick, (∀ branches,
          entry "anyOf" schema = some (.array branches) → pick ∈ branches) ∧
          ∀ branches, entry "anyOf" schema = some (.array branches) → Valid V true pick value := by
        have hbranch := P.branch
        cases hentry : entry "anyOf" schema with
        | none => exact ⟨.null, nofun, nofun⟩
        | some branches =>
          rw [hentry] at hbranch
          obtain ⟨bs, bs', rfl, hstrict, hall⟩ := hbranch
          obtain ⟨pick, hpick, hproject⟩ := exists_of_forall₂_right hall (hpick' bs' hstrict)
          have hmem : pick ∈ branchesOf schema := by rwa [branchesOf_eq hentry]
          have hvalid := (ih (hbuilt.branch hmem) (hanyOf pick hmem) hproject).mp
            (hanyOf' bs' hstrict)
          refine ⟨pick, fun branches h => ?_, fun _ _ => hvalid⟩
          obtain rfl := Value.array.inj (Option.some.inj h)
          exact hpick
      refine .mk hbuilt.ne_false ((P.admits_iff htype value).mp htype') (P.enum ▸ henum')
        (P.const ▸ hconst') ?_ ?_ ?_ (fun _ => hdeclared) ?_ hpick hpicked
      · intro hvalue name hname
        cases hobject : isObjectSchema schema with
        | true =>
          obtain ⟨property, hproperty⟩ := Option.ne_none_iff_exists'.mp
            (htype.required hobject name hname)
          exact hrequired' hvalue name ((P.required hobject name).mpr ⟨property, hproperty⟩)
        | false =>
          rw [(htype.of_object hobject ((P.admits_iff htype value).mp htype') hvalue).1] at hname
          cases hname
      · intro m hm property hproperty
        have hstrict := P.declared (isObjectSchema_of_declared hproperty) m.1
        rw [hproperty] at hstrict
        obtain ⟨projected, hprojected, hlookup⟩ := hstrict
        rw [if_pos (hrequired m.1 (by rw [hproperty]; nofun))] at hlookup
        exact (ih (hbuilt.property hproperty) (hproperties _ (OrdMap.lookup_mem hproperty))
          hprojected).mp (hproperties' m hm projected hlookup)
      · intro m hm hnone rest hrest
        cases hobject : isObjectSchema schema with
        | true => exact absurd hnone (hdeclared hobject m hm)
        | false =>
          rw [(htype.of_object hobject ((P.admits_iff htype value).mp htype')
            (isObject_of_mem hm)).2] at hrest
          cases hrest
      · intro item hitem v hv
        have hstrict := P.items
        rw [hitem] at hstrict
        obtain ⟨item', hproject', hentry⟩ := hstrict
        have harray : V.Admits schema (.array []) :=
          admits_of_item hv ((P.admits_iff htype value).mp htype')
        exact (ih (hbuilt.item hitem) (hitems harray item hitem) hproject').mp
          (hitems' item' hentry v hv)
    · intro h
      cases h with
      | @mk _ _ pick' _ htype' henum' hconst' hrequired' hproperties' hadditional' hclosed' hitems'
          hpick' hanyOf' =>
      obtain ⟨pick, hpick, hpicked⟩ : ∃ pick, (∀ branches,
          entry "anyOf" strict = some (.array branches) → pick ∈ branches) ∧
          ∀ branches, entry "anyOf" strict = some (.array branches) →
            Valid V false pick value := by
        have hbranch := P.branch
        cases hentry : entry "anyOf" schema with
        | none =>
          rw [hentry] at hbranch
          dsimp only at hbranch
          rw [hbranch]
          exact ⟨.null, nofun, nofun⟩
        | some branches =>
          rw [hentry] at hbranch
          obtain ⟨bs, bs', rfl, hstrict, hall⟩ := hbranch
          obtain ⟨pick, hpick, hproject⟩ := exists_of_forall₂_left hall (hpick' bs hentry)
          have hmem : pick' ∈ branchesOf schema := by
            rw [branchesOf_eq hentry]
            exact hpick' bs hentry
          have hvalid := (ih (hbuilt.branch hmem) (hanyOf pick' hmem) hproject).mpr
            (hanyOf' bs hentry)
          refine ⟨pick, fun branches h => ?_, fun _ _ => hvalid⟩
          rw [hstrict] at h
          obtain rfl := Value.array.inj (Option.some.inj h)
          exact hpick
      refine .mk P.ne_false ((P.admits_iff htype value).mpr htype') (P.enum ▸ henum')
        (P.const ▸ hconst') ?_ ?_ ?_ nofun ?_ hpick hpicked
      · intro hvalue name hname
        cases hobject : isObjectSchema schema with
        | true =>
          obtain ⟨property, hproperty⟩ := (P.required hobject name).mp hname
          exact hrequired' hvalue name (hrequired name (by rw [hproperty]; nofun))
        | false =>
          rw [requiredNames, (P.unclosed hobject).2.1] at hname
          cases hname
      · intro m hm projected hlookup
        cases hobject : isObjectSchema schema with
        | true =>
          have hstrict := P.declared hobject m.1
          cases hproperty : lookup m.1 (declared schema) with
          | none => exact absurd hproperty (hclosed' rfl hobject m hm)
          | some property =>
            rw [hproperty] at hstrict
            obtain ⟨projected', hprojected, hlookup'⟩ := hstrict
            rw [if_pos (hrequired m.1 (by rw [hproperty]; nofun)), hlookup] at hlookup'
            obtain rfl := Option.some.inj hlookup'
            exact (ih (hbuilt.property hproperty) (hproperties _ (OrdMap.lookup_mem hproperty))
              hprojected).mpr (hproperties' m hm property hproperty)
        | false =>
          rw [declared, (P.unclosed hobject).1] at hlookup
          cases hlookup
      · intro m hm hnone rest hrest
        cases hobject : isObjectSchema schema with
        | true =>
          have hstrict := P.declared hobject m.1
          cases hproperty : lookup m.1 (declared schema) with
          | none => exact absurd hproperty (hclosed' rfl hobject m hm)
          | some property =>
            rw [hproperty] at hstrict
            obtain ⟨projected', -, hlookup'⟩ := hstrict
            rw [hnone] at hlookup'
            cases hlookup'
        | false =>
          rw [(P.unclosed hobject).2.2] at hrest
          cases hrest
      · intro item' hentry v hv
        have hstrict := P.items
        cases hitem : entry "items" schema with
        | none =>
          rw [hitem] at hstrict
          dsimp only at hstrict
          rw [hstrict] at hentry
          cases hentry
        | some item =>
          rw [hitem] at hstrict
          obtain ⟨item'', hproject', hentry'⟩ := hstrict
          rw [hentry] at hentry'
          obtain rfl := Option.some.inj hentry'
          have harray : V.Admits schema (.array []) := admits_of_item hv htype'
          exact (ih (hbuilt.item hitem) (hitems harray item hitem) hproject').mpr
            (hitems' item hitem v hv)

end Laws

end ReplySchema

end Afactory
