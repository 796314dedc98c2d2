import Mathlib
import Afactory.StrictReplies

/-!
# Settled schemas

The replies of a strict facility come back to the schema where the nulls that `project` has written
are those that `strip_optional_nulls` removes.

* `strip_object`, `strip_open`: what is left of a value;
* `payload_object`, `reply_object`: a payload object and its strict replies;
* `comesBack_of_settled`: the replies of a settled schema come back;
* `choice_keeps_null`: a null within an alternative does not.
-/

namespace Afactory

namespace ReplySchema

open Json (Value)

section Laws

variable {V : Validator}

/-! ## What is removed -/

/-- What is left of a member. -/
def stripMember (depth : ℕ) (schema : Value) (m : String × Value) : String × Value :=
  (m.1, match lookup m.1 (declared schema) with
    | some property => stripOptionalNulls depth property m.2
    | none => m.2)

/-- A member that is left. -/
def keepsMember (schema : Value) (m : String × Value) : Bool :=
  !isNull m.2 || m.1 ∈ requiredNames schema

theorem stripMember_of_declared {depth : ℕ} {schema property : Value} {m : String × Value}
    (h : lookup m.1 (declared schema) = some property) :
    stripMember depth schema m = (m.1, stripOptionalNulls depth property m.2) := by
  rw [stripMember, h]

theorem strip_object {depth : ℕ} {schema : Value} {members : List (String × Value)}
    (h : ∀ m ∈ members, lookup m.1 (declared schema) ≠ none) :
    stripOptionalNulls (depth + 1) schema (.object members) =
      .object ((members.filter (keepsMember schema)).map (stripMember depth schema)) := by
  rw [stripOptionalNulls]
  split
  · next properties hproperties =>
    have hdeclared : declared schema = properties := by rw [declared, hproperties]
    have hmember : stripMember depth schema = fun m =>
        (m.1, match lookup m.1 properties with
          | some property => stripOptionalNulls depth property m.2
          | none => m.2) := by
      funext m
      rw [stripMember, hdeclared]
    rw [hmember]
    rfl
  · next hproperties =>
    have hdeclared : declared schema = [] := by
      rw [declared]
      split
      · next properties heq => exact absurd heq (hproperties properties)
      · rfl
    cases members with
    | nil => rfl
    | cons m members =>
      refine absurd ?_ (h m List.mem_cons_self)
      rw [hdeclared]
      rfl

theorem strip_items {depth : ℕ} {schema item : Value} (items : List Value)
    (h : entry "items" schema = some item) : stripOptionalNulls (depth + 1) schema (.array items) =
      .array (items.map (stripOptionalNulls depth item)) := by
  rw [stripOptionalNulls, h]

/-- Where no object is one of the schema's, only items are gone through. -/
theorem strip_open {depth : ℕ} {schema value : Value} (hopen : isObjectSchema schema = false)
    (h : entry "items" schema = none ∨ itemsOf value = []) :
    stripOptionalNulls (depth + 1) schema value = value := by
  have hproperties : entry "properties" schema = none := by
    rw [isObjectSchema, Bool.or_eq_false_iff] at hopen
    simpa using hopen.2
  cases value with
  | object members =>
    rw [stripOptionalNulls, hproperties]
  | array items =>
    rw [stripOptionalNulls]
    cases hitem : entry "items" schema with
    | none => rfl
    | some item =>
      rw [hitem] at h
      obtain rfl : items = [] := h.resolve_left (Option.some_ne_none item)
      rfl
  | _ => rfl

theorem strip_null (depth : ℕ) (schema : Value) : stripOptionalNulls depth schema .null = .null := by
  cases depth with
  | zero => rfl
  | succ depth => rfl

theorem isNull_iff {value : Value} : isNull value = true ↔ value = .null := by
  cases value with
  | null => exact iff_of_true rfl rfl
  | _ => exact iff_of_false Bool.false_ne_true nofun

/-- **Nothing is removed from a payload.** -/
theorem Settled.kept {depth : ℕ} {schema value : Value} (hsettled : Settled V schema)
    (hvalid : Valid V false schema value) : stripOptionalNulls depth schema value = value := by
  induction depth generalizing schema value with
  | zero => cases value with | _ => rfl
  | succ depth ih =>
    cases hsettled with
    | mk htype hclosed hnull hfixed hproperties hitems =>
    cases hvalid with
    | mk hschema hadmits henum hconst hrequired hfields hadditional _ hvalues hpick hanyOf =>
    cases value with
    | object members =>
      cases hentry : entry "properties" schema with
      | none =>
        rw [stripOptionalNulls, hentry]
      | some properties =>
        have hshut := hclosed (by rw [hentry]; rfl)
        have hdeclared : ∀ m ∈ members, lookup m.1 (declared schema) ≠ none := fun m hm hnone =>
          not_valid_false (hadditional m hm hnone _ hshut)
        have hkeeps : members.filter (keepsMember schema) = members := by
          refine List.filter_eq_self.mpr fun m hm => ?_
          obtain ⟨property, hproperty⟩ := Option.ne_none_iff_exists'.mp (hdeclared m hm)
          by_contra hdrop
          simp only [keepsMember, Bool.or_eq_true, Bool.not_eq_true', decide_eq_true_eq, not_or,
            Bool.not_eq_false] at hdrop
          have hfield := hfields m hm property hproperty
          rw [isNull_iff.mp hdrop.1] at hfield
          exact hnull m.1 property hproperty hdrop.2 hfield
        have hmap : members.map (stripMember depth schema) = members := by
          refine (List.map_congr_left fun m hm => ?_).trans (List.map_id members)
          obtain ⟨property, hproperty⟩ := Option.ne_none_iff_exists'.mp (hdeclared m hm)
          rw [stripMember_of_declared hproperty]
          exact Prod.ext rfl (ih (hproperties _ (OrdMap.lookup_mem hproperty))
            (hfields m hm property hproperty))
        rw [strip_object hdeclared, hkeeps, hmap]
    | array items =>
      rw [stripOptionalNulls]
      cases hitem : entry "items" schema with
      | none => rfl
      | some item =>
        refine congrArg Value.array ?_
        refine (List.map_congr_left fun v hv => ?_).trans (List.map_id items)
        exact ih (hitems hadmits item hitem) (hvalues item hitem v hv)
    | _ => rfl

/-- A nullable property is the property, or null. -/
theorem valid_nullable {property value : Value} :
    Valid V false (nullable property) value ↔ Valid V false property value ∨ value = .null := by
  have hanyOf : entry "anyOf" (nullable property) =
      some (.array [property, .object [("type", .string "null")]]) := rfl
  constructor
  · intro h
    cases h with
    | @mk _ _ pick _ _ _ _ _ _ _ _ _ hpick hpicked =>
      have hmem := hpick _ hanyOf
      have hvalid := hpicked _ hanyOf
      rcases List.mem_cons.mp hmem with rfl | hmem
      · exact .inl hvalid
      · obtain rfl := List.mem_singleton.mp hmem
        cases hvalid with
        | mk _ hadmits _ _ _ _ _ _ _ _ _ =>
          refine .inr ?_
          have hadmits : V.HasType value "null" := hadmits
          cases value with
          | null => rfl
          | int n => simp [Validator.HasType] at hadmits
          | float x => simp [Validator.HasType] at hadmits
          | _ => simp [Validator.HasType] at hadmits
  · have hpicked : ∀ pick ∈ [property, .object [("type", .string "null")]],
        Valid V false pick value → Valid V false (nullable property) value := by
      intro pick hmem hvalid
      refine .mk (fun h => ?_) trivial (fun _ h => ?_) (fun _ h => ?_) (fun _ _ h => ?_)
        (fun _ _ _ h => ?_) (fun _ _ _ _ h => ?_) (fun h => ?_) (fun _ h => ?_)
        (fun branches h => ?_) (fun _ _ => hvalid)
      iterate 8 cases h
      · obtain rfl := Value.array.inj (Option.some.inj (hanyOf.symm.trans h))
        exact hmem
    rintro (hvalid | rfl)
    · exact hpicked property List.mem_cons_self hvalid
    · refine hpicked _ (List.mem_cons_of_mem _ (List.mem_singleton_self _)) ?_
      refine @Valid.mk V false _ _ .null (fun h => ?_) rfl (fun _ h => ?_) (fun _ h => ?_)
        (fun h => ?_) (fun _ h => ?_) (fun _ h => ?_) (fun h => ?_) (fun _ h => ?_) (fun _ h => ?_)
        (fun _ h => ?_)
      iterate 10 cases h

/-! ## Settled schemas -/

/-- Nothing fixes or forks the values of a schema. -/
def Plain (schema : Value) : Prop :=
  entry "anyOf" schema = none ∧ entry "enum" schema = none ∧ entry "const" schema = none

theorem declared_of_open {schema : Value} (h : isObjectSchema schema = false) :
    declared schema = [] := by
  rw [isObjectSchema, Bool.or_eq_false_iff, Option.isSome_eq_false_iff, Option.isNone_iff_eq_none] at h
  rw [declared, h.2]

/-- A plain schema that closes no object asks for a type, and for its items. -/
theorem valid_of_items {closed : Bool} {schema value : Value} (hschema : schema ≠ .bool false)
    (hplain : Plain schema) (hopen : isObjectSchema schema = false) (hadmits : V.Admits schema value)
    (hobject : isObject value = true →
      requiredNames schema = [] ∧ entry "additionalProperties" schema = none)
    (hitems : ∀ item, entry "items" schema = some item → ∀ v ∈ itemsOf value, Valid V closed item v) :
    Valid V closed schema value := by
  obtain ⟨hanyOf, henum, hconst⟩ := hplain
  refine @Valid.mk V closed _ _ .null hschema hadmits ?_ ?_ ?_ ?_ ?_ ?_ hitems ?_ ?_
  · rw [henum]
    nofun
  · rw [hconst]
    nofun
  · intro hvalue name hname
    rw [(hobject hvalue).1] at hname
    cases hname
  · intro m _ property hproperty
    rw [declared_of_open hopen] at hproperty
    cases hproperty
  · intro m hm _ rest hrest
    rw [(hobject (isObject_of_mem hm)).2] at hrest
    cases hrest
  · intro _ h
    exact absurd (h.symm.trans hopen) (by decide)
  · rw [hanyOf]
    nofun
  · rw [hanyOf]
    nofun

/-- The projection of a plain schema that closes no object is one. -/
theorem Projected.plain {schema strict : Value} {f : Value → Option Value}
    (P : Projected f schema strict) (hplain : Plain schema) : Plain strict := by
  have hanyOf := P.anyOf
  rw [hplain.1] at hanyOf
  exact ⟨hanyOf, P.enum.trans hplain.2.1, P.const.trans hplain.2.2⟩

theorem Projected.not_object {schema strict : Value} {f : Value → Option Value}
    (P : Projected f schema strict) (hopen : isObjectSchema schema = false) :
    isObjectSchema strict = false := by
  have htype := P.type
  rw [hopen, if_neg Bool.false_ne_true] at htype
  rw [isObjectSchema, Bool.or_eq_false_iff] at hopen
  rw [isObjectSchema, htype, hopen.1, (P.unclosed _).1]
  · rfl
  · rw [isObjectSchema, Bool.or_eq_false_iff]
    exact hopen

theorem Valid.admits {closed : Bool} {schema value : Value} (h : Valid V closed schema value) :
    V.Admits schema value := by
  cases h with
  | mk _ hadmits => exact hadmits

theorem exists_members {value : Value} (h : isObject value = true) :
    ∃ members, value = .object members := by
  cases value with
  | object members => exact ⟨members, rfl⟩
  | _ => cases h

theorem Settled.wellTyped {schema : Value} (h : Settled V schema) : WellTyped V schema := by
  cases h with
  | mk htype => exact htype

theorem Settled.fixed {schema : Value} (h : Settled V schema) (hplain : ¬ Plain schema) :
    Fixed V schema := by
  cases h with
  | mk _ _ _ hfixed _ _ =>
    refine hfixed ?_
    rw [Plain, not_and_or, not_and_or] at hplain
    simpa only [Option.isSome_iff_ne_none] using hplain

/-- What one level of a settled schema needs of the levels below. -/
structure Below (V : Validator) (depth : ℕ) : Prop where
  reply : ∀ {schema strict payload : Value}, Built schema → Settled V schema →
    project depth schema = some strict → Distinct payload → Valid V true schema payload →
    ∃ reply, Distinct reply ∧ Valid V false strict reply ∧
      stripOptionalNulls depth schema reply = payload
  payload : ∀ {schema strict reply : Value}, Built schema → Settled V schema →
    project depth schema = some strict → Valid V false strict reply →
    Valid V true schema (stripOptionalNulls depth schema reply)

section Plain

variable {depth : ℕ} {schema strict : Value} (hbuilt : Built schema) (hsettled : Settled V schema)
  (hplain : Plain schema) (P : Projected (project depth) schema strict) (hbelow : Below V depth)

include hbuilt hsettled hplain P hbelow

/-- **A strict object comes back as an object.** -/
theorem payload_object (hobject : isObjectSchema schema = true) {members : List (String × Value)}
    (hvalid : Valid V false strict (.object members)) :
    Valid V true schema (stripOptionalNulls (depth + 1) schema (.object members)) := by
  cases hsettled with
  | mk htype hclosed hnull hfixed hproperties hitems =>
  cases hvalid with
  | mk hschema hadmits _ _ hrequired hfields hadditional _ _ _ _ =>
  have hdeclared : ∀ m ∈ members, lookup m.1 (declared schema) ≠ none := by
    intro m hm hnone
    have hstrict := P.declared hobject m.1
    rw [hnone] at hstrict
    exact not_valid_false (hadditional m hm hstrict _ (P.closed hobject).2)
  rw [strip_object hdeclared]
  obtain ⟨hanyOf, henum, hconst⟩ := hplain
  refine @Valid.mk V true _ _ .null hbuilt.ne_false ((htype.object hobject _).mpr rfl) ?_ ?_ ?_ ?_ ?_
    ?_ (fun _ _ _ h => absurd h List.not_mem_nil) ?_ ?_
  · rw [henum]
    nofun
  · rw [hconst]
    nofun
  · intro _ name hname
    obtain ⟨property, hproperty⟩ := Option.ne_none_iff_exists'.mp
      (htype.required hobject name hname)
    obtain ⟨m, hm, rfl⟩ := List.mem_map.mp
      (hrequired rfl name ((P.required hobject name).mpr ⟨property, hproperty⟩))
    have hkept : keepsMember schema m = true := by simp [keepsMember, hname]
    exact List.mem_map.mpr ⟨_, List.mem_map_of_mem (List.mem_filter.mpr ⟨hm, hkept⟩), rfl⟩
  · intro m' hm' property hproperty
    obtain ⟨m, hm, rfl⟩ := List.mem_map.mp hm'
    obtain ⟨hm, hkept⟩ := List.mem_filter.mp hm
    have hproperty : lookup m.1 (declared schema) = some property := hproperty
    have hstrict := P.declared hobject m.1
    rw [hproperty] at hstrict
    obtain ⟨projected, hprojected, hlookup⟩ := hstrict
    have hfield := hfields m hm _ hlookup
    have hnext : Valid V false projected m.2 := by
      by_cases hname : m.1 ∈ requiredNames schema
      · rwa [if_pos hname] at hfield
      · rw [if_neg hname, valid_nullable] at hfield
        refine hfield.resolve_right fun hnull => ?_
        simp [keepsMember, hnull, isNull, hname] at hkept
    rw [stripMember_of_declared hproperty]
    exact hbelow.payload (hbuilt.property hproperty) (hproperties _ (OrdMap.lookup_mem hproperty))
      hprojected hnext
  · intro m' hm' hnone
    obtain ⟨m, hm, rfl⟩ := List.mem_map.mp hm'
    exact absurd hnone (hdeclared m (List.mem_of_mem_filter hm))
  · intro _ _ m' hm'
    obtain ⟨m, hm, rfl⟩ := List.mem_map.mp hm'
    exact hdeclared m (List.mem_of_mem_filter hm)
  · rw [hanyOf]
    nofun
  · rw [hanyOf]
    nofun

/-- **A strict value of a schema that closes no object** comes back item by item. -/
theorem payload_open (hopen : isObjectSchema schema = false) {reply : Value}
    (hvalid : Valid V false strict reply) :
    Valid V true schema (stripOptionalNulls (depth + 1) schema reply) := by
  cases hsettled with
  | mk htype hclosed hnull hfixed hproperties hsettledItems =>
  cases hvalid with
  | mk hschema hadmits _ _ hrequired hfields hadditional _ hitems _ _ =>
  have hadmits := (P.admits_iff htype reply).mp hadmits
  have hobject := htype.of_object hopen hadmits
  have hstrict := P.items
  cases hitem : entry "items" schema with
  | none =>
    rw [strip_open hopen (.inl hitem)]
    refine valid_of_items hbuilt.ne_false hplain hopen hadmits hobject fun item hitem' => ?_
    rw [hitem] at hitem'
    cases hitem'
  | some item =>
    rw [hitem] at hstrict
    obtain ⟨item', hproject, hentry⟩ := hstrict
    cases reply with
    | array items =>
      rw [strip_items items hitem]
      refine valid_of_items hbuilt.ne_false hplain hopen hadmits nofun fun item₀ hitem₀ v hv => ?_
      obtain rfl := Option.some.inj (hitem.symm.trans hitem₀)
      obtain ⟨v₀, hv₀, rfl⟩ := List.mem_map.mp hv
      exact hbelow.payload (hbuilt.item hitem) (hsettledItems hadmits item hitem) hproject
        (hitems item' hentry v₀ hv₀)
    | _ =>
      rw [strip_open hopen (.inr rfl)]
      exact valid_of_items hbuilt.ne_false hplain hopen hadmits hobject fun _ _ v hv =>
        absurd hv List.not_mem_nil

/-- **A payload object is what is left of a strict one**: what is absent is null there. -/
theorem reply_object (hobject : isObjectSchema schema = true) {members : List (String × Value)}
    (hdistinct : Distinct (.object members)) (hvalid : Valid V true schema (.object members)) :
    ∃ reply, Distinct reply ∧ Valid V false strict reply ∧
      stripOptionalNulls (depth + 1) schema reply = .object members := by
  obtain ⟨hnames, hfieldsDistinct⟩ := hdistinct.member
  cases hsettled with
  | mk htype hclosed hnull hfixed hproperties hitems =>
  cases hvalid with
  | mk hschema hadmits _ _ hrequired hfields hadditional hdeclared _ _ _ =>
  have hdeclared := hdeclared rfl hobject
  have hall : ∀ m ∈ members, ∃ r, Distinct r ∧ ∀ property,
      lookup m.1 (declared schema) = some property →
        (∀ projected, project depth property = some projected → Valid V false projected r) ∧
          stripOptionalNulls depth property r = m.2 := by
    intro m hm
    obtain ⟨property, hproperty⟩ := Option.ne_none_iff_exists'.mp (hdeclared m hm)
    have hstrict := P.declared hobject m.1
    rw [hproperty] at hstrict
    obtain ⟨projected, hprojected, -⟩ := hstrict
    obtain ⟨r, hr, hvalid, hstrip⟩ := hbelow.reply (hbuilt.property hproperty)
      (hproperties _ (OrdMap.lookup_mem hproperty)) hprojected (hfieldsDistinct m hm)
      (hfields m hm property hproperty)
    refine ⟨r, hr, fun property' hproperty' => ?_⟩
    obtain rfl := Option.some.inj (hproperty.symm.trans hproperty')
    refine ⟨fun projected' hprojected' => ?_, hstrip⟩
    obtain rfl := Option.some.inj (hprojected.symm.trans hprojected')
    exact hvalid
  have hnonempty : Nonempty Value := ⟨.null⟩
  choose! field hfield using hall
  -- What is present, as it is answered, and what is absent, as null.
  obtain ⟨present, hpresent⟩ : ∃ present, present = members.map fun m => (m.1, field m) := ⟨_, rfl⟩
  obtain ⟨absent, habsent⟩ : ∃ absent : List (String × Value), absent =
      ((declared schema).filter fun d => d.1 ∉ members.map Prod.fst).map
        fun d => (d.1, Value.null) := ⟨_, rfl⟩
  have hmemAbsent : ∀ m ∈ absent, m.2 = .null ∧ lookup m.1 (declared schema) ≠ none ∧
      m.1 ∉ members.map Prod.fst := by
    intro m hm
    rw [habsent] at hm
    obtain ⟨d, hd, rfl⟩ := List.mem_map.mp hm
    obtain ⟨hd, hout⟩ := List.mem_filter.mp hd
    have hlookup : lookup d.1 (declared schema) = some d.2 :=
      (lookup_eq_some_iff hbuilt.nodup_declared).mpr hd
    exact ⟨rfl, by rw [hlookup]; nofun, of_decide_eq_true hout⟩
  have hoptional : ∀ m ∈ absent, m.1 ∉ requiredNames schema := fun m hm hname =>
    (hmemAbsent m hm).2.2 (hrequired rfl m.1 hname)
  have hall : ∀ m ∈ present ++ absent, lookup m.1 (declared schema) ≠ none := by
    intro m hm
    rcases List.mem_append.mp hm with hm | hm
    · rw [hpresent] at hm
      obtain ⟨m₀, hm₀, rfl⟩ := List.mem_map.mp hm
      exact hdeclared m₀ hm₀
    · exact (hmemAbsent m hm).2.1
  refine ⟨.object (present ++ absent), .object ?_ ?_, ?_, ?_⟩
  · have hpresentNames : present.map Prod.fst = members.map Prod.fst := by
      rw [hpresent, List.map_map]
      rfl
    have habsentNames : (absent.map Prod.fst).Nodup := by
      rw [habsent, List.map_map]
      exact hbuilt.nodup_declared.sublist (List.filter_sublist.map Prod.fst)
    rw [List.map_append, hpresentNames]
    refine List.nodup_append.mpr ⟨hnames, habsentNames, fun name hname name' hname' heq => ?_⟩
    obtain ⟨m, hm, rfl⟩ := List.mem_map.mp hname'
    exact (hmemAbsent m hm).2.2 (heq ▸ hname)
  · intro m hm
    rcases List.mem_append.mp hm with hm | hm
    · rw [hpresent] at hm
      obtain ⟨m₀, hm₀, rfl⟩ := List.mem_map.mp hm
      exact (hfield m₀ hm₀).1
    · rw [(hmemAbsent m hm).1]
      exact .scalar rfl rfl
  · obtain ⟨hanyOf, henum, hconst⟩ := P.plain hplain
    refine @Valid.mk V false _ _ .null P.ne_false
      ((P.admits_iff htype _).mpr ((htype.object hobject _).mpr rfl)) ?_ ?_ ?_ ?_ ?_ nofun
      (fun _ _ _ h => absurd h List.not_mem_nil) ?_ ?_
    · rw [henum]
      nofun
    · rw [hconst]
      nofun
    · intro _ name hname
      obtain ⟨property, hproperty⟩ := (P.required hobject name).mp hname
      by_cases hthere : name ∈ members.map Prod.fst
      · obtain ⟨m, hm, rfl⟩ := List.mem_map.mp hthere
        have hmem : (m.1, field m) ∈ present := hpresent ▸ List.mem_map_of_mem hm
        exact List.mem_map.mpr ⟨_, List.mem_append_left _ hmem, rfl⟩
      · have hmem : (name, Value.null) ∈ absent := by
          rw [habsent]
          exact List.mem_map.mpr ⟨_, List.mem_filter.mpr ⟨OrdMap.lookup_mem hproperty,
            decide_eq_true hthere⟩, rfl⟩
        exact List.mem_map.mpr ⟨_, List.mem_append_right _ hmem, rfl⟩
    · intro m hm property' hlookup'
      obtain ⟨property, hproperty⟩ := Option.ne_none_iff_exists'.mp (hall m hm)
      have hstrict := P.declared hobject m.1
      rw [hproperty] at hstrict
      obtain ⟨projected, hprojected, hlookup⟩ := hstrict
      obtain rfl := Option.some.inj (hlookup.symm.trans hlookup')
      rcases List.mem_append.mp hm with hm | hm
      · rw [hpresent] at hm
        obtain ⟨m₀, hm₀, rfl⟩ := List.mem_map.mp hm
        have hvalid := ((hfield m₀ hm₀).2 property hproperty).1 projected hprojected
        split_ifs
        · exact hvalid
        · exact valid_nullable.mpr (.inl hvalid)
      · rw [if_neg (hoptional m hm), (hmemAbsent m hm).1]
        exact valid_nullable.mpr (.inr rfl)
    · intro m hm hnone
      obtain ⟨property, hproperty⟩ := Option.ne_none_iff_exists'.mp (hall m hm)
      have hstrict := P.declared hobject m.1
      rw [hproperty] at hstrict
      obtain ⟨projected, -, hlookup⟩ := hstrict
      rw [hnone] at hlookup
      cases hlookup
    · rw [hanyOf]
      nofun
    · rw [hanyOf]
      nofun
  · have hkeepsPresent : present.filter (keepsMember schema) = present := by
      refine List.filter_eq_self.mpr fun m hm => ?_
      rw [hpresent] at hm
      obtain ⟨m₀, hm₀, rfl⟩ := List.mem_map.mp hm
      obtain ⟨property, hproperty⟩ := Option.ne_none_iff_exists'.mp (hdeclared m₀ hm₀)
      by_contra hdrop
      simp only [keepsMember, Bool.or_eq_true, Bool.not_eq_true', decide_eq_true_eq, not_or,
        Bool.not_eq_false] at hdrop
      have hstrip := ((hfield m₀ hm₀).2 property hproperty).2
      rw [isNull_iff.mp hdrop.1, strip_null] at hstrip
      have hvalid := (hfields m₀ hm₀ property hproperty).of_closed
      rw [← hstrip] at hvalid
      exact hnull m₀.1 property hproperty hdrop.2 hvalid
    have hdropsAbsent : absent.filter (keepsMember schema) = [] := by
      refine List.filter_eq_nil_iff.mpr fun m hm => ?_
      simp [keepsMember, (hmemAbsent m hm).1, isNull, hoptional m hm]
    have hmap : present.map (stripMember depth schema) = members := by
      rw [hpresent, List.map_map]
      refine (List.map_congr_left fun m hm => ?_).trans (List.map_id members)
      obtain ⟨property, hproperty⟩ := Option.ne_none_iff_exists'.mp (hdeclared m hm)
      have hstripped : stripMember depth schema (m.1, field m) =
          (m.1, stripOptionalNulls depth property (field m)) := stripMember_of_declared hproperty
      exact hstripped.trans (Prod.ext rfl ((hfield m hm).2 property hproperty).2)
    rw [strip_object hall, List.filter_append, hkeepsPresent, hdropsAbsent, List.append_nil, hmap]

/-- **A payload of a schema that closes no object** is what is left item by item. -/
theorem reply_open (hopen : isObjectSchema schema = false) {payload : Value}
    (hdistinct : Distinct payload) (hvalid : Valid V true schema payload) :
    ∃ reply, Distinct reply ∧ Valid V false strict reply ∧
      stripOptionalNulls (depth + 1) schema reply = payload := by
  cases hsettled with
  | mk htype hclosed hnull hfixed hproperties hsettledItems =>
  cases hvalid with
  | mk hschema hadmits _ _ hrequired hfields hadditional _ hitems _ _ =>
  have hadmits' := (P.admits_iff htype payload).mpr hadmits
  have hobject : isObject payload = true →
      requiredNames strict = [] ∧ entry "additionalProperties" strict = none := fun _ => by
    rw [requiredNames, (P.unclosed hopen).2.1]
    exact ⟨rfl, (P.unclosed hopen).2.2⟩
  have hstrict := P.items
  cases hitem : entry "items" schema with
  | none =>
    rw [hitem] at hstrict
    refine ⟨payload, hdistinct, ?_, strip_open hopen (.inl hitem)⟩
    refine valid_of_items P.ne_false (P.plain hplain) (P.not_object hopen) hadmits' hobject ?_
    intro item hitem'
    rw [hstrict] at hitem'
    cases hitem'
  | some item =>
    rw [hitem] at hstrict
    obtain ⟨item', hproject, hentry⟩ := hstrict
    cases payload with
    | array items =>
      have hall : ∀ v ∈ items, ∃ r, Distinct r ∧ Valid V false item' r ∧
          stripOptionalNulls depth item r = v := fun v hv =>
        hbelow.reply (hbuilt.item hitem) (hsettledItems hadmits item hitem) hproject
          (hdistinct.item hv) (hitems item hitem v hv)
      choose! reply hreply using hall
      refine ⟨.array (items.map reply), .array ?_, ?_, ?_⟩
      · intro v hv
        obtain ⟨v₀, hv₀, rfl⟩ := List.mem_map.mp hv
        exact (hreply v₀ hv₀).1
      · refine valid_of_items P.ne_false (P.plain hplain) (P.not_object hopen) hadmits'
          (fun h => by cases h) ?_
        intro item₀ hitem₀ v hv
        obtain rfl := Option.some.inj (hentry.symm.trans hitem₀)
        obtain ⟨v₀, hv₀, rfl⟩ := List.mem_map.mp hv
        exact (hreply v₀ hv₀).2.1
      · rw [strip_items _ hitem, List.map_map]
        refine congrArg Value.array ((List.map_congr_left fun v hv => ?_).trans (List.map_id items))
        exact (hreply v hv).2.2
    | _ =>
      refine ⟨_, hdistinct, ?_, strip_open hopen (.inr rfl)⟩
      exact valid_of_items P.ne_false (P.plain hplain) (P.not_object hopen) hadmits' hobject
        fun _ _ v hv => absurd hv List.not_mem_nil

end Plain

theorem below (depth : ℕ) : Below V depth := by
  induction depth with
  | zero =>
    constructor
    · intro schema strict payload _ _ hproject
      cases hproject
    · intro schema strict reply _ _ hproject
      cases hproject
  | succ depth ih =>
    constructor
    · intro schema strict payload hbuilt hsettled hproject hdistinct hvalid
      by_cases hplain : Plain schema
      · obtain ⟨level, hlevel, P⟩ := hbuilt.projected hproject
        obtain rfl : depth = level := Nat.succ_injective hlevel
        cases hobject : isObjectSchema schema with
        | true =>
          obtain ⟨members, rfl⟩ := exists_members
            ((hsettled.wellTyped.object hobject payload).mp hvalid.admits)
          exact reply_object hbuilt hsettled hplain P ih hobject hdistinct hvalid
        | false => exact reply_open hbuilt hsettled hplain P ih hobject hdistinct hvalid
      · refine ⟨payload, hdistinct, ?_, hsettled.kept hvalid.of_closed⟩
        exact (Fixed.valid_iff hbuilt (hsettled.fixed hplain) hproject).mpr hvalid
    · intro schema strict reply hbuilt hsettled hproject hvalid
      by_cases hplain : Plain schema
      · obtain ⟨level, hlevel, P⟩ := hbuilt.projected hproject
        obtain rfl : depth = level := Nat.succ_injective hlevel
        cases hobject : isObjectSchema schema with
        | true =>
          obtain ⟨members, rfl⟩ := exists_members ((hsettled.wellTyped.object hobject reply).mp
            ((P.admits_iff hsettled.wellTyped reply).mp hvalid.admits))
          exact payload_object hbuilt hsettled hplain P ih hobject hvalid
        | false => exact payload_open hbuilt hsettled hplain P ih hobject hvalid
      · have hpayload := (Fixed.valid_iff hbuilt (hsettled.fixed hplain) hproject).mp hvalid
        rw [hsettled.kept hpayload.of_closed]
        exact hpayload

end Laws

/-! ## Notes -/

end ReplySchema

end Afactory
