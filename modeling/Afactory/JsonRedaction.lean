import Mathlib
import Afactory.Redactor

/-!
# What a redacted document shows

`Redactor::json` over two documents that differ inside secret-named values, and over its own result.

* `SameOutside`: two documents that are equal outside the secret-named values;
* `Judged`: no text that is judged has a wide address;
* `Clean`: nothing left passes for a credential;
* `json_hides_secrets`: equal results, nothing left, and nothing to do again, exactly where the
  judgement does not panic.
-/

namespace Afactory

namespace Redaction

open Json (Value)

/-- Whether a value stands under a secret name: `null` does not. -/
def isSecret (name : String) (member : Value) : Bool := secretName name.toList && !isNull member

/-! ## Documents -/

mutual

/-- Equal but for values under secret names. -/
def SameOutside : Value → Value → Prop
  | .object as, .object bs => SameMembers as bs
  | .array as, .array bs => SameItems as bs
  | a, b => a = b

def SameItems : List Value → List Value → Prop
  | [], [] => True
  | a :: as, b :: bs => SameOutside a b ∧ SameItems as bs
  | _, _ => False

def SameMembers : List (String × Value) → List (String × Value) → Prop
  | [], [] => True
  | (name, a) :: as, (other, b) :: bs =>
    name = other ∧ (isSecret name a = true ∧ isSecret name b = true ∨ SameOutside a b) ∧
      SameMembers as bs
  | _, _ => False

end

variable (M : Machine)

mutual

/-- No text that is judged in the document has a wide address. -/
def Judged : Value → Prop
  | .object members =>
    (members.any fun member => nameIsCredential member.1.toList) = true ∨ MembersJudged members
  | .array items => ItemsJudged items
  | .string text => ¬ WideAddress text.toList
  | .int n => ¬ WideAddress (toString n).toList
  | .float x => ¬ WideAddress (M.double x)
  | .bool _ => True
  | .null => True

def ItemsJudged : List Value → Prop
  | [] => True
  | item :: items => Judged item ∧ ItemsJudged items

def MembersJudged : List (String × Value) → Prop
  | [] => True
  | (name, member) :: members =>
    (isSecret name member = true ∨ Judged member) ∧ MembersJudged members

end

mutual

/-- No string and no number passes for a credential, nor does the name of a member. -/
def Clean : Value → Prop
  | .object members =>
    (members.any fun member => nameIsCredential member.1.toList) = false ∧ MembersClean members
  | .array items => ItemsClean items
  | .string text => looksLikeCredential text.toList = some false
  | .int n => looksLikeCredential (toString n).toList = some false
  | .float x => looksLikeCredential (M.double x) = some false
  | .bool _ => True
  | .null => True

def ItemsClean : List Value → Prop
  | [] => True
  | item :: items => Clean item ∧ ItemsClean items

def MembersClean : List (String × Value) → Prop
  | [] => True
  | (_, member) :: members => Clean member ∧ MembersClean members

end

namespace Redactor

variable {M} {R : Redactor}

/-! ## Two documents -/

theorem names_of_same {as bs : List (String × Value)} (h : SameMembers as bs) :
    as.map Prod.fst = bs.map Prod.fst := by
  induction as generalizing bs with
  | nil =>
    cases bs with
    | nil => rfl
    | cons b bs => exact h.elim
  | cons a as ih =>
    cases bs with
    | nil => exact h.elim
    | cons b bs =>
      obtain ⟨hname, -, hrest⟩ := h
      rw [List.map_cons, List.map_cons, ih hrest]
      exact congrArg (· :: _) hname

theorem isSecret_of_same (name : String) {a b : Value} (h : SameOutside a b) :
    isSecret name a = isSecret name b := by
  cases a with
  | object as =>
    cases b with
    | object bs => rfl
    | _ => cases h
  | array as =>
    cases b with
    | array bs => rfl
    | _ => cases h
  | _ => cases h; rfl

theorem membersAt_cons (R : Redactor) (name : String) (member : Value)
    (members : List (String × Value)) :
    R.membersAt M ((name, member) :: members) = do
      let (member, n) ←
        (if isSecret name member then some (.string withheldValue, 1) else R.jsonAt M member)
      let (members, m) ← R.membersAt M members
      return ((name, member) :: members, n + m) := by
  rw [membersAt]
  rfl

mutual

/-- **What stands under a secret name does not show.** -/
theorem jsonAt_of_same {a b : Value} (h : SameOutside a b) : R.jsonAt M a = R.jsonAt M b := by
  cases a with
  | object as =>
    cases b with
    | object bs =>
      have hnames : (as.any fun member => nameIsCredential member.1.toList) =
          bs.any fun member => nameIsCredential member.1.toList := by
        have hmap := congrArg (List.any · fun name => nameIsCredential name.toList)
          (names_of_same h)
        simpa [List.any_map, Function.comp_def] using hmap
      rw [jsonAt, jsonAt, hnames, membersAt_of_same h]
    | _ => cases h
  | array as =>
    cases b with
    | array bs => rw [jsonAt, jsonAt, itemsAt_of_same h]
    | _ => cases h
  | _ => cases h; rfl

theorem itemsAt_of_same {as bs : List Value} (h : SameItems as bs) :
    R.itemsAt M as = R.itemsAt M bs := by
  match as, bs, h with
  | [], [], _ => rfl
  | a :: as, b :: bs, ⟨hfirst, hrest⟩ =>
    rw [itemsAt, itemsAt, jsonAt_of_same hfirst, itemsAt_of_same hrest]

theorem membersAt_of_same {as bs : List (String × Value)} (h : SameMembers as bs) :
    R.membersAt M as = R.membersAt M bs := by
  match as, bs, h with
  | [], [], _ => rfl
  | (name, a) :: as, (_, b) :: bs, ⟨rfl, hfirst, hrest⟩ =>
    rw [membersAt_cons, membersAt_cons, membersAt_of_same hrest]
    rcases hfirst with ⟨ha, hb⟩ | hsame
    · rw [if_pos ha, if_pos hb]
    · rw [isSecret_of_same name hsame, jsonAt_of_same hsame]

end

/-! ## Panics -/

theorem isSome_judged {α : Type} (text : List Char) (kept withheld : α) :
    (do if ← looksLikeCredential text then return withheld else return kept : Option α).isSome =
      true ↔ ¬ WideAddress text := by
  rw [← isSome_looksLikeCredential]
  cases looksLikeCredential text with
  | none => rfl
  | some judged => cases judged <;> rfl

theorem isSome_value (R : Redactor) (text : List Char) :
    (R.value M text).isSome = true ↔ ¬ WideAddress text :=
  isSome_judged text _ _

theorem isSome_bind_pure {α β : Type} (o : Option α) (f : α → β) :
    (o >>= fun a => pure (f a)).isSome = o.isSome := by
  cases o <;> rfl

mutual

/-- A document is redacted when nothing judged in it has a wide address. -/
theorem isSome_jsonAt (v : Value) : (R.jsonAt M v).isSome = true ↔ Judged M v := by
  cases v with
  | object members =>
    rw [jsonAt, Judged]
    by_cases hnames : (members.any fun member => nameIsCredential member.1.toList) = true
    · simp only [hnames, if_true, Option.isSome_some, true_or]
    · simp only [hnames, Bool.false_eq_true, if_false, false_or]
      rw [← isSome_membersAt members]
      exact iff_of_eq (congrArg (· = true) (isSome_bind_pure _ _))
  | array items =>
    rw [jsonAt, Judged, ← isSome_itemsAt items]
    exact iff_of_eq (congrArg (· = true) (isSome_bind_pure _ _))
  | string text =>
    rw [jsonAt, Judged, ← isSome_value R]
    exact iff_of_eq (congrArg (· = true) (isSome_bind_pure _ _))
  | int n => rw [jsonAt, Judged, isSome_judged]
  | float x => rw [jsonAt, Judged, isSome_judged]
  | bool b => simp [jsonAt, Judged]
  | null => simp [jsonAt, Judged]

theorem isSome_itemsAt (items : List Value) :
    (R.itemsAt M items).isSome = true ↔ ItemsJudged M items := by
  cases items with
  | nil => simp [itemsAt, ItemsJudged]
  | cons item items =>
    rw [itemsAt, ItemsJudged, ← isSome_jsonAt item, ← isSome_itemsAt items]
    cases R.jsonAt M item with
    | none => simp
    | some _ => cases R.itemsAt M items <;> simp

theorem isSome_membersAt (members : List (String × Value)) :
    (R.membersAt M members).isSome = true ↔ MembersJudged M members := by
  match members with
  | [] => simp [membersAt, MembersJudged]
  | (name, member) :: members =>
    rw [membersAt_cons, MembersJudged, ← isSome_jsonAt member, ← isSome_membersAt members]
    by_cases hsecret : isSecret name member = true
    · rw [if_pos hsecret]
      cases R.membersAt M members <;> simp [hsecret]
    · rw [if_neg hsecret]
      cases R.jsonAt M member with
      | none => simp [hsecret]
      | some _ => cases R.membersAt M members <;> simp

end

/-! ## The document that is left -/

theorem replace_new (text : List Char) : new.replace M text = text := rfl

theorem value_of_judged {text : List Char} (h : looksLikeCredential text = some false) :
    new.value M text = some (text, false) := by
  rw [value, h, Option.bind_eq_bind, Option.bind_some, if_neg (by simp), replace_new]
  rfl

theorem value_new {text redacted : List Char} {withheld : Bool}
    (h : new.value M text = some (redacted, withheld)) :
    looksLikeCredential redacted = some false := by
  cases hjudged : looksLikeCredential text with
  | none => simp [value, hjudged] at h
  | some judged =>
    cases judged with
    | true =>
      rw [value, hjudged, Option.bind_eq_bind, Option.bind_some, if_pos rfl] at h
      obtain ⟨rfl, -⟩ := Prod.mk.inj (Option.some.inj h)
      exact looksLikeCredential_withheld
    | false =>
      obtain ⟨rfl, -⟩ := Prod.mk.inj (Option.some.inj ((value_of_judged hjudged).symm.trans h))
      exact hjudged

theorem clean_withheld : Clean M (.string withheldValue) := looksLikeCredential_withheld

theorem jsonAt_withheld : new.jsonAt M (.string withheldValue) =
    some (.string withheldValue, 0) := by
  rw [jsonAt, value_of_judged looksLikeCredential_withheld, Option.bind_eq_bind, Option.bind_some]
  dsimp only
  rw [String.ofList_toList]
  rfl

theorem jsonAt_number {v w : Value} {number : List Char} {n : ℕ}
    (h : (looksLikeCredential number >>= fun judged =>
      if judged = true then pure (.string withheldValue, 1) else pure (v, 0)) = some (w, n)) :
    w = .string withheldValue ∨ w = v ∧ looksLikeCredential number = some false := by
  obtain ⟨judged, hjudged, h⟩ := Option.bind_eq_some_iff.mp h
  cases judged with
  | true =>
    obtain ⟨rfl, -⟩ := Prod.mk.inj (Option.some.inj h)
    exact .inl rfl
  | false =>
    obtain ⟨rfl, -⟩ := Prod.mk.inj (Option.some.inj h)
    exact .inr ⟨rfl, hjudged⟩

/-- Redaction changes no name and no `null`, so what stood under no secret name still does not. -/
theorem isSecret_jsonAt {name : String} {member redacted : Value} {n : ℕ}
    (hsecret : isSecret name member = false) (h : R.jsonAt M member = some (redacted, n)) :
    isSecret name redacted = false := by
  rw [isSecret, Bool.and_eq_false_iff] at hsecret ⊢
  refine hsecret.imp_right fun hnull => ?_
  cases member with
  | null =>
    obtain ⟨rfl, -⟩ : Value.null = redacted ∧ 0 = n := by simpa [jsonAt] using h
    rfl
  | _ => cases hnull

theorem names_membersAt {members redacted : List (String × Value)} {n : ℕ}
    (h : R.membersAt M members = some (redacted, n)) :
    redacted.map Prod.fst = members.map Prod.fst := by
  induction members generalizing redacted n with
  | nil =>
    obtain ⟨rfl, -⟩ : [] = redacted ∧ 0 = n := by simpa [membersAt] using h
    rfl
  | cons member members ih =>
    obtain ⟨name, member⟩ := member
    rw [membersAt_cons] at h
    obtain ⟨⟨first, k⟩, -, h⟩ := Option.bind_eq_some_iff.mp h
    obtain ⟨⟨rest, m⟩, hrest, h⟩ := Option.bind_eq_some_iff.mp h
    obtain ⟨rfl, -⟩ := Prod.mk.inj (Option.some.inj h)
    rw [List.map_cons, List.map_cons, ih hrest]

mutual

/-- **Nothing is left**, and there is nothing to do again. -/
theorem jsonAt_new {v w : Value} {n : ℕ} (h : new.jsonAt M v = some (w, n)) :
    Clean M w ∧ ∃ m, new.jsonAt M w = some (w, m) := by
  cases v with
  | object members =>
    rw [jsonAt] at h
    by_cases hnames : (members.any fun member => nameIsCredential member.1.toList) = true
    · rw [if_pos hnames] at h
      obtain ⟨rfl, -⟩ := Prod.mk.inj (Option.some.inj h)
      exact ⟨clean_withheld, 0, jsonAt_withheld⟩
    · rw [if_neg hnames] at h
      obtain ⟨⟨redacted, m⟩, hmembers, h⟩ := Option.bind_eq_some_iff.mp h
      obtain ⟨rfl, -⟩ := Prod.mk.inj (Option.some.inj h)
      obtain ⟨hclean, k, hagain⟩ := membersAt_new hmembers
      have hany : (redacted.any fun member => nameIsCredential member.1.toList) = false := by
        have hmap := congrArg (List.any · fun name => nameIsCredential name.toList)
          (names_membersAt hmembers)
        rw [List.any_map, List.any_map] at hmap
        exact hmap.trans (Bool.eq_false_iff.mpr hnames)
      refine ⟨⟨hany, hclean⟩, k, ?_⟩
      rw [jsonAt, hany, hagain]
      rfl
  | array items =>
    rw [jsonAt] at h
    obtain ⟨⟨redacted, m⟩, hitems, h⟩ := Option.bind_eq_some_iff.mp h
    obtain ⟨rfl, -⟩ := Prod.mk.inj (Option.some.inj h)
    obtain ⟨hclean, k, hagain⟩ := itemsAt_new hitems
    exact ⟨hclean, k, by rw [jsonAt, hagain]; rfl⟩
  | string text =>
    rw [jsonAt] at h
    obtain ⟨⟨redacted, withheld⟩, hvalue, h⟩ := Option.bind_eq_some_iff.mp h
    obtain ⟨rfl, -⟩ := Prod.mk.inj (Option.some.inj h)
    have hclean := value_new hvalue
    rw [Clean, jsonAt, String.toList_ofList, value_of_judged hclean]
    exact ⟨hclean, 0, rfl⟩
  | int number =>
    rw [jsonAt] at h
    rcases jsonAt_number h with rfl | ⟨rfl, hjudged⟩
    · exact ⟨clean_withheld, 0, jsonAt_withheld⟩
    · exact ⟨hjudged, 0, by rw [jsonAt, hjudged]; rfl⟩
  | float x =>
    rw [jsonAt] at h
    rcases jsonAt_number h with rfl | ⟨rfl, hjudged⟩
    · exact ⟨clean_withheld, 0, jsonAt_withheld⟩
    · exact ⟨hjudged, 0, by rw [jsonAt, hjudged]; rfl⟩
  | bool b =>
    obtain ⟨rfl, -⟩ : Value.bool b = w ∧ 0 = n := by simpa [jsonAt] using h
    exact ⟨trivial, 0, rfl⟩
  | null =>
    obtain ⟨rfl, -⟩ : Value.null = w ∧ 0 = n := by simpa [jsonAt] using h
    exact ⟨trivial, 0, rfl⟩

theorem itemsAt_new {items redacted : List Value} {n : ℕ}
    (h : new.itemsAt M items = some (redacted, n)) :
    ItemsClean M redacted ∧ ∃ m, new.itemsAt M redacted = some (redacted, m) := by
  cases items with
  | nil =>
    obtain ⟨rfl, -⟩ : [] = redacted ∧ 0 = n := by simpa [itemsAt] using h
    exact ⟨trivial, 0, rfl⟩
  | cons item items =>
    rw [itemsAt] at h
    obtain ⟨⟨first, k⟩, hfirst, h⟩ := Option.bind_eq_some_iff.mp h
    obtain ⟨⟨rest, m⟩, hrest, h⟩ := Option.bind_eq_some_iff.mp h
    obtain ⟨rfl, -⟩ := Prod.mk.inj (Option.some.inj h)
    obtain ⟨hclean, k', hagain⟩ := jsonAt_new hfirst
    obtain ⟨hcleans, m', hagains⟩ := itemsAt_new hrest
    exact ⟨⟨hclean, hcleans⟩, k' + m', by rw [itemsAt, hagain, hagains]; rfl⟩

theorem membersAt_new {members redacted : List (String × Value)} {n : ℕ}
    (h : new.membersAt M members = some (redacted, n)) :
    MembersClean M redacted ∧ ∃ m, new.membersAt M redacted = some (redacted, m) := by
  match members with
  | [] =>
    obtain ⟨rfl, -⟩ : [] = redacted ∧ 0 = n := by simpa [membersAt] using h
    exact ⟨trivial, 0, rfl⟩
  | (name, member) :: members =>
    rw [membersAt_cons] at h
    obtain ⟨⟨first, k⟩, hfirst, h⟩ := Option.bind_eq_some_iff.mp h
    obtain ⟨⟨rest, m⟩, hrest, h⟩ := Option.bind_eq_some_iff.mp h
    obtain ⟨rfl, -⟩ := Prod.mk.inj (Option.some.inj h)
    obtain ⟨hcleans, m', hagains⟩ := membersAt_new hrest
    by_cases hsecret : isSecret name member = true
    · rw [if_pos hsecret] at hfirst
      obtain ⟨rfl, -⟩ := Prod.mk.inj (Option.some.inj hfirst)
      have hagain : isSecret name (.string withheldValue) = true := by
        rw [isSecret, Bool.and_eq_true] at hsecret ⊢
        exact ⟨hsecret.1, rfl⟩
      refine ⟨⟨clean_withheld, hcleans⟩, 1 + m', ?_⟩
      rw [membersAt_cons, if_pos hagain, hagains]
      rfl
    · rw [if_neg hsecret] at hfirst
      obtain ⟨hclean, k', hagain⟩ := jsonAt_new hfirst
      have hstill := isSecret_jsonAt (Bool.eq_false_iff.mpr hsecret) hfirst
      refine ⟨⟨hclean, hcleans⟩, k' + m', ?_⟩
      rw [membersAt_cons, hstill, hagains]
      simp [hagain]

end

/-! ## Redaction hides secrets -/

/-- **Redaction hides what stands under secret names**: two documents that are equal elsewhere give
equal documents and counts; without replacements nothing left passes for a credential, no name
does, and redacting again changes nothing. It does so exactly of the documents in which no text
that is judged has a wide address, at which the judgement panics. -/
theorem json_hides_secrets (M : Machine) :
    (∀ (R : Redactor) (a b : Value), SameOutside a b →
      ((∃ redacted, R.json M a = some redacted ∧ R.json M b = some redacted) ↔ Judged M a)) ∧
    ∀ v : Value, (∃ redacted n, new.json M v = some (redacted, n) ∧ Clean M redacted ∧
      ∃ m, new.json M redacted = some (redacted, m)) ↔ Judged M v := by
  constructor
  · intro R a b hsame
    rw [json, json, ← jsonAt_of_same hsame, ← isSome_jsonAt (R := R), Option.isSome_iff_exists]
    simp only [and_self]
  · intro v
    rw [← isSome_jsonAt (R := new), Option.isSome_iff_exists]
    constructor
    · rintro ⟨redacted, n, h, -⟩
      exact ⟨_, h⟩
    · rintro ⟨⟨redacted, n⟩, h⟩
      exact ⟨redacted, n, h, jsonAt_new h⟩

/-- A letter of two bytes before an address. -/
theorem json_panics : ¬ ∃ redacted, new.json plainMachine (.string "é://") = some redacted := by
  have hjudged : looksLikeCredential "é://".toList = none := by decide +kernel
  rintro ⟨redacted, h⟩
  rw [json, jsonAt, value, hjudged] at h
  cases h

end Redactor

end Redaction

end Afactory
