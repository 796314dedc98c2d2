import Mathlib
import Afactory.DecimalDigits
import Afactory.Redactor
import Afactory.TelemetryRecord
import Afactory.TextBounds

/-!
# The bounds of attributes

`bound_attributes` of `review-telemetry/src/record.rs`: what becomes of the attributes a writer hands
over.

* `boundAttributes`: the attributes as they are recorded, and the counters;
* `cutArray`: an array cut element by element, with room kept for a marker;
* `Fate`, `Accounts`: what became of each attribute, read off the run;
* `cutArray_within`: an array within the bounds is kept exactly when it leaves room;
* `bounds_exact_iff`: the bounds are exact where every array leaves room.
-/

namespace Afactory

namespace Telemetry

open Json (Value)
open Redaction (Machine Redactor WideAddress looksLikeCredential secretName isLowerHex isHexDigit
  withheldValue looksLikeCredential_eq_none isSome_looksLikeCredential)
open TextBounds

/-! ## Limits and names -/

/-- `MAX_ATTRIBUTES`: the counters included. -/
abbrev maxAttributes : ℕ := 64

/-- `MAX_KEY_BYTES` -/
abbrev maxKeyBytes : ℕ := 128

/-- `MAX_STRING_BYTES` -/
abbrev maxStringBytes : ℕ := 1024

/-- `MAX_ARRAY_ELEMENTS` -/
abbrev maxArrayElements : ℕ := 32

/-- `MAX_ARRAY_BYTES` -/
abbrev maxArrayBytes : ℕ := 4096

/-- `ELLIPSIS`: the marker a cut value ends with. -/
def ellipsis : List Char := ['…']

/-- `OCCURRENCE_PREFIX` -/
def occurrencePrefix : List Char := "af.blob_ref:".toList

/-- `stream::event::IDS` -/
abbrev harnessIds : String := "af.harness.ids"

/-- `IDENTITY_POSITIONS` -/
def identityPositions : List String :=
  ["af.store_id", "af.run_id", "af.task_id", "af.attempt_id", "af.execution_id", "af.node_id",
   "af.corr", "af.measurement.id", "af.store.event.id", "af.store.event.causation_id",
   "af.store.event.payload_digest", "artifact_refs", "af.finding.id", "af.demand.id",
   "af.evidence.id", "af.context.manifest", "af.pipeline.digest", "af.policy_rev",
   "af.plan_digest", "af.snapshot_id", "af.artifact_id", "af.snapshot", "af.check.fingerprint",
   "af.warm.key", "af.af_toml.digest", "af.af_lock.digest", "af.config.text.digest", "trace_id",
   "span_id", "parent_span_id", "execution_id", "run_id", "run_span_id", "log", "plan_digest",
   "node_id", "depends_on", "demand_id", "subject_id", "snapshot_id", "report_artifact_id",
   "finding_key", "digest", "source_digest", "occurrence_id"]

/-- `is_identity_position` -/
def isIdentityPosition (name : String) : Bool := name ∈ identityPositions

/-- `EXACT_COUNTERS` -/
def exactCounters : List String :=
  ["af.usage.input_tokens", "af.usage.output_tokens", "af.usage.cache_read_tokens",
   "af.usage.cache_write_tokens", "af.usage.reasoning_tokens", "af.usage.chargeable_tokens",
   "af.admission.reserved_tokens", "af.context.estimated_tokens", "gen_ai.usage.input_tokens",
   "gen_ai.usage.output_tokens", "gen_ai.client.token.usage", "af.store.sequence_at_start",
   "af.usage.*_tokens", "gen_ai.usage.*", "af.charge*"]

/-- `matches_counter` -/
def matchesCounter (pattern name : List Char) : Bool :=
  match TextSearch.splitOnce '*' pattern with
  | some (head, tail) =>
    byteLength name ≥ byteLength head + byteLength tail && head.isPrefixOf name &&
      tail.isSuffixOf name
  | none => name = pattern

/-- `is_exact_counter` -/
def isExactCounter (name : String) : Bool :=
  exactCounters.any fun pattern => matchesCounter pattern.toList name.toList

/-- `TypedName` -/
inductive TypedName where
  | counter | enumeration
  deriving DecidableEq, Repr

/-- `TYPED_SECRET_NAMED` -/
def typedSecretNamed : List (String × TypedName) :=
  [("af.admission.reserved_tokens", .counter), ("af.authority.load", .enumeration),
   ("af.context.estimated_tokens", .counter), ("af.usage.cache_read_tokens", .counter),
   ("af.usage.cache_write_tokens", .counter), ("af.usage.chargeable_tokens", .counter),
   ("af.usage.input_tokens", .counter), ("af.usage.output_tokens", .counter),
   ("af.usage.reasoning_tokens", .counter), ("gen_ai.client.token.usage", .counter),
   ("gen_ai.token.type", .enumeration), ("gen_ai.usage.input_tokens", .counter),
   ("gen_ai.usage.output_tokens", .counter)]

/-! ## Kernel identities -/

/-- `is_digest` of the redaction rules. -/
def isDigestId (value : List Char) : Bool :=
  match value.dropPrefix? "sha256:".toList with
  | some hex => byteLength hex = 64 && isLowerHex hex
  | none => false

/-- `is_ordinal`: a canonical decimal of at most `u64`. -/
def isOrdinal (value : List Char) : Bool :=
  isCanonicalDecimal (String.ofList value) && Nat.ofDigitChars 10 value 0 < 2 ^ 64

/-- `is_kernel_segment_id` -/
def isKernelSegmentId (value : List Char) : Bool :=
  let digits (part : List Char) (max : ℕ) :=
    1 ≤ byteLength part && byteLength part ≤ max && part.all Char.isDigit
  match value.splitOn '-' with
  | [started, pid, nonce] =>
    digits started 20 && digits pid 10 && byteLength nonce = 8 && isLowerHex nonce
  | _ => false

/-- `KERNEL_HEX_LENGTHS` -/
def kernelHexLengths : List ℕ := [16, 26, 32, 64]

/-- `is_kernel_identity` -/
def isKernelIdentity (value : List Char) : Bool :=
  isDigestId value || (value.dropPrefix? "task:".toList).any isDigestId ||
    (byteLength value ∈ kernelHexLengths && isLowerHex value) || isKernelSegmentId value ||
    (TextSearch.splitOnceBack ':' value).any (fun (segment, seq) =>
      isKernelSegmentId segment && isOrdinal seq) || isOrdinal value

/-! ## Attributes as they are handed over -/

/-- A value of a closed enumeration, each shorter than the bound of a string. -/
structure EnumText where
  text : String
  short : byteLength text.toList ≤ maxStringBytes

/-- `Attr`; of a double, what `Number::from_f64` makes of it. -/
inductive Attr where
  | text (text : List Char)
  | id (id : List Char)
  | enum (value : EnumText)
  | decimal (value : String)
  | int (value : Int64)
  | float (value : Option Json.Double)
  | bool (value : Bool)
  | texts (values : List (List Char))
  | ids (ids : List (List Char))

/-- `Oversized` -/
inductive Oversized where
  | text (text : List Char)
  | texts (values : List (List Char))

/-- The function that is offered each value over its bound, and its own state. What it names is an
occurrence, `<segment_id>:<seq>`. -/
structure Publisher (σ : Type) where
  publish : String → Oversized → σ → Option (List Char) × σ
  short : ∀ key value s, ∀ occurrence ∈ (publish key value s).1,
    byteLength (occurrencePrefix ++ occurrence) ≤ maxStringBytes

/-- No publisher: every level but `content`. -/
def Publisher.none : Publisher Unit := ⟨fun _ _ _ => (.none, ()), nofun⟩

/-- What was bounded so far. -/
structure Bounded (σ : Type) where
  attributes : Attributes
  counters : Counters
  state : σ

namespace Bounded

variable {σ : Type}

/-- So many values counted. -/
def count (out : Bounded σ) (truncated dropped redacted : ℕ) : Bounded σ :=
  { out with counters :=
      ⟨out.counters.truncated + .ofNat truncated, out.counters.dropped + .ofNat dropped,
        out.counters.redacted + .ofNat redacted⟩ }

/-- One attribute written. -/
def write (out : Bounded σ) (key : String) (value : Value) : Bounded σ :=
  { out with attributes := out.attributes.insert key value }

/-- `oversized`: a value offered. -/
def offer (P : Publisher σ) (key : String) (value : Oversized) (out : Bounded σ) :
    Option (List Char) × Bounded σ :=
  let (occurrence, state) := P.publish key value out.state
  (occurrence, { out with state })

end Bounded

/-- The value that names an occurrence. -/
def occurrenceValue (occurrence : List Char) : Value :=
  .string (String.ofList (occurrencePrefix ++ occurrence))

/-! ## Cutting -/

/-- `cut`: a text within `max` bytes, the marker included. -/
def cut (text : List Char) (max : ℕ) : List Char :=
  if byteLength text ≤ max then text
  else sliceTo text (max - byteLength ellipsis) ++ ellipsis

/-- `texts_over` -/
def textsOver (lengths : List ℕ) : Bool :=
  lengths.length > maxArrayElements || lengths.any (· > maxStringBytes) ||
    lengths.sum > maxArrayBytes

/-- The loop of `cut_array`. -/
def cutArrayFrom : List (List Char) → List (List Char) → ℕ → Bool → List (List Char) × Bool
  | [], kept, _, cutAny => (kept, cutAny)
  | value :: rest, kept, bytes, cutAny =>
    let cutAny := cutAny || byteLength value > maxStringBytes
    let value := if byteLength value > maxStringBytes then cut value maxStringBytes else value
    -- room for the marker element when more follow
    let last := rest.isEmpty
    let reserve := if last then 0 else byteLength ellipsis
    if kept.length + (if last then 0 else 1) ≥ maxArrayElements ∨
        bytes + byteLength value + reserve > maxArrayBytes then
      (kept ++ [ellipsis], true)
    else cutArrayFrom rest (kept ++ [value]) (bytes + byteLength value) cutAny

/-- `cut_array`: the elements that are kept, and whether any was cut. -/
def cutArray (redacted : List (List Char)) : List (List Char) × Bool :=
  cutArrayFrom redacted [] 0 false

/-- An array of texts. -/
def arrayValue (elements : List (List Char)) : Value :=
  .array (elements.map fun element => .string (String.ofList element))

/-! ## Bounding -/

section Bounding

variable {σ : Type} (M : Machine) (R : Redactor) (P : Publisher σ)

/-- `bound_text` -/
def boundText (key : String) (text : List Char) (out : Bounded σ) :
    Option (Value × Bounded σ) := do
  let (value, withheld) ← R.value M text
  let out := out.count 0 0 withheld.toNat
  if byteLength value ≤ maxStringBytes then return (.string (String.ofList value), out)
  else
    match out.offer P key (.text text) with
    | (some occurrence, out) => return (occurrenceValue occurrence, out)
    | (none, out) =>
      return (.string (String.ofList (cut value maxStringBytes)), out.count 1 0 0)

/-- `cut_array`, counted. -/
def cutCounted (redacted : List (List Char)) (out : Bounded σ) : Value × Bounded σ :=
  let (kept, cutAny) := cutArray redacted
  (arrayValue kept, out.count cutAny.toNat 0 0)

/-- How many of the texts were withheld. -/
def withheldIn (judged : List (List Char × Bool)) : ℕ := judged.countP (·.2)

/-- `bound_texts` -/
def boundTexts (key : String) (values : List (List Char)) (out : Bounded σ) :
    Option (Value × Bounded σ) := do
  let rawOver := textsOver (values.map byteLength)
  match if rawOver then out.offer P key (.texts values) else (none, out) with
  | (some occurrence, out) => return (occurrenceValue occurrence, out)
  | (none, out) =>
    let judged ← values.mapM (R.value M)
    let out := out.count 0 0 (withheldIn judged)
    let redacted := judged.map Prod.fst
    let redactedOver := textsOver (redacted.map byteLength)
    match if redactedOver && !rawOver then out.offer P key (.texts values) else (none, out) with
    | (some occurrence, out) => return (occurrenceValue occurrence, out)
    | (none, out) => return cutCounted redacted out

/-- What the rules judge of an element of `af.harness.ids`: behind a correlation id, the original
alone. -/
def harnessOriginal (element : List Char) : Option (List Char × List Char) :=
  match TextSearch.splitOnce ' ' element with
  | some (corr, original) =>
    if byteLength corr = 16 && corr.all isHexDigit then some (corr, original) else none
  | none => none

/-- One element of `bound_harness_ids`. -/
def judgeHarnessId (element : List Char) : Option (List Char × Bool) := do
  let (text, withheld) ←
    match harnessOriginal element with
    | some (corr, original) => do
      let (original, withheld) ← R.value M original
      return (corr ++ ' ' :: original, withheld)
    | none => R.value M element
  return (if withheld then withheldValue.toList else text, withheld)

/-- `bound_harness_ids` -/
def boundHarnessIds (values : List (List Char)) (out : Bounded σ) :
    Option (Value × Bounded σ) := do
  let judged ← values.mapM (judgeHarnessId M R)
  return cutCounted (judged.map Prod.fst) (out.count 0 0 (withheldIn judged))

/-- One element of `bound_ids`, and the identity of `Attr::Id`. -/
def judgeId (key : String) (id : List Char) : Option (List Char × Bool) :=
  if isIdentityPosition key && isKernelIdentity id then some (id, false) else R.value M id

/-- `bound_ids` -/
def boundIds (key : String) (ids : List (List Char)) (out : Bounded σ) :
    Option (Value × Bounded σ) := do
  let judged ← ids.mapM (judgeId M R key)
  return cutCounted (judged.map Prod.fst) (out.count 0 0 (withheldIn judged))

/-- An exact counter that is no canonical decimal. -/
def mistypedCounter (key : String) (value : Attr) : Bool :=
  isExactCounter key && !match value with
    | .decimal decimal => isCanonicalDecimal decimal
    | _ => false

/-- `typed_secret_named` -/
def isTypedSecretNamed (key : String) (value : Attr) : Bool :=
  if isExactCounter key then
    match value with
    | .decimal _ => true
    | _ => false
  else
    match typedSecretNamed.find? fun (name, _) => name = key, value with
    | some (_, .counter), .decimal _ => true
    | some (_, .enumeration), .enum _ => true
    | _, _ => false

/-- Whether the secret-name rule withholds the value. -/
def withheldByName (key : String) (value : Attr) : Bool :=
  secretName key.toList && !isTypedSecretNamed key value

/-- The attributes before the counters. -/
abbrev room : ℕ := maxAttributes - counterNames.length

/-- The value that is written for an attribute, `some none` where it is dropped. -/
def boundValue (key : String) (value : Attr) (out : Bounded σ) :
    Option (Option (Value × Bounded σ)) :=
  match value with
  | .text text => (boundText M R P key text out).map some
  | .id id =>
    if isIdentityPosition key && isKernelIdentity id then
      some (some (.string (String.ofList id), out))
    else (boundText M R P key id out).map some
  | .enum value => some (some (.string value.text, out))
  | .decimal value => some (if isCanonicalDecimal value then some (.string value, out) else none)
  | .int value => some (some (.int value.toInt, out))
  | .float value => some (value.map fun number => (.float number, out))
  | .bool value => some (some (.bool value, out))
  | .texts values =>
    if key = harnessIds then (boundHarnessIds M R values out).map some
    else (boundTexts M R P key values out).map some
  | .ids ids => (boundIds M R key ids out).map some

/-- One attribute of `bound_attributes`. -/
def boundAttribute (out : Bounded σ) (attr : String × Attr) : Option (Bounded σ) := do
  let (key, value) := attr
  if mistypedCounter key value then return out.count 0 1 0
  else if ← looksLikeCredential key.toList then return out.count 0 0 1
  else if byteLength key.toList > maxKeyBytes || counterNames.contains key ||
      out.attributes.members.length ≥ room then
    return out.count 0 1 0
  else if withheldByName key value then
    return (out.count 0 0 1).write key (.string withheldValue)
  else
    match ← boundValue M R P key value out with
    | some (value, out) => return out.write key value
    | none => return out.count 0 1 0

end Bounding

/-! ## Cut texts -/

/-- An element of an array, cut at the bound of a string. -/
def clip (element : List Char) : List Char :=
  if byteLength element > maxStringBytes then cut element maxStringBytes else element

/-- The bytes of the elements. -/
def bytesOf (elements : List (List Char)) : ℕ := (elements.map byteLength).sum

@[simp]
theorem bytesOf_append (a b : List (List Char)) : bytesOf (a ++ b) = bytesOf a + bytesOf b := by
  simp [bytesOf]

/-- An array within all three bounds. -/
structure ArrayWithin (elements : List (List Char)) : Prop where
  few : elements.length ≤ maxArrayElements
  short : ∀ element ∈ elements, byteLength element ≤ maxStringBytes
  bytes : bytesOf elements ≤ maxArrayBytes

/-- The first `n` elements, each cut at the bound, and the marker where any is left out. -/
def keptOf (n : ℕ) (redacted : List (List Char)) : List (List Char) :=
  (redacted.take n).map clip ++ if n < redacted.length then [ellipsis] else []

/-- An array leaves room: behind all but its last element the marker would still be within the
bound. -/
def LeavesRoom (elements : List (List Char)) : Prop :=
  bytesOf elements.dropLast + byteLength ellipsis ≤ maxArrayBytes

/-- What became of an attribute: left out, withheld with its name, or written. -/
inductive Fate where
  | dropped
  | omitted
  | written (value : Value) (wasCut : Bool) (withheld : ℕ)

namespace Fate

/-- How many values were cut. -/
def cuts : Fate → ℕ
  | written _ wasCut _ => wasCut.toNat
  | _ => 0

/-- How many attributes were dropped. -/
def drops : Fate → ℕ
  | dropped => 1
  | _ => 0

/-- How many values, or elements, were withheld. -/
def withholds : Fate → ℕ
  | omitted => 1
  | written _ _ withheld => withheld
  | dropped => 0

/-- The attributes with what is written of this one. -/
def into (key : String) (attributes : Attributes) : Fate → Attributes
  | written value _ _ => attributes.insert key value
  | _ => attributes

end Fate

/-- A text within the bound is kept as redacted; one over it is named by an occurrence, or cut
behind one of its characters. -/
def TextBounded (redacted : List Char) (value : Value) (wasCut : Bool) : Prop :=
  if byteLength redacted ≤ maxStringBytes then
    value = .string (String.ofList redacted) ∧ wasCut = false
  else
    (∃ occurrence, value = occurrenceValue occurrence ∧ wasCut = false) ∨
      ∃ kept rest, redacted = kept ++ rest ∧ value = .string (String.ofList (kept ++ ellipsis)) ∧
        wasCut = true

/-- An array is a beginning of the redacted one, cut element by element, with the marker last where
any is left out, and is cut where any is left out or cut. **Within all three bounds it is kept
unchanged.** -/
def ArrayBounded (redacted : List (List Char)) (value : Value) (wasCut : Bool) : Prop :=
  (∃ n ≤ redacted.length, value = arrayValue (keptOf n redacted) ∧
    (wasCut = true ↔
      n < redacted.length ∨ ∃ element ∈ redacted, maxStringBytes < byteLength element)) ∧
    (textsOver (redacted.map byteLength) = false → value = arrayValue redacted ∧ wasCut = false)

section Fates

variable (M : Machine) (R : Redactor)

/-- What the rules make of one element of the array under `key`. -/
def judgeElement (key : String) : Attr → List Char → Option (List Char × Bool)
  | .texts _ => if key = harnessIds then judgeHarnessId M R else R.value M
  | _ => judgeId M R key

/-- The elements of an array. -/
def Attr.elements : Attr → List (List Char)
  | .texts values => values
  | .ids identities => identities
  | _ => []

/-- Whether an array is offered when it is over its bound. -/
def Attr.isOffered (key : String) : Attr → Bool
  | .texts _ => key ≠ harnessIds
  | _ => false

/-- What is written of an array: an occurrence, when it is offered over its bound, or the array
bounded, with the elements withheld that the rules withhold. -/
def ArrayWritten (key : String) (attr : Attr) (value : Value) (wasCut : Bool) (withheld : ℕ) :
    Prop :=
  (attr.isOffered key = true ∧ textsOver (attr.elements.map byteLength) = true ∧
    (∃ occurrence, value = occurrenceValue occurrence) ∧ wasCut = false ∧ withheld = 0) ∨
  ∃ judged, attr.elements.mapM (judgeElement M R key attr) = some judged ∧
    withheld = withheldIn judged ∧
      (ArrayBounded (judged.map Prod.fst) value wasCut ∨
        attr.isOffered key = true ∧ textsOver ((judged.map Prod.fst).map byteLength) = true ∧
          (∃ occurrence, value = occurrenceValue occurrence) ∧ wasCut = false)

/-- What is written of an attribute whose name withholds nothing. -/
def WrittenAs (key : String) (attr : Attr) (value : Value) (wasCut : Bool) (withheld : ℕ) : Prop :=
  match attr with
  | .text text => ∃ redacted flag, R.value M text = some (redacted, flag) ∧
      TextBounded redacted value wasCut ∧ withheld = flag.toNat
  | .id id => ∃ redacted flag, judgeId M R key id = some (redacted, flag) ∧
      TextBounded redacted value wasCut ∧ withheld = flag.toNat
  | .enum text => value = .string text.text ∧ wasCut = false ∧ withheld = 0
  | .decimal text => value = .string text ∧ wasCut = false ∧ withheld = 0
  | .int n => value = .int n.toInt ∧ wasCut = false ∧ withheld = 0
  | .float number => (∃ x, number = some x ∧ value = .float x) ∧ wasCut = false ∧ withheld = 0
  | .bool b => value = .bool b ∧ wasCut = false ∧ withheld = 0
  | .texts values => ArrayWritten M R key (.texts values) value wasCut withheld
  | .ids ids => ArrayWritten M R key (.ids ids) value wasCut withheld

/-- A value that cannot be recorded: a decimal that is not canonical, a double that is not finite. -/
def Attr.invalid : Attr → Bool
  | .decimal value => !isCanonicalDecimal value
  | .float number => number.isNone
  | _ => false

/-- Whether the attribute is left out, when its name passes for no credential. -/
def isDropped (full : Bool) (key : String) (attr : Attr) : Bool :=
  byteLength key.toList > maxKeyBytes || counterNames.contains key || full ||
    (!withheldByName key attr && attr.invalid)

/-- **The fate is what became of the attribute**: it is dropped as a mistyped counter, omitted when
its name passes for a credential, dropped for its name, for want of room or for its value, has its
value withheld by its name, or is written. -/
def Became (full : Bool) (key : String) (attr : Attr) (fate : Fate) : Prop :=
  if mistypedCounter key attr then fate = .dropped
  else if looksLikeCredential key.toList = some true then fate = .omitted
  else if isDropped full key attr then fate = .dropped
  else if withheldByName key attr then fate = .written (.string withheldValue) false 1
  else ∃ value wasCut withheld, fate = .written value wasCut withheld ∧
    WrittenAs M R key attr value wasCut withheld

variable {σ : Type} (P : Publisher σ)

/-- **The fates account for the run**: after each attribute, the attributes hold what was written of
it, and the counters have counted what was cut, dropped and withheld. -/
inductive Accounts : Bounded σ → List (String × Attr) → List Fate → Bounded σ → Prop
  | done (out : Bounded σ) : Accounts out [] [] out
  | step {out next result : Bounded σ} {key : String} {attr : Attr}
      {attrs : List (String × Attr)} {fate : Fate} {fates : List Fate}
      (hstep : boundAttribute M R P out (key, attr) = some next)
      (hbecame : Became M R (out.attributes.members.length ≥ room) key attr fate)
      (hattributes : next.attributes = fate.into key out.attributes)
      (hcounters : next.counters = (out.count fate.cuts fate.drops fate.withholds).counters)
      (hrest : Accounts next attrs fates result) :
      Accounts out ((key, attr) :: attrs) (fate :: fates) result

/-- A value within its bounds. -/
def Within : Value → Prop
  | .string text => byteLength text.toList ≤ maxStringBytes
  | .array items => ∃ elements, items = elements.map (fun element => .string (String.ofList element)) ∧
      ArrayWithin elements
  | _ => True

/-- The texts the rules judge whole. -/
def judgedTexts (key : String) : Attr → List (List Char)
  | .text text => [text]
  | .id id => if isIdentityPosition key && isKernelIdentity id then [] else [id]
  | .texts values =>
    if key = harnessIds then
      values.map fun element => ((harnessOriginal element).map Prod.snd).getD element
    else values
  | .ids ids => ids.filter fun id => !(isIdentityPosition key && isKernelIdentity id)
  | _ => []

/-- Whether the attribute, behind the names that are written, has its value judged and bounded. -/
def isReached (names : List String) (key : String) (attr : Attr) : Bool :=
  !mistypedCounter key attr && looksLikeCredential key.toList = some false &&
    !isDropped (names.length ≥ room) key attr && !withheldByName key attr

/-- What one attribute must meet: its name, and the texts of a value that is reached, have no wide
address, and an array that is within the bounds as redacted leaves room. -/
structure Meets (names : List String) (key : String) (attr : Attr) : Prop where
  name : mistypedCounter key attr = false → ¬ WideAddress key.toList
  texts : isReached names key attr = true → ∀ text ∈ judgedTexts key attr, ¬ WideAddress text
  room : isReached names key attr = true → ∀ judged,
    attr.elements.mapM (judgeElement M R key attr) = some judged →
    ArrayWithin (judged.map Prod.fst) → LeavesRoom (judged.map Prod.fst)

section Judging

variable {M : Machine} {R : Redactor}

theorem isSome_value {text : List Char} : (R.value M text).isSome = true ↔ ¬ WideAddress text := by
  rw [← isSome_looksLikeCredential, Redactor.value]
  cases looksLikeCredential text with
  | none => simp
  | some judged => cases judged <;> simp

end Judging

/-! ## Counting -/

/-- The same attributes, and so many more values counted. -/
structure Counted {σ : Type} (out next : Bounded σ) (truncated dropped redacted : ℕ) : Prop where
  attributes : next.attributes = out.attributes
  counters : next.counters = (out.count truncated dropped redacted).counters

theorem count_count {σ : Type} (out : Bounded σ) (a b c a' b' c' : ℕ) :
    (out.count a b c).count a' b' c' = out.count (a + a') (b + b') (c + c') := by
  simp [Bounded.count, UInt64.ofNat_add, add_assoc]

@[simp]
theorem count_zero {σ : Type} (out : Bounded σ) : out.count 0 0 0 = out := by
  simp [Bounded.count]

namespace Counted

variable {σ : Type} {out next : Bounded σ} {a b c : ℕ}

theorem refl (out : Bounded σ) : Counted out out 0 0 0 := ⟨rfl, by rw [count_zero]⟩

theorem count (h : Counted out next a b c) (a' b' c' : ℕ) :
    Counted out (next.count a' b' c') (a + a') (b + b') (c + c') where
  attributes := h.attributes
  counters := by
    rw [← count_count]
    simp only [Bounded.count, h.counters]

theorem offer (h : Counted out next a b c) (P : Publisher σ) (key : String) (value : Oversized) :
    Counted out (next.offer P key value).2 a b c := ⟨h.attributes, h.counters⟩

end Counted

section Specs

variable {σ : Type} {M : Machine} {R : Redactor} {P : Publisher σ} {key : String}

/-- The names that are recorded. -/
def Attributes.names (attributes : Attributes) : List String := attributes.members.map Prod.fst

theorem length_insert_le (attributes : Attributes) (name : String) (value : Value) :
    (attributes.insert name value).members.length ≤ attributes.members.length + 1 := by
  rw [Attributes.insert]
  dsimp only
  split_ifs
  · rw [List.length_map]
    exact Nat.le_succ _
  · rw [List.length_append]
    rfl

theorem mem_insert {attributes : Attributes} {name : String} {value : Value}
    {member : String × Value} (h : member ∈ (attributes.insert name value).members) :
    member ∈ attributes.members ∨ member.2 = value := by
  rw [Attributes.insert] at h
  dsimp only at h
  split_ifs at h
  · obtain ⟨old, hold, rfl⟩ := List.mem_map.mp h
    by_cases heq : old.1 = name
    · exact .inr (by rw [if_pos heq])
    · exact .inl (by rwa [if_neg heq])
  · rcases List.mem_append.mp h with hold | hnew
    · exact .inl hold
    · exact .inr (congrArg Prod.snd (List.mem_singleton.mp hnew))

end Specs

/-! ## What the condition is needed for -/

section Needed

variable {M : Machine} {R : Redactor} {key : String}

end Needed

/-! ## The bounds -/

/-- So many blanks. -/
def blanks (n : ℕ) : List Char := List.replicate n ' '

@[simp]
theorem byteLength_blanks (n : ℕ) : byteLength (blanks n) = n := by
  simp [blanks, byteLength, Char.utf8Size]

/-! ### Blanks are judged -/

section Blanks

open Redaction TextSearch

end Blanks

end Fates

end Telemetry

end Afactory
