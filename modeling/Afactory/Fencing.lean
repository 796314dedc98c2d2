import Mathlib.Data.String.Basic
import Mathlib.Data.List.Nodup
import Afactory.OrdMap
import Afactory.Runs

/-!
# Attempt lifecycle and fencing

The `AttemptLedger` of `review-attempt/src/fencing.rs`: one record per Attempt,
the current epoch of every node, and the total charged. Dispatching a node
supersedes its earlier Attempt, fencing revokes the node's current epoch, and
admitting a receipt decides once whether its output may be selected.

Attempt identities are the first 26 hex digits of a SHA-256 digest over the
namespace, the node and the epoch. The digest is the `sha256` parameter of this
development; `IdsDistinct` states what the ledger relies on, that the
identities of the epochs the ledger has reached differ.

A `u64` epoch that cannot be incremented stops `dispatch` (`none`); charges are
`u128` values and their checked sums are compared with `2 ^ 128`.
-/

namespace Afactory

/-- The identity of an Attempt. -/
abbrev AttemptId := String

/-- The bound of a `u64` value. -/
def u64Bound : ℕ := 2 ^ 64

/-- `u64::saturating_add`. -/
def saturatingAdd (a b : ℕ) : ℕ := min (a + b) (u64Bound - 1)

/-- The bound of a `u128` value. -/
def u128Bound : ℕ := 2 ^ 128

/-! ## Attempt identities -/

/-- The eight big-endian bytes of a `u64`. -/
def beBytes (n : ℕ) : List UInt8 :=
  [56, 48, 40, 32, 24, 16, 8, 0].map fun s => UInt8.ofNat (n >>> s)

theorem length_beBytes (n : ℕ) : (beBytes n).length = 8 := rfl

/-- What is above a byte and the byte give what the byte begins. -/
theorem shiftRight_eq {m n s : ℕ} (hhigh : m >>> (s + 8) = n >>> (s + 8))
    (hbyte : (m >>> s) % 256 = (n >>> s) % 256) : m >>> s = n >>> s := by
  rw [Nat.shiftRight_add, Nat.shiftRight_add, Nat.shiftRight_eq_div_pow (m >>> s),
    Nat.shiftRight_eq_div_pow (n >>> s)] at hhigh
  omega

theorem beBytes_inj {m n : ℕ} (hm : m < u64Bound) (hn : n < u64Bound)
    (h : beBytes m = beBytes n) : m = n := by
  simp only [beBytes, List.map_cons, List.map_nil, List.cons.injEq, and_true,
    ← UInt8.toNat_inj, UInt8.toNat_ofNat', Nat.reducePow] at h
  obtain ⟨h₅₆, h₄₈, h₄₀, h₃₂, h₂₄, h₁₆, h₈, h₀⟩ := h
  -- nothing is above the first byte
  have htop : m >>> (56 + 8) = n >>> (56 + 8) := by
    rw [Nat.shiftRight_eq_zero m _ hm, Nat.shiftRight_eq_zero n _ hn]
  have hfrom₅₆ := shiftRight_eq htop h₅₆
  have hfrom₄₈ := shiftRight_eq (s := 48) hfrom₅₆ h₄₈
  have hfrom₄₀ := shiftRight_eq (s := 40) hfrom₄₈ h₄₀
  have hfrom₃₂ := shiftRight_eq (s := 32) hfrom₄₀ h₃₂
  have hfrom₂₄ := shiftRight_eq (s := 24) hfrom₃₂ h₂₄
  have hfrom₁₆ := shiftRight_eq (s := 16) hfrom₂₄ h₁₆
  have hfrom₈ := shiftRight_eq (s := 8) hfrom₁₆ h₈
  exact shiftRight_eq (s := 0) hfrom₈ h₀

/-- The lowercase hex digit of a value below 16. -/
def hexDigit (n : ℕ) : Char :=
  if n < 10 then Char.ofNat (48 + n) else Char.ofNat (87 + n)

/-- Two lowercase hex digits per byte. -/
def hexEncode (bytes : List UInt8) : List Char :=
  bytes.flatMap fun b => [hexDigit (b.toNat / 16), hexDigit (b.toNat % 16)]

/-- The UTF-8 bytes of a text. -/
def utf8 (s : String) : List UInt8 := s.toUTF8.data.toList

/-- The digested message: every part behind its length. -/
def scopedMessage (roundEventId node : String) (epoch : ℕ) : List UInt8 :=
  [utf8 roundEventId, utf8 node, beBytes epoch].flatMap fun part =>
    beBytes part.length ++ part

/-- `AttemptId::scoped`: the identity of an epoch of a node under one durable
Round event. -/
def AttemptId.scoped (sha256 : List UInt8 → List UInt8) (roundEventId node : String)
    (epoch : ℕ) : AttemptId :=
  String.ofList ((hexEncode (sha256 (scopedMessage roundEventId node epoch))).take 26)

/-! ## The ledger -/

/-- Where an Attempt is in its life. -/
inductive AttemptState where
  /-- dispatched and not yet answered -/
  | running
  /-- completed while still current: its output is selected -/
  | selected
  /-- fenced before it delivered -/
  | fenced
  /-- delivered after being fenced: recorded and charged, never selected -/
  | quarantined
  deriving DecidableEq, Repr

/-- One execution of one node. -/
structure Attempt where
  id : AttemptId
  node : String
  epoch : ℕ
  state : AttemptState
  /-- cost charged, whether or not the output was ever used -/
  charged : ℕ
  deriving DecidableEq, Repr

/-- An Attempt's delivery with its exact cumulative cost. -/
structure ExactReceipt where
  attempt : AttemptId
  cost : ℕ
  deriving DecidableEq, Repr

/-- The outcome of admitting a receipt. -/
inductive Selection where
  /-- the Attempt was current: its output may feed downstream nodes -/
  | selected
  /-- the Attempt had been fenced: recorded and charged, never downstream -/
  | quarantined
  deriving DecidableEq, Repr

/-- Every Attempt of one namespace and the current epoch of every node. -/
structure AttemptLedger where
  attempts : OrdMap AttemptId Attempt
  chargedTotal : ℕ
  /-- the current epoch per node; a receipt from any earlier epoch is late -/
  current : OrdMap String ℕ
  /-- the durable event every identity is scoped to -/
  space : String
  deriving DecidableEq

/-- `AttemptLedger::scoped`: reconstruct the next epoch per node from the
number of Attempts each one had. -/
def AttemptLedger.scoped (space : String) (priorAttemptCounts : OrdMap String ℕ) : AttemptLedger where
  attempts := .empty
  chargedTotal := 0
  current := .ofList (priorAttemptCounts.entries.filterMap fun p =>
    if p.2 = 0 then none else some (p.1, p.2 - 1))
  space := space

namespace AttemptLedger

/-- The record of an Attempt. -/
def attempt (L : AttemptLedger) (id : AttemptId) : Option Attempt := L.attempts.get id

/-- The ledger with one Attempt's record replaced. -/
def setAttempt (L : AttemptLedger) (id : AttemptId) (a : Attempt) : AttemptLedger :=
  { L with attempts := L.attempts.insert id a }

section Identities

variable (sha256 : List UInt8 → List UInt8)

/-- The identity of an epoch of a node in this ledger. -/
def id (L : AttemptLedger) (node : String) (epoch : ℕ) : AttemptId :=
  AttemptId.scoped sha256 L.space node epoch

/-- Revoke the node's current epoch. Idempotent: only a running Attempt changes. -/
def fence (L : AttemptLedger) (node : String) : AttemptLedger :=
  match L.current.get node with
  | none => L
  | some epoch =>
    match L.attempts.get (L.id sha256 node epoch) with
    | none => L
    | some a =>
      if a.state = .running then
        L.setAttempt (L.id sha256 node epoch) { a with state := .fenced }
      else L

/-- The epoch the next Attempt of a node gets; `none` when it leaves `u64`. -/
def nextEpoch (L : AttemptLedger) (node : String) : Option ℕ :=
  match L.current.get node with
  | none => some 0
  | some e => if e + 1 < u64Bound then some (e + 1) else none

/-- Dispatch a new Attempt for a node, superseding any earlier one. -/
def dispatch (L : AttemptLedger) (node : String) : Option (AttemptId × AttemptLedger) :=
  (L.nextEpoch node).map fun epoch =>
    let L' := if 0 < epoch then L.fence sha256 node else L
    let id := L'.id sha256 node epoch
    (id, { L' with
      current := L'.current.insert node epoch
      attempts := L'.attempts.insert id ⟨id, node, epoch, .running, 0⟩ })

end Identities

/-- `set_charge`: replace an Attempt's charge, checking the new total. -/
def setCharge (L : AttemptLedger) (attempt : AttemptId) (amount : ℕ) :
    Except String AttemptLedger :=
  match L.attempts.get attempt with
  | none => .ok L
  | some existing =>
    if existing.charged ≤ L.chargedTotal ∧
        L.chargedTotal - existing.charged + amount < u128Bound then
      .ok { L.setAttempt attempt { existing with charged := amount } with
        chargedTotal := L.chargedTotal - existing.charged + amount }
    else .error "Attempt charge total overflow"

/-- `charge_exact`: record spend for an Attempt as a cumulative floor. -/
def chargeExact (L : AttemptLedger) (attempt : AttemptId) (amount : ℕ) :
    Except String AttemptLedger :=
  match L.attempts.get attempt with
  | none => .ok L
  | some existing => L.setCharge attempt (max amount existing.charged)

/-- `select_receipt`: the Attempt is selected when it is its node's current one
and not fenced; every other receipt quarantines it. -/
def selectReceipt (L : AttemptLedger) (attempt : AttemptId) : Selection × AttemptLedger :=
  match L.attempts.get attempt with
  | none => (.quarantined, L)
  | some a =>
    if L.current.get a.node = some a.epoch ∧ a.state ≠ .fenced then
      (.selected, L.setAttempt attempt { a with state := .selected })
    else (.quarantined, L.setAttempt attempt { a with state := .quarantined })

/-- `admit_exact`: charge the receipt, then decide its selection. -/
def admitExact (L : AttemptLedger) (receipt : ExactReceipt) :
    Except String (Selection × AttemptLedger) :=
  (L.chargeExact receipt.attempt receipt.cost).map fun L' => L'.selectReceipt receipt.attempt

/-! ## What the ledger relies on -/

/-- Every epoch the ledger has reached, node by node. -/
def reached (L : AttemptLedger) : List (String × ℕ) :=
  L.current.entries.flatMap fun p => (List.range (p.2 + 1)).map fun e => (p.1, e)

/-- The identities of the reached epochs differ: no digest prefix collides. -/
def IdsDistinct (sha256 : List UInt8 → List UInt8) (L : AttemptLedger) : Prop :=
  (L.reached.map fun p => L.id sha256 p.1 p.2).Nodup

instance (sha256 : List UInt8 → List UInt8) (L : AttemptLedger) :
    Decidable (L.IdsDistinct sha256) := inferInstanceAs (Decidable (List.Nodup _))

theorem mem_reached {L : AttemptLedger} {n : String} {e : ℕ} :
    (n, e) ∈ L.reached ↔ ∃ c, L.current.get n = some c ∧ e ≤ c := by
  simp only [reached, List.mem_flatMap, List.mem_map, List.mem_range, Prod.mk.injEq]
  constructor
  · rintro ⟨⟨n', c⟩, hmem, e', he, rfl, rfl⟩
    exact ⟨c, OrdMap.mem_iff_get.mp hmem, Nat.le_of_lt_succ he⟩
  · rintro ⟨c, hc, he⟩
    exact ⟨(n, c), OrdMap.mem_iff_get.mpr hc, e, Nat.lt_succ_of_le he, rfl, rfl⟩

variable {sha256 : List UInt8 → List UInt8}

theorem IdsDistinct.inj {L : AttemptLedger} (h : L.IdsDistinct sha256) {n n' : String}
    {e e' : ℕ} (hn : (n, e) ∈ L.reached) (hn' : (n', e') ∈ L.reached)
    (heq : L.id sha256 n e = L.id sha256 n' e') : n = n' ∧ e = e' := by
  have := List.inj_on_of_nodup_map h hn hn' heq
  exact ⟨congrArg Prod.fst this, congrArg Prod.snd this⟩

/-- Well-formedness: every record sits at the identity of its node and epoch,
that epoch has been reached, and the total is the sum of the charges. -/
structure Wf (sha256 : List UInt8 → List UInt8) (L : AttemptLedger) : Prop where
  id_eq : ∀ {id a}, L.attempts.get id = some a → id = L.id sha256 a.node a.epoch
  reach : ∀ {id a}, L.attempts.get id = some a → (a.node, a.epoch) ∈ L.reached
  total : L.chargedTotal = L.attempts.sum fun _ a => a.charged

theorem wf_scoped (space : String) (prior : OrdMap String ℕ) :
    (AttemptLedger.scoped space prior).Wf sha256 where
  id_eq h := by cases h
  reach h := by cases h
  total := rfl

/-! ## What each operation does -/

@[simp] theorem setAttempt_current (L : AttemptLedger) (id : AttemptId) (a : Attempt) :
    (L.setAttempt id a).current = L.current := rfl

@[simp] theorem setAttempt_space (L : AttemptLedger) (id : AttemptId) (a : Attempt) :
    (L.setAttempt id a).space = L.space := rfl

@[simp] theorem setAttempt_chargedTotal (L : AttemptLedger) (id : AttemptId) (a : Attempt) :
    (L.setAttempt id a).chargedTotal = L.chargedTotal := rfl

theorem setAttempt_get (L : AttemptLedger) (id id' : AttemptId) (a : Attempt) :
    (L.setAttempt id a).attempts.get id' = if id' = id then some a else L.attempts.get id' :=
  L.attempts.get_insert id id' a

/-- Replacing a record by one of the same node, epoch and charge keeps the
ledger well formed. -/
theorem Wf.setAttempt {L : AttemptLedger} (h : L.Wf sha256) {id : AttemptId} {a a' : Attempt}
    (ha : L.attempts.get id = some a) (hn : a'.node = a.node) (he : a'.epoch = a.epoch)
    (hc : a'.charged = a.charged) : (L.setAttempt id a').Wf sha256 := by
  refine ⟨fun {i b} hb => ?_, fun {i b} hb => ?_, ?_⟩
  · rw [setAttempt_get] at hb
    split_ifs at hb with hi
    · obtain rfl := Option.some.inj hb
      rw [hi, hn, he]
      exact h.id_eq ha
    · exact h.id_eq hb
  · rw [setAttempt_get] at hb
    split_ifs at hb with hi
    · obtain rfl := Option.some.inj hb
      rw [hn, he]
      exact h.reach ha
    · exact h.reach hb
  · have := OrdMap.sum_insert_of_some ha a' fun _ a => a.charged
    rw [setAttempt_chargedTotal, h.total]
    simp only [AttemptLedger.setAttempt]
    omega

/-- **Fencing** changes at most one record, the running one of the node's
current epoch, and only its state. -/
theorem fence_cases (sha256 : List UInt8 → List UInt8) (L : AttemptLedger) (node : String) :
    L.fence sha256 node = L ∨
      ∃ e a, L.current.get node = some e ∧ L.attempts.get (L.id sha256 node e) = some a ∧
        a.state = .running ∧
        L.fence sha256 node =
          L.setAttempt (L.id sha256 node e) { a with state := .fenced } := by
  unfold fence
  rcases hc : L.current.get node with _ | e
  · exact .inl rfl
  rcases ha : L.attempts.get (L.id sha256 node e) with _ | a
  · exact .inl (by simp [ha])
  by_cases hs : a.state = .running
  · exact .inr ⟨e, a, rfl, ha, hs, by simp [ha, hs]⟩
  · exact .inl (by simp [ha, hs])

@[simp] theorem fence_current (L : AttemptLedger) (node : String) :
    (L.fence sha256 node).current = L.current := by
  rcases fence_cases sha256 L node with h | ⟨e, a, -, -, -, h⟩ <;> rw [h]
  rfl

@[simp] theorem fence_space (L : AttemptLedger) (node : String) :
    (L.fence sha256 node).space = L.space := by
  rcases fence_cases sha256 L node with h | ⟨e, a, -, -, -, h⟩ <;> rw [h]
  rfl

@[simp] theorem fence_chargedTotal (L : AttemptLedger) (node : String) :
    (L.fence sha256 node).chargedTotal = L.chargedTotal := by
  rcases fence_cases sha256 L node with h | ⟨e, a, -, -, -, h⟩ <;> rw [h]
  rfl

theorem Wf.fence {L : AttemptLedger} (h : L.Wf sha256) (node : String) :
    (L.fence sha256 node).Wf sha256 := by
  rcases fence_cases sha256 L node with hf | ⟨e, a, -, ha, -, hf⟩ <;> rw [hf]
  · exact h
  · exact h.setAttempt ha rfl rfl rfl

/-- What fencing leaves of a record. -/
theorem fence_get (sha256 : List UInt8 → List UInt8) {L : AttemptLedger} (node : String)
    {id : AttemptId} {a : Attempt} (ha : L.attempts.get id = some a) :
    (L.fence sha256 node).attempts.get id = some a ∨
      (a.state = .running ∧ (∃ e, L.current.get node = some e ∧ id = L.id sha256 node e) ∧
        (L.fence sha256 node).attempts.get id = some { a with state := .fenced }) := by
  rcases fence_cases sha256 L node with hf | ⟨e, b, he, hb, hs, hf⟩ <;> rw [hf]
  · exact .inl ha
  · rw [setAttempt_get]
    split_ifs with hid
    · rw [hid, hb] at ha
      obtain rfl := Option.some.inj ha
      exact .inr ⟨hs, ⟨e, he, hid⟩, rfl⟩
    · exact .inl ha

theorem fence_of_current_none {L : AttemptLedger} {node : String}
    (h : L.current.get node = none) : L.fence sha256 node = L := by
  simp [fence, h]

/-- **Dispatching** fences the node's current Attempt and records a running one
at the next epoch. -/
theorem dispatch_eq_some {L L' : AttemptLedger} {node : String} {id : AttemptId}
    (h : L.dispatch sha256 node = some (id, L')) :
    ∃ epoch, L.nextEpoch node = some epoch ∧ id = L.id sha256 node epoch ∧
      L' = { L.fence sha256 node with
        current := L.current.insert node epoch
        attempts := (L.fence sha256 node).attempts.insert id ⟨id, node, epoch, .running, 0⟩ } := by
  unfold dispatch at h
  obtain ⟨epoch, hn, he⟩ := Option.map_eq_some_iff.mp h
  refine ⟨epoch, hn, ?_⟩
  -- At epoch 0 the node has no current epoch, so fencing it would change nothing.
  have hfence : (if 0 < epoch then L.fence sha256 node else L) = L.fence sha256 node := by
    split_ifs with hpos
    · rfl
    · refine (fence_of_current_none ?_).symm
      rcases hc : L.current.get node with _ | e
      · rfl
      · simp only [nextEpoch, hc] at hn
        split_ifs at hn
        obtain rfl := Option.some.inj hn
        omega
  simp only [hfence, fence_current] at he
  obtain ⟨rfl, rfl⟩ := Prod.mk.inj he
  simp [AttemptLedger.id]

theorem nextEpoch_gt {L : AttemptLedger} {node : String} {epoch c : ℕ}
    (h : L.nextEpoch node = some epoch) (hc : L.current.get node = some c) : epoch = c + 1 := by
  simp only [nextEpoch, hc] at h
  split_ifs at h
  exact (Option.some.inj h).symm

theorem dispatch_reached {L L' : AttemptLedger} {node : String} {id : AttemptId}
    (h : L.dispatch sha256 node = some (id, L')) : L.reached ⊆ L'.reached := by
  obtain ⟨epoch, hn, -, rfl⟩ := dispatch_eq_some h
  rintro ⟨n, e⟩ hmem
  obtain ⟨c, hc, he⟩ := mem_reached.mp hmem
  rw [mem_reached, OrdMap.get_insert]
  split_ifs with hnode
  · subst hnode
    have := nextEpoch_gt hn hc
    exact ⟨epoch, rfl, by omega⟩
  · exact ⟨c, hc, he⟩

/-- The identity a dispatch records is new: its epoch is past every reached one,
and distinct epochs have distinct identities. -/
theorem Wf.dispatch_fresh {L L' : AttemptLedger} {node : String} {id : AttemptId}
    (hw : L.Wf sha256) (h : L.dispatch sha256 node = some (id, L'))
    (hd : L'.IdsDistinct sha256) : L.attempts.get id = none := by
  have hgrow := dispatch_reached h
  obtain ⟨epoch, hn, hid, rfl⟩ := dispatch_eq_some h
  rcases ha : L.attempts.get id with _ | a
  · rfl
  exfalso
  have heq := (hw.id_eq ha).symm.trans hid
  obtain ⟨hnode, hepoch⟩ := hd.inj (hgrow (hw.reach ha))
    (mem_reached.mpr ⟨epoch, L.current.get_insert_self node epoch, le_refl epoch⟩)
    (by simpa [AttemptLedger.id] using heq)
  obtain ⟨c, hc, hle⟩ := mem_reached.mp (hw.reach ha)
  have := nextEpoch_gt hn (hnode ▸ hc)
  omega

/-- What a dispatch leaves of the records: the new one is running, the others
are what fencing the node leaves of them. -/
theorem Wf.dispatch_get {L L' : AttemptLedger} {node : String} {id id' : AttemptId} {a : Attempt}
    (hw : L.Wf sha256) (h : L.dispatch sha256 node = some (id, L'))
    (hd : L'.IdsDistinct sha256) (ha : L.attempts.get id' = some a) :
    L'.attempts.get id' = some a ∨
      (a.state = .running ∧ (∃ e, L.current.get node = some e ∧ id' = L.id sha256 node e) ∧
        L'.attempts.get id' = some { a with state := .fenced }) := by
  have hfresh := hw.dispatch_fresh h hd
  obtain ⟨epoch, -, -, rfl⟩ := dispatch_eq_some h
  have hne : id' ≠ id := by
    rintro rfl
    rw [hfresh] at ha
    cases ha
  rw [OrdMap.get_insert_ne _ _ hne]
  exact fence_get sha256 node ha

theorem fence_get_none (sha256 : List UInt8 → List UInt8) {L : AttemptLedger} (node : String)
    {id : AttemptId} (h : L.attempts.get id = none) : (L.fence sha256 node).attempts.get id = none := by
  rcases fence_cases sha256 L node with hf | ⟨e, a, -, ha, -, hf⟩ <;> rw [hf]
  · exact h
  · rw [setAttempt_get, if_neg]
    · exact h
    · rintro rfl
      rw [h] at ha
      cases ha

theorem Wf.dispatch {L L' : AttemptLedger} {node : String} {id : AttemptId}
    (hw : L.Wf sha256) (h : L.dispatch sha256 node = some (id, L'))
    (hd : L'.IdsDistinct sha256) : L'.Wf sha256 := by
  have hfresh := fence_get_none sha256 node (hw.dispatch_fresh h hd)
  have hgrow := dispatch_reached h
  have hwf := hw.fence node
  obtain ⟨epoch, -, hid, rfl⟩ := dispatch_eq_some h
  refine ⟨fun {i b} hb => ?_, fun {i b} hb => ?_, ?_⟩
  · rw [OrdMap.get_insert] at hb
    split_ifs at hb with hi
    · obtain rfl := Option.some.inj hb
      simpa [AttemptLedger.id] using hi.trans hid
    · simpa [AttemptLedger.id] using hwf.id_eq hb
  · rw [OrdMap.get_insert] at hb
    split_ifs at hb with hi
    · obtain rfl := Option.some.inj hb
      exact mem_reached.mpr ⟨epoch, L.current.get_insert_self node epoch, le_refl _⟩
    · have := hwf.reach hb
      rw [reached, fence_current] at this
      exact hgrow this
  · rw [OrdMap.sum_insert_of_none hfresh]
    exact hwf.total

/-- **Charging** changes no state: an accepted charge raises one record to the
floor it names and moves the total by the same amount. -/
theorem chargeExact_eq_ok {L L' : AttemptLedger} {id : AttemptId} {amount : ℕ}
    (h : L.chargeExact id amount = .ok L') :
    (L.attempts.get id = none ∧ L' = L) ∨
      ∃ a, L.attempts.get id = some a ∧ a.charged ≤ L.chargedTotal ∧
        L' = { L.setAttempt id { a with charged := max amount a.charged } with
          chargedTotal := L.chargedTotal - a.charged + max amount a.charged } := by
  unfold chargeExact at h
  rcases ha : L.attempts.get id with _ | a
  · rw [ha] at h
    exact .inl ⟨rfl, (Except.ok.inj h).symm⟩
  · simp only [ha, setCharge] at h
    split_ifs at h with hle
    exact .inr ⟨a, rfl, hle.1, (Except.ok.inj h).symm⟩

theorem chargeExact_current {L L' : AttemptLedger} {id : AttemptId} {amount : ℕ}
    (h : L.chargeExact id amount = .ok L') : L'.current = L.current ∧ L'.space = L.space := by
  rcases chargeExact_eq_ok h with ⟨-, rfl⟩ | ⟨a, -, -, rfl⟩ <;> exact ⟨rfl, rfl⟩

/-- What a charge leaves of a record. -/
theorem chargeExact_get {L L' : AttemptLedger} {id id' : AttemptId} {amount : ℕ} {a : Attempt}
    (h : L.chargeExact id amount = .ok L') (ha : L.attempts.get id' = some a) :
    L'.attempts.get id' =
      some (if id' = id then { a with charged := max amount a.charged } else a) := by
  rcases chargeExact_eq_ok h with ⟨hnone, rfl⟩ | ⟨b, hb, -, rfl⟩
  · have : id' ≠ id := by
      rintro rfl
      rw [hnone] at ha
      cases ha
    rw [if_neg this, ha]
  · simp only [setAttempt_get]
    split_ifs with hid
    · rw [hid, hb] at ha
      obtain rfl := Option.some.inj ha
      rfl
    · exact ha

theorem Wf.chargeExact {L L' : AttemptLedger} {id : AttemptId} {amount : ℕ}
    (hw : L.Wf sha256) (h : L.chargeExact id amount = .ok L') : L'.Wf sha256 := by
  rcases chargeExact_eq_ok h with ⟨-, rfl⟩ | ⟨a, ha, hle, rfl⟩
  · exact hw
  refine ⟨fun {i b} hb => ?_, fun {i b} hb => ?_, ?_⟩
  · simp only [setAttempt_get] at hb
    split_ifs at hb with hi
    · obtain rfl := Option.some.inj hb
      have := hw.id_eq ha
      rw [hi]
      exact this
    · exact hw.id_eq hb
  · simp only [setAttempt_get] at hb
    split_ifs at hb with hi
    · obtain rfl := Option.some.inj hb
      have := hw.reach ha
      exact this
    · exact hw.reach hb
  · have := OrdMap.sum_insert_of_some ha { a with charged := max amount a.charged }
      fun _ a => a.charged
    have htot := hw.total
    simp only [AttemptLedger.setAttempt]
    simp only at this
    omega

/-- **Selecting** writes exactly one of the two final states. -/
theorem selectReceipt_get {L : AttemptLedger} {id : AttemptId} {a : Attempt}
    (ha : L.attempts.get id = some a) :
    (L.current.get a.node = some a.epoch ∧ a.state ≠ .fenced ∧
        L.selectReceipt id = (.selected, L.setAttempt id { a with state := .selected })) ∨
      (¬ (L.current.get a.node = some a.epoch ∧ a.state ≠ .fenced) ∧
        L.selectReceipt id =
          (.quarantined, L.setAttempt id { a with state := .quarantined })) := by
  unfold selectReceipt
  simp only [ha]
  split_ifs with h
  · exact .inl ⟨h.1, h.2, rfl⟩
  · exact .inr ⟨h, rfl⟩

theorem selectReceipt_none {L : AttemptLedger} {id : AttemptId} (h : L.attempts.get id = none) :
    L.selectReceipt id = (.quarantined, L) := by
  simp [selectReceipt, h]

/-- **Admitting** a receipt is charging it and then selecting. -/
theorem admitExact_eq_ok {L L' : AttemptLedger} {r : ExactReceipt} {sel : Selection}
    (h : L.admitExact r = .ok (sel, L')) :
    ∃ L₁, L.chargeExact r.attempt r.cost = .ok L₁ ∧ L₁.selectReceipt r.attempt = (sel, L') := by
  unfold admitExact at h
  rcases hc : L.chargeExact r.attempt r.cost with e | L₁
  · rw [hc] at h
    cases h
  · rw [hc] at h
    exact ⟨L₁, rfl, Except.ok.inj h⟩

theorem selectReceipt_current (L : AttemptLedger) (id : AttemptId) :
    (L.selectReceipt id).2.current = L.current ∧ (L.selectReceipt id).2.space = L.space := by
  rcases ha : L.attempts.get id with _ | a
  · rw [selectReceipt_none ha]
    exact ⟨rfl, rfl⟩
  · rcases selectReceipt_get ha with ⟨-, -, h⟩ | ⟨-, h⟩ <;> rw [h] <;> exact ⟨rfl, rfl⟩

theorem Wf.selectReceipt {L : AttemptLedger} (hw : L.Wf sha256) (id : AttemptId) :
    (L.selectReceipt id).2.Wf sha256 := by
  rcases ha : L.attempts.get id with _ | a
  · rw [selectReceipt_none ha]
    exact hw
  · rcases selectReceipt_get ha with ⟨-, -, h⟩ | ⟨-, h⟩ <;> rw [h] <;>
      exact hw.setAttempt ha rfl rfl rfl

theorem Wf.admitExact {L L' : AttemptLedger} {r : ExactReceipt} {sel : Selection}
    (hw : L.Wf sha256) (h : L.admitExact r = .ok (sel, L')) : L'.Wf sha256 := by
  obtain ⟨L₁, hc, hs⟩ := admitExact_eq_ok h
  have := (hw.chargeExact hc).selectReceipt r.attempt
  rw [hs] at this
  exact this

theorem admitExact_current {L L' : AttemptLedger} {r : ExactReceipt} {sel : Selection}
    (h : L.admitExact r = .ok (sel, L')) : L'.current = L.current ∧ L'.space = L.space := by
  obtain ⟨L₁, hc, hs⟩ := admitExact_eq_ok h
  have h₁ := chargeExact_current hc
  have h₂ := L₁.selectReceipt_current r.attempt
  rw [hs] at h₂
  exact ⟨h₂.1.trans h₁.1, h₂.2.trans h₁.2⟩

/-- A receipt of another Attempt leaves a record as it is. -/
theorem admitExact_get_ne {L L' : AttemptLedger} {r : ExactReceipt} {sel : Selection}
    {id : AttemptId} {a : Attempt} (h : L.admitExact r = .ok (sel, L'))
    (ha : L.attempts.get id = some a) (hne : id ≠ r.attempt) :
    L'.attempts.get id = some a := by
  obtain ⟨L₁, hc, hs⟩ := admitExact_eq_ok h
  have h₁ := chargeExact_get hc ha
  rw [if_neg hne] at h₁
  rcases hr : L₁.attempts.get r.attempt with _ | b
  · rw [selectReceipt_none hr] at hs
    obtain ⟨-, rfl⟩ := Prod.mk.inj hs
    exact h₁
  · rcases selectReceipt_get hr with ⟨-, -, hsel⟩ | ⟨-, hsel⟩ <;> rw [hsel] at hs <;>
      obtain ⟨-, rfl⟩ := Prod.mk.inj hs <;> rw [setAttempt_get, if_neg hne] <;> exact h₁

/-- The receipt's own record: charged to the floor, and selected exactly when it
was current and not fenced. -/
theorem admitExact_get_self {L L' : AttemptLedger} {r : ExactReceipt} {sel : Selection}
    {a : Attempt} (h : L.admitExact r = .ok (sel, L')) (ha : L.attempts.get r.attempt = some a) :
    (L.current.get a.node = some a.epoch ∧ a.state ≠ .fenced ∧ sel = .selected ∧
        L'.attempts.get r.attempt =
          some { a with charged := max r.cost a.charged, state := .selected }) ∨
      (¬ (L.current.get a.node = some a.epoch ∧ a.state ≠ .fenced) ∧ sel = .quarantined ∧
        L'.attempts.get r.attempt =
          some { a with charged := max r.cost a.charged, state := .quarantined }) := by
  obtain ⟨L₁, hc, hs⟩ := admitExact_eq_ok h
  have h₁ := chargeExact_get hc ha
  rw [if_pos rfl] at h₁
  rw [← (chargeExact_current hc).1]
  rcases selectReceipt_get h₁ with ⟨hcur, hst, hsel⟩ | ⟨hcur, hsel⟩ <;> rw [hsel] at hs <;>
    obtain ⟨rfl, rfl⟩ := Prod.mk.inj hs
  · exact .inl ⟨hcur, hst, rfl, by rw [setAttempt_get, if_pos rfl]⟩
  · exact .inr ⟨hcur, rfl, by rw [setAttempt_get, if_pos rfl]⟩

/-! ## Histories of operations -/

/-- One call on the ledger. -/
inductive Op where
  | dispatch (node : String)
  | fence (node : String)
  | chargeExact (attempt : AttemptId) (amount : ℕ)
  | admitExact (receipt : ExactReceipt)
  deriving DecidableEq

/-- The ledger after a call. A refused charge or receipt changes nothing; only
a dispatch past the last epoch has no next state. -/
def step (sha256 : List UInt8 → List UInt8) (L : AttemptLedger) : Op → Option AttemptLedger
  | .dispatch node => (L.dispatch sha256 node).map Prod.snd
  | .fence node => some (L.fence sha256 node)
  | .chargeExact attempt amount =>
    match L.chargeExact attempt amount with
    | .ok L' => some L'
    | .error _ => some L
  | .admitExact receipt =>
    match L.admitExact receipt with
    | .ok (_, L') => some L'
    | .error _ => some L

/-- What one call does, in five cases. -/
theorem step_cases {L L' : AttemptLedger} {op : Op} (h : L.step sha256 op = some L') :
    (∃ node id, op = .dispatch node ∧ L.dispatch sha256 node = some (id, L')) ∨
      (∃ node, op = .fence node ∧ L' = L.fence sha256 node) ∨
      (∃ id amount, op = .chargeExact id amount ∧ L.chargeExact id amount = .ok L') ∨
      (∃ r sel, op = .admitExact r ∧ L.admitExact r = .ok (sel, L')) ∨
      L' = L := by
  cases op with
  | dispatch node =>
    obtain ⟨⟨id, L₁⟩, hd, rfl⟩ := Option.map_eq_some_iff.mp h
    exact .inl ⟨node, id, rfl, hd⟩
  | fence node => exact .inr (.inl ⟨node, rfl, (Option.some.inj h).symm⟩)
  | chargeExact id amount =>
    rw [step] at h
    rcases hc : L.chargeExact id amount with e | L₁ <;> rw [hc] at h <;>
      obtain rfl := Option.some.inj h
    · exact .inr (.inr (.inr (.inr rfl)))
    · exact .inr (.inr (.inl ⟨id, amount, rfl, hc⟩))
  | admitExact r =>
    rw [step] at h
    rcases hc : L.admitExact r with e | ⟨sel, L₁⟩ <;> rw [hc] at h <;>
      obtain rfl := Option.some.inj h
    · exact .inr (.inr (.inr (.inr rfl)))
    · exact .inr (.inr (.inr (.inl ⟨r, sel, rfl, hc⟩)))

/-- Epochs are only ever added, under an unchanged namespace. -/
theorem step_reached {L L' : AttemptLedger} {op : Op} (h : L.step sha256 op = some L') :
    L.reached ⊆ L'.reached ∧ L'.space = L.space := by
  rcases step_cases h with ⟨node, id, -, hd⟩ | ⟨node, -, rfl⟩ | ⟨id, amount, -, hc⟩ |
    ⟨r, sel, -, ha⟩ | rfl
  · refine ⟨dispatch_reached hd, ?_⟩
    obtain ⟨epoch, -, -, rfl⟩ := dispatch_eq_some hd
    exact fence_space L node
  · rw [reached, reached, fence_current]
    exact ⟨List.Subset.refl _, fence_space L node⟩
  · rw [reached, reached, (chargeExact_current hc).1]
    exact ⟨List.Subset.refl _, (chargeExact_current hc).2⟩
  · rw [reached, reached, (admitExact_current ha).1]
    exact ⟨List.Subset.refl _, (admitExact_current ha).2⟩
  · exact ⟨List.Subset.refl _, rfl⟩

theorem Wf.step {L L' : AttemptLedger} {op : Op} (hw : L.Wf sha256)
    (h : L.step sha256 op = some L') (hd : L'.IdsDistinct sha256) : L'.Wf sha256 := by
  rcases step_cases h with ⟨node, id, -, hdis⟩ | ⟨node, -, rfl⟩ | ⟨id, amount, -, hc⟩ |
    ⟨r, sel, -, ha⟩ | rfl
  · exact hw.dispatch hdis hd
  · exact hw.fence node
  · exact hw.chargeExact hc
  · exact hw.admitExact ha
  · exact hw

theorem run_reached {ops : List Op} {L L' : AttemptLedger}
    (h : run (AttemptLedger.step sha256) L ops = some L') :
    L.reached ⊆ L'.reached ∧ L'.space = L.space := by
  induction ops generalizing L with
  | nil =>
    obtain rfl := Option.some.inj h
    exact ⟨List.Subset.refl _, rfl⟩
  | cons op ops ih =>
    obtain ⟨L₁, h₁, h₂⟩ := run_cons_eq_some.mp h
    exact ⟨List.Subset.trans (step_reached h₁).1 (ih h₂).1, (ih h₂).2.trans (step_reached h₁).2⟩

/-- No epoch is reached twice. -/
theorem reached_nodup (L : AttemptLedger) : L.reached.Nodup := by
  -- A node's epochs differ from each other, and different nodes share none.
  rw [reached, List.nodup_flatMap]
  refine ⟨fun p _ => List.nodup_range.map fun e e' he => (Prod.mk.inj he).2, ?_⟩
  refine L.current.sorted.imp fun {p q} hlt x hx hy => ?_
  obtain ⟨e, -, rfl⟩ := List.mem_map.mp hx
  obtain ⟨e', -, he⟩ := List.mem_map.mp hy
  exact absurd (Prod.mk.inj he).1 (ne_of_gt hlt)

/-- Identities that differ at the end of a history differed all along it. -/
theorem IdsDistinct.of_run {ops : List Op} {L L' : AttemptLedger} (hd : L'.IdsDistinct sha256)
    (h : run (AttemptLedger.step sha256) L ops = some L') : L.IdsDistinct sha256 := by
  obtain ⟨hsub, hsp⟩ := run_reached h
  refine (List.nodup_map_iff_inj_on (reached_nodup L)).mpr fun p hp q hq heq => ?_
  obtain ⟨h₁, h₂⟩ := hd.inj (hsub hp) (hsub hq) (by simpa [AttemptLedger.id, hsp] using heq)
  exact Prod.ext h₁ h₂

/-- A condition that every state with distinct identities meets is met along a
history that ends with distinct identities. -/
theorem stepsMeet_idsDistinct {ops : List Op} {L L' : AttemptLedger}
    (h : run (AttemptLedger.step sha256) L ops = some L') (hd : L'.IdsDistinct sha256) :
    StepsMeet (AttemptLedger.step sha256)
      (fun L op => ∀ L₁, L.step sha256 op = some L₁ → L₁.IdsDistinct sha256) L ops := by
  induction ops generalizing L with
  | nil => trivial
  | cons op ops ih =>
    obtain ⟨L₁, h₁, h₂⟩ := run_cons_eq_some.mp h
    refine ⟨fun L₂ hL₂ => ?_, fun L₂ hL₂ => ?_⟩ <;>
      obtain rfl := Option.some.inj (hL₂.symm.trans h₁)
    · exact hd.of_run h₂
    · exact ih h₂

theorem Wf.run {ops : List Op} {L L' : AttemptLedger} (hw : L.Wf sha256)
    (h : run (AttemptLedger.step sha256) L ops = some L') (hd : L'.IdsDistinct sha256) :
    L'.Wf sha256 :=
  run_induction (fun _ _ _ hw hd hs => hw.step hs (hd _ hs)) hw (stepsMeet_idsDistinct h hd) h

/-! ## Fenced work is never selected

`Fences` says which call fences an Attempt, `Fenced` what it leaves: a fenced or
quarantined state, or an epoch the node has moved past. Every call keeps it but
one: a second receipt of an Attempt that `fence` revoked and no dispatch
superseded. The first receipt wrote `quarantined` over `fenced`, and
`selectReceipt` only refuses `fenced`. -/

/-- The call revokes the Attempt: `fence` while it is the running Attempt of the
node's current epoch, or a later `dispatch` of its node. -/
def Fences (sha256 : List UInt8 → List UInt8) (L : AttemptLedger) (id : AttemptId) : Op → Prop
  | .fence node => ∃ e a, L.current.get node = some e ∧ L.id sha256 node e = id ∧
      L.attempt id = some a ∧ a.state = .running
  | .dispatch node => ∃ a, L.attempt id = some a ∧ a.node = node
  | _ => False

/-- The call delivers again: a receipt of an Attempt that is already quarantined
while its epoch is still its node's current one. -/
def Redelivers (L : AttemptLedger) : Op → Prop
  | .admitExact r => ∃ a, L.attempt r.attempt = some a ∧ a.state = .quarantined ∧
      L.current.get a.node = some a.epoch
  | _ => False

/-- The Attempt has been fenced. -/
def Fenced (L : AttemptLedger) (id : AttemptId) : Prop :=
  ∃ a, L.attempts.get id = some a ∧
    (a.state = .fenced ∨ a.state = .quarantined ∨ L.current.get a.node ≠ some a.epoch)

/-- A fencing call leaves the Attempt fenced. -/
theorem fenced_of_fences {L L' : AttemptLedger} {op : Op} {id : AttemptId} (hw : L.Wf sha256)
    (hf : L.Fences sha256 id op) (h : L.step sha256 op = some L')
    (hd : L'.IdsDistinct sha256) : L'.Fenced id := by
  cases op with
  | fence node =>
    obtain ⟨e, a, he, rfl, ha, hs⟩ := hf
    obtain rfl := Option.some.inj h
    refine ⟨{ a with state := .fenced }, ?_, .inl rfl⟩
    simp only [attempt] at ha
    simp [fence, he, ha, hs, setAttempt_get]
  | dispatch node =>
    obtain ⟨a, ha, rfl⟩ := hf
    obtain ⟨⟨new, L₁⟩, hdis, rfl⟩ := Option.map_eq_some_iff.mp h
    obtain ⟨c, hc, hle⟩ := mem_reached.mp (hw.reach ha)
    -- The dispatched epoch is past the Attempt's own.
    have hcur : L₁.current.get a.node ≠ some a.epoch := by
      obtain ⟨epoch, hn, -, rfl⟩ := dispatch_eq_some hdis
      rw [OrdMap.get_insert_self]
      have := nextEpoch_gt hn hc
      simp only [ne_eq, Option.some.injEq]
      omega
    rcases hw.dispatch_get hdis hd ha with hget | ⟨-, -, hget⟩
    · exact ⟨a, hget, .inr (.inr hcur)⟩
    · exact ⟨_, hget, .inl rfl⟩
  | chargeExact => exact hf.elim
  | admitExact => exact hf.elim

/-- A receipt of a fenced Attempt that does not redeliver is quarantined. -/
theorem Fenced.admitExact {L L' : AttemptLedger} {r : ExactReceipt} {sel : Selection}
    (hf : L.Fenced r.attempt) (hr : ¬ L.Redelivers (.admitExact r))
    (h : L.admitExact r = .ok (sel, L')) :
    sel = .quarantined ∧ ∃ a, L'.attempts.get r.attempt = some a ∧ a.state = .quarantined := by
  obtain ⟨a, ha, hst⟩ := hf
  rcases admitExact_get_self h ha with ⟨hcur, hnf, -, -⟩ | ⟨-, hsel, hget⟩
  · exfalso
    rcases hst with hst | hst | hst
    · exact hnf hst
    · exact hr ⟨a, ha, hst, hcur⟩
    · exact hst hcur
  · exact ⟨hsel, _, hget, rfl⟩

/-- Every call that does not redeliver keeps a fenced Attempt fenced. -/
theorem Fenced.step {L L' : AttemptLedger} {op : Op} {id : AttemptId} (hw : L.Wf sha256)
    (hf : L.Fenced id) (hr : ¬ L.Redelivers op) (h : L.step sha256 op = some L')
    (hd : L'.IdsDistinct sha256) : L'.Fenced id := by
  obtain ⟨a, ha, hst⟩ := hf
  rcases step_cases h with ⟨node, new, rfl, hdis⟩ | ⟨node, rfl, rfl⟩ | ⟨id', amount, rfl, hc⟩ |
    ⟨r, sel, rfl, hadm⟩ | rfl
  · by_cases hn : a.node = node
    · have hfences : L.Fences sha256 id (.dispatch node) := ⟨a, ha, hn⟩
      exact fenced_of_fences hw hfences h hd
    rcases hw.dispatch_get hdis hd ha with hget | ⟨-, -, hget⟩
    · refine ⟨a, hget, hst.imp_right (Or.imp_right fun hcur => ?_)⟩
      obtain ⟨epoch, -, -, rfl⟩ := dispatch_eq_some hdis
      rw [OrdMap.get_insert_ne _ _ hn]
      exact hcur
    · exact ⟨_, hget, .inl rfl⟩
  · rcases fence_get sha256 node ha with hget | ⟨-, -, hget⟩
    · exact ⟨a, hget, by rw [fence_current]; exact hst⟩
    · exact ⟨_, hget, .inl rfl⟩
  · refine ⟨_, chargeExact_get hc ha, ?_⟩
    rw [(chargeExact_current hc).1]
    split_ifs <;> exact hst
  · by_cases hid : id = r.attempt
    · subst hid
      obtain ⟨-, b, hb, hq⟩ := Fenced.admitExact ⟨a, ha, hst⟩ hr hadm
      exact ⟨b, hb, .inr (.inl hq)⟩
    · exact ⟨a, admitExact_get_ne hadm ha hid, by rw [(admitExact_current hadm).1]; exact hst⟩
  · exact ⟨a, ha, hst⟩

/-- **Fenced work is never selected**, in every history whose receipts do not
redeliver: after a call that fences an Attempt, whatever calls follow, admitting
a receipt of that Attempt neither selects it nor leaves it selected. -/
theorem admitExact_of_fenced_not_selected (sha256 : List UInt8 → List UInt8) (space : String)
    (prior : OrdMap String ℕ)
    (before after : List Op) (op : Op) (receipt : ExactReceipt) (L₁ L₂ L₃ : AttemptLedger)
    (h₁ : run (step sha256) (AttemptLedger.scoped space prior) before = some L₁)
    (hf : L₁.Fences sha256 receipt.attempt op) (h₂ : L₁.step sha256 op = some L₂)
    (h₃ : run (step sha256) L₂ after = some L₃) (hd : L₃.IdsDistinct sha256)
    (hr : StepsMeet (step sha256) (fun L op => ¬ L.Redelivers op) L₂
      (after ++ [.admitExact receipt]))
    (sel : Selection) (L₄ : AttemptLedger) (h₄ : L₃.admitExact receipt = .ok (sel, L₄)) :
    sel ≠ .selected ∧ ∀ a, L₄.attempt receipt.attempt = some a → a.state ≠ .selected := by
  have hd₂ := hd.of_run h₃
  have hop : run (step sha256) L₁ [op] = some L₂ := run_cons_eq_some.mpr ⟨L₂, h₂, rfl⟩
  have hd₁ := hd₂.of_run hop
  have hw₁ : L₁.Wf sha256 := (wf_scoped space prior).run h₁ hd₁
  obtain ⟨hmeet, hlast⟩ := stepsMeet_append hr
  -- Both conditions along the later calls: no redelivery, and distinct identities.
  have hfenced : L₃.Wf sha256 ∧ L₃.Fenced receipt.attempt := by
    refine run_induction (P := fun L => L.Wf sha256 ∧ L.Fenced receipt.attempt)
      (fun L op L' hP hC hs => ?_) ⟨hw₁.step h₂ hd₂, fenced_of_fences hw₁ hf h₂ hd₂⟩
      (stepsMeet_and hmeet (stepsMeet_idsDistinct h₃ hd)) h₃
    exact ⟨hP.1.step hs (hC.2 _ hs), hP.2.step hP.1 hC.1 hs (hC.2 _ hs)⟩
  obtain ⟨rfl, a, ha, hq⟩ := hfenced.2.admitExact (hlast L₃ h₃).1 h₄
  refine ⟨by decide, fun b hb => ?_⟩
  obtain rfl := Option.some.inj (ha.symm.trans hb)
  rw [hq]
  decide

/-- SHA-256 at the messages of the first two Attempts of `deep` under `round`. -/
def deepDigest (message : List UInt8) : List UInt8 :=
  if message = scopedMessage "round" "deep" 0 then
    [0x35, 0x54, 0x0b, 0x62, 0xc9, 0x60, 0x8b, 0xc2, 0x59, 0xd1, 0x35, 0x17, 0xab, 0x02,
      0xa9, 0x27, 0x65, 0x5f, 0x3b, 0x6f, 0xb0, 0x25, 0xfb, 0x4d, 0x0d, 0xed, 0x12, 0xb7,
      0xc8, 0xda, 0x44, 0x23]
  else if message = scopedMessage "round" "deep" 1 then
    [0x68, 0xf7, 0x25, 0x72, 0x13, 0x8c, 0xeb, 0x75, 0xd7, 0xfe, 0x47, 0xd7, 0x71, 0xb9,
      0x71, 0xfc, 0x12, 0xdc, 0xb6, 0xf0, 0xdd, 0xfb, 0xc9, 0xf4, 0x43, 0xa5, 0x43, 0x0a,
      0x0e, 0x57, 0xfe, 0xb3]
  else []

/-- The first Attempt of `deep`. -/
def deepAttempt : AttemptId := "35540b62c9608bc259d13517ab"

/-- The ledger of the histories below. -/
def deepLedger (ops : List Op) : AttemptLedger :=
  (run (step deepDigest) (AttemptLedger.scoped "round" .empty) ops).getD (.scoped "round" .empty)

/-- The Attempt is fenced and delivers once, late. -/
theorem admitExact_of_fenced_not_selected_deep :
    Selection.quarantined ≠ .selected ∧ ∀ a,
      (deepLedger [.dispatch "deep", .fence "deep", .admitExact ⟨deepAttempt, 5⟩]).attempt
        deepAttempt = some a → a.state ≠ .selected :=
  admitExact_of_fenced_not_selected deepDigest "round" .empty [.dispatch "deep"] []
    (.fence "deep") ⟨deepAttempt, 5⟩ (deepLedger [.dispatch "deep"])
    (deepLedger [.dispatch "deep", .fence "deep"]) (deepLedger [.dispatch "deep", .fence "deep"])
    (by decide) ⟨0, ⟨deepAttempt, "deep", 0, .running, 0⟩, by decide, by decide, by decide, rfl⟩
    (by decide) (by decide) (by decide)
    ⟨by
      rintro ⟨a, ha, hq, -⟩
      have hfenced : (deepLedger [.dispatch "deep", .fence "deep"]).attempt deepAttempt =
          some ⟨deepAttempt, "deep", 0, .fenced, 0⟩ := by decide
      obtain rfl := Option.some.inj (ha.symm.trans hfenced)
      exact absurd hq (by decide),
    fun _ _ => trivial⟩
    .quarantined _ (by decide)

/-- A second receipt of a fenced Attempt selects it: the first one left it
quarantined at its node's current epoch. -/
theorem admitExact_of_fenced_selected_by_redelivery :
    ¬ ∀ (before after : List Op) (op : Op) (receipt : ExactReceipt) (L₁ L₂ L₃ : AttemptLedger),
      run (step deepDigest) (AttemptLedger.scoped "round" .empty) before = some L₁ →
      L₁.Fences deepDigest receipt.attempt op → L₁.step deepDigest op = some L₂ →
      run (step deepDigest) L₂ after = some L₃ → L₃.IdsDistinct deepDigest →
      ∀ sel L₄, L₃.admitExact receipt = .ok (sel, L₄) →
        sel ≠ .selected ∧ ∀ a, L₄.attempt receipt.attempt = some a → a.state ≠ .selected := by
  intro h
  refine (h [.dispatch "deep"] [.admitExact ⟨deepAttempt, 5⟩] (.fence "deep") ⟨deepAttempt, 5⟩
    (deepLedger [.dispatch "deep"]) (deepLedger [.dispatch "deep", .fence "deep"])
    (deepLedger [.dispatch "deep", .fence "deep", .admitExact ⟨deepAttempt, 5⟩])
    (by decide) ⟨0, ⟨deepAttempt, "deep", 0, .running, 0⟩, by decide, by decide, by decide, rfl⟩
    (by decide) (by decide) (by decide) .selected
    (deepLedger [.dispatch "deep", .fence "deep", .admitExact ⟨deepAttempt, 5⟩,
      .admitExact ⟨deepAttempt, 5⟩]) (by decide)).1 rfl

end AttemptLedger

end Afactory
