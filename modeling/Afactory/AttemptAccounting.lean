import Mathlib
import Afactory.ChargeLedgers

/-!
# The accounts of an Attempt ledger

`review-attempt/src/fencing.rs` over whole histories of calls.

* `scopedMessage_inj`: no two epochs of one namespace have one message;
* `InPlace`: charging and admitting as the source writes them, on a ledger that a refusal leaves
  behind as it is by then;
* `Accounted`: the total, the bounds and the running Attempts of a ledger, kept by every call;
* `dispatched`: the identities a history hands out;
* `attempt_accounting`: what holds after every history.
-/

namespace Afactory

/-! ## Messages -/

theorem utf8_inj {a b : String} (h : utf8 a = utf8 b) : a = b := by
  have hdata : a.toUTF8.data = b.toUTF8.data := Array.toList_inj.mp h
  exact String.toByteArray_inj.mp (congrArg ByteArray.mk hdata)

/-- **The message of an epoch names it.** The parts of a message stand behind their lengths. -/
theorem scopedMessage_inj {space node node' : String} {epoch epoch' : ℕ} (he : epoch < u64Bound)
    (he' : epoch' < u64Bound) (h : scopedMessage space node epoch = scopedMessage space node' epoch') :
    node = node' ∧ epoch = epoch' := by
  simp only [scopedMessage, List.flatMap_cons, List.flatMap_nil, List.append_nil,
    List.append_assoc, List.append_cancel_left_eq] at h
  -- the last two parts are sixteen bytes, so the nodes are equally long
  have hlen : (utf8 node).length = (utf8 node').length := by
    have htotal := congrArg List.length h
    simp only [List.length_append, length_beBytes] at htotal
    omega
  rw [hlen, List.append_cancel_left_eq] at h
  obtain ⟨hnode, hrest⟩ := List.append_inj h hlen
  rw [length_beBytes, length_beBytes, List.append_cancel_left_eq] at hrest
  exact ⟨utf8_inj hnode, beBytes_inj he he' hrest⟩

namespace AttemptLedger

variable {sha256 : List UInt8 → List UInt8}

/-- The digest of the source: among the epochs reached, two messages whose digests begin alike are
one. -/
def DigestsApart (sha256 : List UInt8 → List UInt8) (L : AttemptLedger) : Prop :=
  ∀ p ∈ L.reached, ∀ q ∈ L.reached, L.id sha256 p.1 p.2 = L.id sha256 q.1 q.2 →
    scopedMessage L.space p.1 p.2 = scopedMessage L.space q.1 q.2

/-- Every epoch is a `u64`. -/
def EpochsFit (L : AttemptLedger) : Prop := ∀ node e, L.current.get node = some e → e < u64Bound

/-- **Identities are distinct** when the digests of their messages are. -/
theorem DigestsApart.idsDistinct {L : AttemptLedger} (h : L.DigestsApart sha256)
    (hfit : L.EpochsFit) : L.IdsDistinct sha256 := by
  have hepoch : ∀ p ∈ L.reached, p.2 < u64Bound := by
    rintro ⟨node, e⟩ hp
    obtain ⟨c, hc, hle⟩ := mem_reached.mp hp
    exact lt_of_le_of_lt hle (hfit node c hc)
  refine (List.nodup_map_iff_inj_on (reached_nodup L)).mpr fun p hp q hq heq => ?_
  obtain ⟨hnode, he⟩ := scopedMessage_inj (hepoch p hp) (hepoch q hq) (h p hp q hq heq)
  exact Prod.ext hnode he

/-! ## Calls in place -/

/-- A call that changes the ledger in place: what stands when it refuses stays. -/
abbrev InPlace := EStateM String AttemptLedger

/-- `set_charge`, statement by statement. -/
def setChargeInPlace (attempt : AttemptId) (amount : ℕ) : InPlace Unit := do
  match (← get).attempts.get attempt with
  | none => return ()
  | some existing =>
    let chargedTotal := (← get).chargedTotal
    unless existing.charged ≤ chargedTotal ∧
        chargedTotal - existing.charged + amount < u128Bound do
      throw "Attempt charge total overflow"
    modify fun L =>
      match L.attempts.get attempt with
      | some a => L.setAttempt attempt { a with charged := amount }
      | none => L
    modify fun L => { L with chargedTotal := chargedTotal - existing.charged + amount }

/-- `charge_exact`. -/
def chargeExactInPlace (attempt : AttemptId) (amount : ℕ) : InPlace Unit := do
  match (← get).attempts.get attempt with
  | none => return ()
  | some existing => setChargeInPlace attempt (max amount existing.charged)

/-- `admit_exact`. -/
def admitExactInPlace (receipt : ExactReceipt) : InPlace Selection := do
  chargeExactInPlace receipt.attempt receipt.cost
  modifyGet fun L => L.selectReceipt receipt.attempt

/-- What a call answers, and the ledger it leaves. -/
def after {α : Type} (call : InPlace α) (L : AttemptLedger) : Except String α × AttemptLedger :=
  match call.run L with
  | .ok a L' => (.ok a, L')
  | .error e L' => (.error e, L')

theorem after_setCharge (L : AttemptLedger) (attempt : AttemptId) (amount : ℕ) :
    after (setChargeInPlace attempt amount) L =
      match L.setCharge attempt amount with
      | .ok L' => (.ok (), L')
      | .error e => (.error e, L) := by
  unfold setCharge
  cases ha : L.attempts.get attempt with
  | none => simp [after, setChargeInPlace, ha]
  | some existing =>
    by_cases hfits : existing.charged ≤ L.chargedTotal ∧
        L.chargedTotal - existing.charged + amount < u128Bound
    · simp [after, setChargeInPlace, ha, hfits]
    · simp [after, setChargeInPlace, ha, hfits]

/-- **A refused charge leaves the ledger as it was.** -/
theorem after_chargeExact (L : AttemptLedger) (attempt : AttemptId) (amount : ℕ) :
    after (chargeExactInPlace attempt amount) L =
      match L.chargeExact attempt amount with
      | .ok L' => (.ok (), L')
      | .error e => (.error e, L) := by
  unfold chargeExact
  cases ha : L.attempts.get attempt with
  | none => simp [after, chargeExactInPlace, ha]
  | some existing =>
    have hset := after_setCharge L attempt (max amount existing.charged)
    rw [← hset]
    simp [after, chargeExactInPlace, ha]

/-- **A refused receipt leaves the ledger as it was.** -/
theorem after_admitExact (L : AttemptLedger) (receipt : ExactReceipt) :
    after (admitExactInPlace receipt) L =
      match L.admitExact receipt with
      | .ok (sel, L') => (.ok sel, L')
      | .error e => (.error e, L) := by
  have hcharge := after_chargeExact L receipt.attempt receipt.cost
  unfold admitExact
  cases hc : L.chargeExact receipt.attempt receipt.cost with
  | ok L' =>
    rw [hc] at hcharge
    simp only [after] at hcharge
    split at hcharge
    · next u L₁ hrun =>
      obtain ⟨-, rfl⟩ := Prod.mk.inj hcharge
      simp [after, admitExactInPlace, hrun, Except.map]
    · cases (Prod.mk.inj hcharge).1
  | error e =>
    rw [hc] at hcharge
    simp only [after] at hcharge
    split at hcharge
    · cases (Prod.mk.inj hcharge).1
    · next e' L₁ hrun =>
      obtain ⟨he, rfl⟩ := Prod.mk.inj hcharge
      cases he
      simp [after, admitExactInPlace, hrun, Except.map]

/-! ## Every ledger of a history -/

/-- **The accounts of a ledger**: it is well formed, its total and its epochs fit, and an Attempt
that runs is its node's current one. -/
structure Accounted (sha256 : List UInt8 → List UInt8) (L : AttemptLedger) : Prop where
  wf : L.Wf sha256
  fits : L.chargedTotal < u128Bound
  running : ∀ {id a}, L.attempts.get id = some a → a.state = .running →
    L.current.get a.node = some a.epoch

theorem epochsFit_scoped {space : String} {prior : OrdMap String ℕ}
    (hprior : ∀ node count, prior.get node = some count → count < u64Bound) :
    (AttemptLedger.scoped space prior).EpochsFit := by
  intro node e he
  have hmem := (OrdMap.get_insertAll_cases he).resolve_right (by simp)
  obtain ⟨⟨other, count⟩, hentry, hsome⟩ := List.mem_filterMap.mp hmem
  split_ifs at hsome
  cases hsome
  exact lt_of_le_of_lt (Nat.sub_le _ _) (hprior _ count (OrdMap.mem_iff_get.mp hentry))

theorem EpochsFit.step {L L' : AttemptLedger} {op : Op} (hfit : L.EpochsFit)
    (h : L.step sha256 op = some L') : L'.EpochsFit := by
  intro node e he
  rcases step_cases h with ⟨other, id, -, hd⟩ | ⟨other, -, rfl⟩ | ⟨id, amount, -, hc⟩ |
    ⟨r, sel, -, ha⟩ | rfl
  · obtain ⟨epoch, hnext, -, rfl⟩ := dispatch_eq_some hd
    rw [OrdMap.get_insert] at he
    split_ifs at he
    · obtain rfl := Option.some.inj he
      unfold nextEpoch at hnext
      split at hnext
      · obtain rfl := Option.some.inj hnext
        decide
      · split_ifs at hnext with hlt
        obtain rfl := Option.some.inj hnext
        exact hlt
    · exact hfit node e he
  · rw [fence_current] at he
    exact hfit node e he
  · rw [(chargeExact_current hc).1] at he
    exact hfit node e he
  · rw [(admitExact_current ha).1] at he
    exact hfit node e he
  · exact hfit node e he

theorem EpochsFit.run {ops : List Op} {L L' : AttemptLedger} (hfit : L.EpochsFit)
    (h : run (AttemptLedger.step sha256) L ops = some L') : L'.EpochsFit :=
  run_induction (C := fun _ _ => True) (fun _ _ _ hfit _ hs => EpochsFit.step hfit hs) hfit
    (stepsMeet_of_forall (fun _ _ => trivial) L ops) h

theorem accounted_scoped (space : String) (prior : OrdMap String ℕ) :
    (AttemptLedger.scoped space prior).Accounted sha256 where
  wf := wf_scoped space prior
  fits := Nat.two_pow_pos 128
  running h := by cases h

/-- A record that still runs past a fence is of another node. -/
theorem Accounted.fence_running {L : AttemptLedger} (h : L.Accounted sha256) {node : String}
    {id : AttemptId} {a : Attempt} (ha : (L.fence sha256 node).attempts.get id = some a)
    (hrun : a.state = .running) : L.attempts.get id = some a ∧ a.node ≠ node := by
  have hold : L.attempts.get id = some a := by
    rcases fence_cases sha256 L node with hf | ⟨e, b, -, -, -, hf⟩ <;> rw [hf] at ha
    · exact ha
    · rw [setAttempt_get] at ha
      split_ifs at ha
      · obtain rfl := Option.some.inj ha
        cases hrun
      · exact ha
  refine ⟨hold, ?_⟩
  rintro rfl
  -- the running Attempt of the node is the one that is fenced
  have hcur := h.running hold hrun
  have hid := h.wf.id_eq hold
  have hfence : L.fence sha256 a.node = L.setAttempt id { a with state := .fenced } := by
    simp [fence, hcur, ← hid, hold, hrun]
  rw [hfence, setAttempt_get, if_pos rfl] at ha
  have hstate := congrArg Attempt.state (Option.some.inj ha)
  rw [hrun] at hstate
  cases hstate

theorem chargeExact_fits {L L' : AttemptLedger} {id : AttemptId} {amount : ℕ}
    (hfits : L.chargedTotal < u128Bound) (h : L.chargeExact id amount = .ok L') :
    L'.chargedTotal < u128Bound := by
  unfold chargeExact at h
  split at h
  · obtain rfl := Except.ok.inj h
    exact hfits
  · unfold setCharge at h
    split at h
    · obtain rfl := Except.ok.inj h
      exact hfits
    · split_ifs at h with hle
      obtain rfl := Except.ok.inj h
      exact hle.2

/-- A charge changes no Attempt but in its charge. -/
theorem chargeExact_back {L L' : AttemptLedger} {id id' : AttemptId} {amount : ℕ} {a' : Attempt}
    (h : L.chargeExact id amount = .ok L') (ha : L'.attempts.get id' = some a') :
    ∃ a, L.attempts.get id' = some a ∧ a'.node = a.node ∧ a'.epoch = a.epoch ∧
      a'.state = a.state := by
  rcases chargeExact_eq_ok h with ⟨-, rfl⟩ | ⟨a, hget, -, rfl⟩
  · exact ⟨a', ha, rfl, rfl, rfl⟩
  · simp only [setAttempt_get] at ha
    split_ifs at ha with hid
    · obtain rfl := Option.some.inj ha
      exact ⟨a, hid ▸ hget, rfl, rfl, rfl⟩
    · exact ⟨a', ha, rfl, rfl, rfl⟩

theorem selectReceipt_back {L : AttemptLedger} {id id' : AttemptId} {a : Attempt}
    (ha : (L.selectReceipt id).2.attempts.get id' = some a) (hrun : a.state = .running) :
    L.attempts.get id' = some a := by
  cases hget : L.attempts.get id with
  | none => rwa [selectReceipt_none hget] at ha
  | some b =>
    rcases selectReceipt_get hget with ⟨-, -, hsel⟩ | ⟨-, hsel⟩ <;> rw [hsel] at ha <;>
      simp only [setAttempt_get] at ha <;> split_ifs at ha
    · obtain rfl := Option.some.inj ha
      cases hrun
    · exact ha
    · obtain rfl := Option.some.inj ha
      cases hrun
    · exact ha

theorem selectReceipt_chargedTotal (L : AttemptLedger) (id : AttemptId) :
    (L.selectReceipt id).2.chargedTotal = L.chargedTotal := by
  cases hget : L.attempts.get id with
  | none => rw [selectReceipt_none hget]
  | some b => rcases selectReceipt_get hget with ⟨-, -, hsel⟩ | ⟨-, hsel⟩ <;> rw [hsel] <;> rfl

/-- **Every call keeps the accounts.** -/
theorem Accounted.step {L L' : AttemptLedger} {op : Op} (hL : L.Accounted sha256)
    (h : L.step sha256 op = some L') (hd : L'.IdsDistinct sha256) : L'.Accounted sha256 := by
  refine ⟨hL.wf.step h hd, ?_, ?_⟩
  · rcases step_cases h with ⟨node, id, -, hdis⟩ | ⟨node, -, rfl⟩ | ⟨id, amount, -, hc⟩ |
      ⟨r, sel, -, ha⟩ | rfl
    · obtain ⟨epoch, -, -, rfl⟩ := dispatch_eq_some hdis
      rw [fence_chargedTotal]
      exact hL.fits
    · rw [fence_chargedTotal]
      exact hL.fits
    · exact chargeExact_fits hL.fits hc
    · obtain ⟨L₁, hc, hs⟩ := admitExact_eq_ok ha
      have htotal := selectReceipt_chargedTotal L₁ r.attempt
      rw [hs] at htotal
      rw [htotal]
      exact chargeExact_fits hL.fits hc
    · exact hL.fits
  · intro id a hget hrun
    rcases step_cases h with ⟨node, new, -, hdis⟩ | ⟨node, -, rfl⟩ | ⟨i, amount, -, hc⟩ |
      ⟨r, sel, -, ha⟩ | rfl
    · obtain ⟨epoch, -, -, rfl⟩ := dispatch_eq_some hdis
      simp only [OrdMap.get_insert] at hget ⊢
      split_ifs at hget with hid
      · obtain rfl := Option.some.inj hget
        rw [if_pos rfl]
      · obtain ⟨hold, hnode⟩ := hL.fence_running hget hrun
        rw [if_neg hnode]
        exact hL.running hold hrun
    · rw [fence_current]
      exact hL.running (hL.fence_running hget hrun).1 hrun
    · obtain ⟨b, hb, hnode, hepoch, hstate⟩ := chargeExact_back hc hget
      rw [(chargeExact_current hc).1, hnode, hepoch]
      exact hL.running hb (hstate ▸ hrun)
    · obtain ⟨L₁, hc, hs⟩ := admitExact_eq_ok ha
      have hback := @selectReceipt_back L₁ r.attempt id a
      rw [hs] at hback
      obtain ⟨b, hb, hnode, hepoch, hstate⟩ := chargeExact_back hc (hback hget hrun)
      rw [(admitExact_current ha).1, hnode, hepoch]
      exact hL.running hb (hstate ▸ hrun)
    · exact hL.running hget hrun

theorem Accounted.run {ops : List Op} {L L' : AttemptLedger} (hL : L.Accounted sha256)
    (h : run (AttemptLedger.step sha256) L ops = some L') (hd : L'.IdsDistinct sha256) :
    L'.Accounted sha256 :=
  run_induction (fun _ _ _ hL hd hs => hL.step hs (hd _ hs)) hL (stepsMeet_idsDistinct h hd) h

/-! ## Identities handed out -/

/-- The identity a dispatch answers. -/
def answered (sha256 : List UInt8 → List UInt8) (L : AttemptLedger) : Op → List AttemptId
  | .dispatch node => ((L.dispatch sha256 node).map Prod.fst).toList
  | _ => []

/-- The identities the dispatches of a history answer, in order. -/
def dispatched (sha256 : List UInt8 → List UInt8) : AttemptLedger → List Op → List AttemptId
  | _, [] => []
  | L, op :: ops =>
    L.answered sha256 op ++
      match L.step sha256 op with
      | some L' => dispatched sha256 L' ops
      | none => []

/-- **No identity is handed out twice**, nor one that an Attempt already has. -/
theorem dispatched_nodup {ops : List Op} {L L' : AttemptLedger} (hw : L.Wf sha256)
    (h : run (AttemptLedger.step sha256) L ops = some L') (hd : L'.IdsDistinct sha256) :
    (dispatched sha256 L ops).Nodup ∧
      ∀ id ∈ dispatched sha256 L ops, L.attempts.get id = none := by
  induction ops generalizing L with
  | nil => simp [dispatched]
  | cons op ops ih =>
    obtain ⟨L₁, h₁, h₂⟩ := run_cons_eq_some.mp h
    have hd₁ := hd.of_run h₂
    obtain ⟨hnodup, hfresh⟩ := ih (hw.step h₁ hd₁) h₂
    -- what the rest hands out is new to the ledger before this call too
    have hrest : ∀ id ∈ dispatched sha256 L₁ ops, L.attempts.get id = none := by
      intro id hid
      by_contra hsome
      obtain ⟨l, hl⟩ := Option.ne_none_iff_exists'.mp hsome
      obtain ⟨l', hl', -⟩ := step_charged_le hw hd₁ h₁ hl
      rw [hfresh id hid] at hl'
      cases hl'
    rw [dispatched, h₁]
    cases op with
    | dispatch node =>
      obtain ⟨⟨new, L₂⟩, hdis, rfl⟩ := Option.map_eq_some_iff.mp h₁
      have hnew := hw.dispatch_fresh hdis hd₁
      have hthere : ∃ l, L₂.attempts.get new = some l := by
        obtain ⟨epoch, -, -, rfl⟩ := dispatch_eq_some hdis
        exact ⟨_, OrdMap.get_insert_self _ _ _⟩
      simp only [answered, hdis, Option.map_some, Option.toList_some, List.singleton_append,
        List.nodup_cons, List.forall_mem_cons]
      refine ⟨⟨fun hmem => ?_, hnodup⟩, hnew, hrest⟩
      obtain ⟨l, hl⟩ := hthere
      rw [hfresh new hmem] at hl
      cases hl
    | fence node => exact ⟨hnodup, hrest⟩
    | chargeExact id amount => exact ⟨hnodup, hrest⟩
    | admitExact receipt => exact ⟨hnodup, hrest⟩

/-! ## The accounts -/

/-- A charge that is refused would leave `u128`. -/
theorem chargeExact_eq_error {L : AttemptLedger} (hL : L.Accounted sha256) {id : AttemptId}
    {amount : ℕ} {e : String} (h : L.chargeExact id amount = .error e) :
    ∃ a, L.attempts.get id = some a ∧ a.charged < amount ∧
      u128Bound ≤ L.chargedTotal - a.charged + amount := by
  unfold chargeExact at h
  cases ha : L.attempts.get id with
  | none => simp [ha] at h
  | some a =>
    have hle : a.charged ≤ L.chargedTotal := by
      rw [hL.wf.total]
      exact OrdMap.le_sum ha fun _ a => a.charged
    simp only [ha, setCharge] at h
    split_ifs at h with hfits
    have hover : u128Bound ≤ L.chargedTotal - a.charged + max amount a.charged := by
      by_contra hlt
      exact hfits ⟨hle, not_le.mp hlt⟩
    have hfits := hL.fits
    have hlt : a.charged < amount := by
      by_contra hge
      rw [max_eq_right (not_lt.mp hge)] at hover
      omega
    rw [max_eq_left hlt.le] at hover
    exact ⟨a, rfl, hlt, hover⟩

/-- **A charge that raises nothing** is accepted and changes nothing. -/
theorem chargeExact_of_le {L : AttemptLedger} (hL : L.Accounted sha256) {id : AttemptId}
    {amount : ℕ} (h : ∀ a, L.attempts.get id = some a → amount ≤ a.charged) :
    L.chargeExact id amount = .ok L := by
  cases hresult : L.chargeExact id amount with
  | error e =>
    obtain ⟨a, ha, hlt, -⟩ := chargeExact_eq_error hL hresult
    exact absurd (h a ha) (not_le.mpr hlt)
  | ok L' =>
    rcases chargeExact_eq_ok hresult with ⟨-, rfl⟩ | ⟨a, ha, hle, rfl⟩
    · rfl
    · have hsame : L.attempts.insert id a = L.attempts := by
        refine OrdMap.ext fun k => ?_
        rw [OrdMap.get_insert]
        split_ifs with hk
        · rw [hk, ha]
        · rfl
      rw [max_eq_right (h a ha), Nat.sub_add_cancel hle, setAttempt, hsame]

/-- **The accounts of an Attempt ledger**, after every history of calls. The total is the sum of
the charges; no later call lowers a charge; a refused call, which only an overflow refuses, leaves
everything as it was, and so does one that raises no charge, but that a receipt still decides what
becomes of its Attempt; an Attempt that runs is the only one of its node, at its current epoch; and
no identity is handed out twice. -/
theorem attempt_accounting (sha256 : List UInt8 → List UInt8) (space : String)
    (prior : OrdMap String ℕ) (ops : List Op) (L : AttemptLedger)
    (hprior : ∀ node count, prior.get node = some count → count < u64Bound)
    (hrun : run (step sha256) (AttemptLedger.scoped space prior) ops = some L)
    (hdigest : L.DigestsApart sha256) :
    (L.chargedTotal = L.attempts.sum fun _ a => a.charged) ∧
    (∀ before after L₀, ops = before ++ after →
      run (step sha256) (AttemptLedger.scoped space prior) before = some L₀ →
      ∀ id a, L₀.attempt id = some a → ∃ a', L.attempt id = some a' ∧ a.charged ≤ a'.charged) ∧
    (∀ id amount e L', after (chargeExactInPlace id amount) L = (.error e, L') →
      L' = L ∧ ∃ a, L.attempt id = some a ∧ u128Bound ≤ L.chargedTotal - a.charged + amount) ∧
    (∀ receipt e L', after (admitExactInPlace receipt) L = (.error e, L') →
      L' = L ∧ ∃ a, L.attempt receipt.attempt = some a ∧
        u128Bound ≤ L.chargedTotal - a.charged + receipt.cost) ∧
    (∀ id amount, (∀ a, L.attempt id = some a → amount ≤ a.charged) →
      after (chargeExactInPlace id amount) L = (.ok (), L)) ∧
    (∀ receipt, (∀ a, L.attempt receipt.attempt = some a → receipt.cost ≤ a.charged) →
      after (admitExactInPlace receipt) L =
        (.ok (L.selectReceipt receipt.attempt).1, (L.selectReceipt receipt.attempt).2) ∧
      (L.attempt receipt.attempt = none → L.selectReceipt receipt.attempt = (.quarantined, L))) ∧
    (∀ id a, L.attempt id = some a → a.state = .running →
      L.current.get a.node = some a.epoch ∧
        ∀ id' a', L.attempt id' = some a' → a'.state = .running → a'.node = a.node → id' = id) ∧
    (dispatched sha256 (AttemptLedger.scoped space prior) ops).Nodup := by
  have hd := hdigest.idsDistinct ((epochsFit_scoped hprior).run hrun)
  have hL := (accounted_scoped space prior).run hrun hd
  refine ⟨hL.wf.total, ?_, ?_, ?_, ?_, ?_, ?_, (dispatched_nodup (wf_scoped space prior) hrun hd).1⟩
  · rintro before later L₀ rfl hbefore id a ha
    obtain ⟨L₁, hfirst, hlater⟩ := run_append_eq_some.mp hrun
    obtain rfl : L₁ = L₀ := Option.some.inj (hfirst.symm.trans hbefore)
    exact run_charged_le ((wf_scoped space prior).run hfirst (hd.of_run hlater)) hlater hd ha
  · intro id amount e L' hafter
    rw [after_chargeExact] at hafter
    split at hafter
    · cases (Prod.mk.inj hafter).1
    · next e' hc =>
      obtain ⟨a, ha, -, hover⟩ := chargeExact_eq_error hL hc
      exact ⟨(Prod.mk.inj hafter).2.symm, a, ha, hover⟩
  · intro receipt e L' hafter
    rw [after_admitExact] at hafter
    split at hafter
    · cases (Prod.mk.inj hafter).1
    · next e' hadmit =>
      refine ⟨(Prod.mk.inj hafter).2.symm, ?_⟩
      unfold admitExact at hadmit
      cases hc : L.chargeExact receipt.attempt receipt.cost with
      | ok L₁ => simp [hc, Except.map] at hadmit
      | error e₁ =>
        obtain ⟨a, ha, -, hover⟩ := chargeExact_eq_error hL hc
        exact ⟨a, ha, hover⟩
  · intro id amount hle
    rw [after_chargeExact, chargeExact_of_le hL hle]
  · intro receipt hle
    refine ⟨?_, selectReceipt_none⟩
    rw [after_admitExact, admitExact, chargeExact_of_le hL hle]
    rfl
  · intro id a ha hrunning
    refine ⟨hL.running ha hrunning, fun id' a' ha' hrunning' hnode => ?_⟩
    have hcur := hL.running ha hrunning
    have hcur' := hL.running ha' hrunning'
    rw [hnode, hcur] at hcur'
    rw [hL.wf.id_eq ha', hL.wf.id_eq ha, hnode, Option.some.inj hcur']

/-- The ledger of `deep`, dispatched twice and charged. -/
theorem attempt_accounting_deep :
    (deepLedger [.dispatch "deep", .chargeExact deepAttempt 5, .dispatch "deep"]).chargedTotal = 5 ∧
      (dispatched deepDigest (.scoped "round" .empty)
        [.dispatch "deep", .chargeExact deepAttempt 5, .dispatch "deep"]).Nodup := by
  have h := attempt_accounting deepDigest "round" .empty
    [.dispatch "deep", .chargeExact deepAttempt 5, .dispatch "deep"]
    (deepLedger [.dispatch "deep", .chargeExact deepAttempt 5, .dispatch "deep"])
    (by simp) (by decide) (by unfold DigestsApart; decide)
  exact ⟨h.1.trans (by decide), h.2.2.2.2.2.2.2⟩

/-- **A receipt of a lower cost is no failure**: its Attempt is selected, its charge as it was. -/
theorem lower_receipt_selects :
    (deepLedger [.dispatch "deep", .chargeExact deepAttempt 5]).attempt deepAttempt =
        some ⟨deepAttempt, "deep", 0, .running, 5⟩ ∧
      (after (admitExactInPlace ⟨deepAttempt, 1⟩)
        (deepLedger [.dispatch "deep", .chargeExact deepAttempt 5])).1 = .ok .selected ∧
      (after (admitExactInPlace ⟨deepAttempt, 1⟩)
        (deepLedger [.dispatch "deep", .chargeExact deepAttempt 5])).2.attempt deepAttempt =
        some ⟨deepAttempt, "deep", 0, .selected, 5⟩ := by
  rw [after_admitExact]
  decide

end AttemptLedger

end Afactory
