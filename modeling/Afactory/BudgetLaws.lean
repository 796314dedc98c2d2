import Mathlib
import Afactory.Budget

/-!
# Conservation and admission bounds of the budget ledger

`Sound` is what every operation needs in order not to panic and what it leaves:
each outstanding reservation sits under its own identity with distinct, opened
scopes, and each scope's reserved counter is the sum of what the outstanding
reservations that name it still hold.

One specification per operation says what it does to a sound ledger
(`Sound.reserve`, `Sound.observeChargeExact`, `Sound.close`). The histories of
calls (`History`) remember beside the ledger every reservation ever made with
the highest charge observed for it; over them the committed counters are
conserved and the limits bound them.
-/

namespace Afactory

theorem reservationId_injective {m n : ℕ} (h : reservationId m = reservationId n) : m = n := by
  refine Nat.repr_injective ?_
  simpa [reservationId] using h

namespace BudgetLedger

/-- What an outstanding reservation still holds in a scope. -/
def share (scope : BudgetScope) (held : Outstanding) : ℕ :=
  if scope ∈ held.reservation.scopes then held.unspent else 0

/-- A reservation that can be outstanding under the identity. -/
structure HeldOk (L : BudgetLedger) (id : String) (held : Outstanding) : Prop where
  id_eq : held.reservation.id = id
  nodup : held.reservation.scopes.Nodup
  opened : ∀ s ∈ held.reservation.scopes, ∃ a, L.accounts.get s = some a
  known : ∃ n ≤ L.next, id = reservationId n

/-- The ledger's own invariant. -/
structure Sound (L : BudgetLedger) : Prop where
  held : ∀ {id h}, L.outstanding.get id = some h → L.HeldOk id h
  reserved_eq : ∀ s, L.reserved s = L.outstanding.sum fun _ h => share s h

theorem sound_empty : Sound {} where
  held h := by cases h
  reserved_eq _ := rfl

/-! ## Accounts -/

theorem account_eq {L : BudgetLedger} {s : BudgetScope} {a : Account}
    (h : L.accounts.get s = some a) : L.account s = a := by
  simp [account, h]

theorem withLimit_account (L : BudgetLedger) (scope s : BudgetScope) (limit : ℕ) :
    (L.withLimit scope limit).account s =
      if s = scope then { L.account scope with limit := some limit } else L.account s := by
  simp only [withLimit, account, OrdMap.get_insert]
  split_ifs with h <;> simp

theorem withExactCommitted_account (L : BudgetLedger) (scope s : BudgetScope) (committed : ℕ) :
    (L.withExactCommitted scope committed).account s =
      if s = scope then { L.account scope with committed := committed } else L.account s := by
  simp only [withExactCommitted, account, OrdMap.get_insert]
  split_ifs with h <;> simp

theorem Sound.withLimit {L : BudgetLedger} (h : L.Sound) (scope : BudgetScope) (limit : ℕ) :
    (L.withLimit scope limit).Sound where
  held hid := by
    obtain ⟨h₁, h₂, h₃, h₄⟩ := h.held hid
    refine ⟨h₁, h₂, fun s hs => ?_, h₄⟩
    obtain ⟨a, ha⟩ := h₃ s hs
    simp only [BudgetLedger.withLimit, OrdMap.get_insert]
    split_ifs
    · exact ⟨_, rfl⟩
    · exact ⟨a, ha⟩
  reserved_eq s := by
    rw [reserved, withLimit_account]
    have := h.reserved_eq s
    split_ifs with hs
    · subst hs
      exact this
    · exact this

theorem Sound.withExactCommitted {L : BudgetLedger} (h : L.Sound) (scope : BudgetScope)
    (committed : ℕ) : (L.withExactCommitted scope committed).Sound where
  held hid := by
    obtain ⟨h₁, h₂, h₃, h₄⟩ := h.held hid
    refine ⟨h₁, h₂, fun s hs => ?_, h₄⟩
    obtain ⟨a, ha⟩ := h₃ s hs
    simp only [BudgetLedger.withExactCommitted, OrdMap.get_insert]
    split_ifs
    · exact ⟨_, rfl⟩
    · exact ⟨a, ha⟩
  reserved_eq s := by
    rw [reserved, withExactCommitted_account]
    have := h.reserved_eq s
    split_ifs with hs
    · subst hs
      exact this
    · exact this

/-- The ledger `L'` has `f` applied to the accounts of the scopes and every other
account as `L` has it. -/
structure Rewrites (L : BudgetLedger) (scopes : List BudgetScope) (f : Account → Account)
    (L' : BudgetLedger) : Prop where
  inside : ∀ s ∈ scopes, L'.accounts.get s = some (f (L.account s))
  outside : ∀ s, s ∉ scopes → L'.accounts.get s = L.accounts.get s

theorem Rewrites.account {L L' : BudgetLedger} {scopes : List BudgetScope}
    {f : Account → Account} (h : Rewrites L scopes f L') (s : BudgetScope) :
    L'.account s = if s ∈ scopes then f (L.account s) else L.account s := by
  split_ifs with hs
  · exact account_eq (h.inside s hs)
  · rw [BudgetLedger.account, h.outside s hs, BudgetLedger.account]

theorem Rewrites.limit {L L' : BudgetLedger} {scopes : List BudgetScope}
    {f : Account → Account} (h : Rewrites L scopes f L') (hf : ∀ a, (f a).limit = a.limit)
    (s : BudgetScope) : (L'.account s).limit = (L.account s).limit := by
  rw [h.account s]
  split_ifs
  · exact hf _
  · rfl

theorem Rewrites.opened {L L' : BudgetLedger} {scopes : List BudgetScope}
    {f : Account → Account} (h : Rewrites L scopes f L') {s : BudgetScope}
    (hs : ∃ a, L.accounts.get s = some a) : ∃ a, L'.accounts.get s = some a := by
  by_cases hmem : s ∈ scopes
  · exact ⟨_, h.inside s hmem⟩
  · rw [h.outside s hmem]
    exact hs

/-- Rewriting the accounts of distinct scopes. -/
theorem updateEach_rewrites {L : BudgetLedger} {f : Option Account → Option Account}
    {g : Account → Account} {scopes : List BudgetScope} (hnodup : scopes.Nodup)
    (hf : ∀ s ∈ scopes, f (L.accounts.get s) = some (g (L.account s))) :
    ∃ accounts, L.accounts.updateEach f scopes = some accounts ∧
      ∀ L' : BudgetLedger, L'.accounts = accounts → Rewrites L scopes g L' := by
  obtain ⟨m, hm, hin, hout⟩ :=
    OrdMap.updateEach_eq_some (g := fun a => g (a.getD {})) hnodup hf
  refine ⟨m, hm, fun L' hL' => ⟨fun s hs => ?_, fun s hs => ?_⟩⟩
  · rw [hL', hin s hs, account]
  · rw [hL', hout s hs]

theorem mem_scopeSet {scopes : List BudgetScope} {s : BudgetScope} :
    s ∈ scopeSet scopes ↔ s ∈ scopes := by
  rw [scopeSet, OrdMap.mem_keys_iff]
  simp only [OrdMap.ofList, OrdMap.get_insertAll, OrdMap.get_empty, Option.or_none]
  have hlookup : ∀ l : List BudgetScope,
      (∃ v, lookup s (l.map fun s => (s, ())) = some v) ↔ s ∈ l := by
    intro l
    induction l with
    | nil => simp [lookup]
    | cons t l ih =>
      rw [List.map_cons, lookup]
      split_ifs with h
      · subst h
        simp
      · rw [ih, List.mem_cons]
        exact ⟨.inr, fun hm => hm.resolve_left fun heq => h heq.symm⟩
  rw [← List.map_reverse, hlookup, List.mem_reverse]

theorem scopeSet_nodup (scopes : List BudgetScope) : (scopeSet scopes).Nodup :=
  OrdMap.keys_nodup _

/-! ## What each operation does to a sound ledger -/

/-- A granted reservation: what it was admitted against and what it wrote. -/
structure Reserves (L : BudgetLedger) (r : Reservation) (L' : BudgetLedger) : Prop where
  id_eq : r.id = reservationId (L.next + 1)
  nodup : r.scopes.Nodup
  admitted : ∀ s ∈ r.scopes, ∀ limit, (L.account s).limit = some limit →
    L.committed s + L.reserved s + r.amount ≤ limit
  accounts : Rewrites L r.scopes (fun a => { a with reserved := a.reserved + r.amount }) L'
  outstanding : L'.outstanding = L.outstanding.insert r.id ⟨r, 0⟩
  next : L'.next = L.next + 1
  overflowed : L'.overflowed = L.overflowed

theorem refusal_eq_none {L : BudgetLedger} {amount : ℕ} {s : BudgetScope}
    (h : L.refusal amount s = none) :
    L.committed s + L.reserved s + amount < u128Bound ∧
      ∀ limit, (L.account s).limit = some limit →
        L.committed s + L.reserved s + amount ≤ limit := by
  simp only [refusal] at h
  split at h
  · cases h
  · rename_i total htotal
    obtain ⟨used, hused, htotal⟩ := Option.bind_eq_some_iff.mp htotal
    obtain ⟨_, rfl⟩ := addU128_eq_some.mp hused
    obtain ⟨hlt, rfl⟩ := addU128_eq_some.mp htotal
    refine ⟨hlt, fun limit hlimit => ?_⟩
    rw [hlimit, Option.bind_some] at h
    split_ifs at h with hle
    exact not_lt.mp hle

/-- Reserving never panics: it refuses and leaves the ledger, or it grants. -/
theorem reserve_cases (L : BudgetLedger) (scopes : List BudgetScope) (amount : ℕ) :
    (∃ e, L.reserve scopes amount = some (.error e, L)) ∨
      ∃ r L', L.reserve scopes amount = some (.ok r, L') ∧ r.amount = amount ∧
        r.scopes = scopeSet scopes ∧ Reserves L r L' := by
  simp only [reserve]
  split_ifs with hover hnext
  · exact .inl ⟨_, rfl⟩
  · exact .inl ⟨_, rfl⟩
  · split
    · exact .inl ⟨_, rfl⟩
    · rename_i hnone
      right
      have hfree : ∀ s ∈ scopeSet scopes, L.refusal amount s = none :=
        List.findSome?_eq_none_iff.mp hnone
      obtain ⟨accounts, haccounts, hrewrites⟩ := updateEach_rewrites (L := L)
        (g := fun a => { a with reserved := a.reserved + amount }) (scopeSet_nodup scopes)
        (f := hold amount) (fun s hs => by
          have hlt := (refusal_eq_none (hfree s hs)).1
          have hsum : addU128 (L.account s).reserved amount =
              some ((L.account s).reserved + amount) :=
            addU128_eq_some.mpr ⟨by rw [committed, reserved] at hlt; omega, rfl⟩
          simp only [hold]
          rw [← account, hsum, Option.map_some])
      rw [haccounts]
      refine ⟨_, _, rfl, rfl, rfl, rfl, scopeSet_nodup scopes, fun s hs => ?_, hrewrites _ rfl, rfl,
        rfl, rfl⟩
      exact (refusal_eq_none (hfree s hs)).2

/-- An accepted observation: what it moved and what it wrote. -/
structure Observes (L : BudgetLedger) (held : Outstanding) (actual : ℕ)
    (L' : BudgetLedger) : Prop where
  accounts : Rewrites L held.reservation.scopes (fun a => { a with
    committed := a.committed + (actual - held.observed)
    reserved := a.reserved - min (actual - held.observed) held.unspent }) L'
  outstanding : L'.outstanding =
    L.outstanding.insert held.reservation.id { held with observed := max held.observed actual }
  next : L'.next = L.next
  overflowed : L'.overflowed = L.overflowed

theorem fits_cases {L : BudgetLedger} (delta : ℕ) {scopes : List BudgetScope}
    (h : ∀ s ∈ scopes, ∃ a, L.accounts.get s = some a) :
    L.fits delta scopes = some false ∨
      L.fits delta scopes = some true ∧ ∀ s ∈ scopes, L.committed s + delta < u128Bound := by
  induction scopes with
  | nil => exact .inr ⟨rfl, fun s hs => absurd hs List.not_mem_nil⟩
  | cons s scopes ih =>
    obtain ⟨a, ha⟩ := h s List.mem_cons_self
    rw [fits, ha]
    simp only
    split_ifs with hover
    · exact .inl rfl
    · have hs : L.committed s + delta < u128Bound := by
        by_contra hge
        refine hover ?_
        rw [committed, account_eq ha] at hge
        rw [addU128_eq_none.mpr (not_lt.mp hge), Option.isNone_none]
      rcases ih fun t ht => h t (List.mem_cons_of_mem _ ht) with hfits | ⟨hfits, hlt⟩
      · exact .inl hfits
      · refine .inr ⟨hfits, fun t ht => ?_⟩
        rcases List.mem_cons.mp ht with rfl | ht
        · exact hs
        · exact hlt t ht

/-- What an outstanding reservation holds is part of the scope's reserved counter. -/
theorem Sound.unspent_le {L : BudgetLedger} (h : L.Sound) {id : String} {held : Outstanding}
    (hid : L.outstanding.get id = some held) {s : BudgetScope}
    (hs : s ∈ held.reservation.scopes) : held.unspent ≤ L.reserved s := by
  have hshare : share s held = held.unspent := if_pos hs
  rw [h.reserved_eq s, ← hshare]
  exact OrdMap.le_sum hid fun _ h => share s h

/-- Observing never panics: it refuses, changing at most the admission flag, or
it moves the charge. -/
theorem Sound.observeChargeExact_cases {L : BudgetLedger} (h : L.Sound) (r : Reservation)
    (actual : ℕ) :
    (∃ e, L.observeChargeExact r actual = some (.error e, L)) ∨
      (∃ e, L.observeChargeExact r actual = some (.error e, { L with overflowed := true })) ∨
      ∃ held L', L.outstanding.get r.id = some held ∧ held.reservation = r ∧
        L.observeChargeExact r actual = some (.ok (), L') ∧ Observes L held actual L' := by
  rw [observeChargeExact]
  cases hid : L.outstanding.get r.id with
  | none => exact .inl ⟨_, rfl⟩
  | some held =>
    simp only
    have hok := h.held hid
    split_ifs with hne
    · exact .inl ⟨_, rfl⟩
    · obtain rfl : held.reservation = r := not_not.mp hne
      rcases fits_cases (actual - held.observed) hok.opened with hfits | ⟨hfits, hlt⟩
      · rw [hfits]
        exact .inr (.inl ⟨_, rfl⟩)
      · rw [hfits]
        obtain ⟨accounts, haccounts, hrewrites⟩ := updateEach_rewrites (L := L)
          (g := fun a => { a with
            committed := a.committed + (actual - held.observed)
            reserved := a.reserved - min (actual - held.observed) held.unspent })
          (f := commit (actual - held.observed) (min (actual - held.observed) held.unspent))
          hok.nodup (fun s hs => by
            obtain ⟨a, ha⟩ := hok.opened s hs
            have hcommit := hlt s hs
            have hunspent := h.unspent_le hid hs
            rw [committed, account_eq ha] at hcommit
            rw [reserved, account_eq ha] at hunspent
            have hadd := addU128_eq_some.mpr ⟨hcommit, rfl⟩
            have hsub : subU128 a.reserved (min (actual - held.observed) held.unspent) =
                some (a.reserved - min (actual - held.observed) held.unspent) :=
              if_pos (le_trans (min_le_right _ _) hunspent)
            rw [commit, ha, Option.bind_some, hadd, Option.bind_some, hsub, Option.map_some,
              account_eq ha])
        rw [haccounts]
        exact .inr (.inr ⟨held, _, rfl, rfl, rfl, hrewrites _ rfl, rfl, rfl, rfl⟩)

/-- An ended reservation: what it returned. -/
structure Closes (L : BudgetLedger) (id : String) (held : Outstanding)
    (L' : BudgetLedger) : Prop where
  accounts : Rewrites L held.reservation.scopes (fun a => { a with
    reserved := a.reserved - held.unspent }) L'
  outstanding : L'.outstanding = L.outstanding.erase id
  next : L'.next = L.next
  overflowed : L'.overflowed = L.overflowed

/-- Ending an outstanding reservation never panics. -/
theorem Sound.close_cases {L : BudgetLedger} (h : L.Sound) {id : String} {held : Outstanding}
    (hid : L.outstanding.get id = some held) :
    ∃ L', L.close id held = some L' ∧ Closes L id held L' := by
  obtain ⟨accounts, haccounts, hrewrites⟩ := updateEach_rewrites (L := L)
    (g := fun a => { a with reserved := a.reserved - held.unspent })
    (f := unhold held.unspent) (h.held hid).nodup (fun s hs => by
      have hsub : subU128 (L.account s).reserved held.unspent =
          some ((L.account s).reserved - held.unspent) := if_pos (h.unspent_le hid hs)
      simp only [unhold]
      rw [← account, hsub, Option.map_some])
  rw [close, haccounts]
  exact ⟨_, rfl, hrewrites _ rfl, rfl, rfl, rfl⟩

theorem Sound.fresh {L : BudgetLedger} (h : L.Sound) :
    L.outstanding.get (reservationId (L.next + 1)) = none := by
  rw [Option.eq_none_iff_forall_ne_some]
  intro held hid
  obtain ⟨n, hn, heq⟩ := (h.held hid).known
  have := reservationId_injective heq
  omega

theorem HeldOk.mono {L : BudgetLedger} (L' : BudgetLedger) {id : String} {held : Outstanding}
    (h : L.HeldOk id held) (hnext : L.next ≤ L'.next)
    (hopened : ∀ s, (∃ a, L.accounts.get s = some a) → ∃ a, L'.accounts.get s = some a) :
    L'.HeldOk id held := by
  obtain ⟨n, hn, heq⟩ := h.known
  exact ⟨h.id_eq, h.nodup, fun s hs => hopened s (h.opened s hs), n, hn.trans hnext, heq⟩

theorem Sound.reserves {L L' : BudgetLedger} (h : L.Sound) {r : Reservation}
    (hr : Reserves L r L') : L'.Sound where
  held := by
    intro id held hid
    rw [hr.outstanding, OrdMap.get_insert] at hid
    split_ifs at hid with heq
    · obtain rfl := Option.some.inj hid
      refine ⟨heq.symm, hr.nodup, fun s hs => ⟨_, hr.accounts.inside s hs⟩, L.next + 1, ?_, ?_⟩
      · rw [hr.next]
      · rw [heq, hr.id_eq]
    · exact (h.held hid).mono L' (by rw [hr.next]; omega) fun s => hr.accounts.opened
  reserved_eq s := by
    rw [hr.outstanding, OrdMap.sum_insert_of_none (by rw [hr.id_eq]; exact h.fresh),
      ← h.reserved_eq s, reserved, hr.accounts.account s, share]
    split_ifs with hs <;> rfl

/-- The part of a held reservation that an observation leaves. -/
theorem share_observe (s : BudgetScope) (held : Outstanding) (actual : ℕ) :
    share s { held with observed := max held.observed actual } +
      (if s ∈ held.reservation.scopes then min (actual - held.observed) held.unspent else 0) =
        share s held := by
  simp only [share, Outstanding.unspent]
  split_ifs <;> omega

theorem Sound.observes {L L' : BudgetLedger} (h : L.Sound) {held : Outstanding} {actual : ℕ}
    (hid : L.outstanding.get held.reservation.id = some held) (ho : Observes L held actual L') :
    L'.Sound where
  held := by
    intro id' held' hid'
    have hopened : ∀ s, (∃ a, L.accounts.get s = some a) → ∃ a, L'.accounts.get s = some a :=
      fun s => ho.accounts.opened
    rw [ho.outstanding, OrdMap.get_insert] at hid'
    split_ifs at hid' with heq
    · obtain rfl := Option.some.inj hid'
      obtain ⟨h₁, h₂, h₃, h₄⟩ := (h.held hid).mono L' (by rw [ho.next]) hopened
      exact ⟨heq.symm, h₂, h₃, heq ▸ h₄⟩
    · exact (h.held hid').mono L' (by rw [ho.next]) hopened
  reserved_eq s := by
    have hsum := OrdMap.sum_insert_of_some hid
      { held with observed := max held.observed actual } fun _ h => share s h
    have hpart := share_observe s held actual
    have hle := h.unspent_le hid (s := s)
    have hold := h.reserved_eq s
    rw [ho.outstanding, reserved, ho.accounts.account s]
    rw [reserved] at hold hle
    split_ifs at hpart ⊢ with hs
    · have := hle hs
      simp only
      omega
    · omega

theorem Sound.closes {L L' : BudgetLedger} (h : L.Sound) {id : String} {held : Outstanding}
    (hid : L.outstanding.get id = some held) (hc : Closes L id held L') : L'.Sound where
  held := by
    intro id' held' hid'
    rw [hc.outstanding, OrdMap.get_erase] at hid'
    split_ifs at hid' with heq
    exact (h.held hid').mono L' (by rw [hc.next]) fun s => hc.accounts.opened
  reserved_eq s := by
    have hsum := OrdMap.sum_erase L.outstanding id fun _ h => share s h
    rw [hid, Option.elim, share] at hsum
    have hold := h.reserved_eq s
    rw [hc.outstanding, reserved, hc.accounts.account s]
    rw [reserved] at hold
    split_ifs at hsum ⊢ with hs
    · simp only
      omega
    · omega

/-- Settling never panics: it does nothing to a reservation that is not
outstanding, is refused as the observation is, or observes and then ends it. -/
theorem Sound.chargeExact_cases {L : BudgetLedger} (h : L.Sound) (r : Reservation)
    (actual : ℕ) :
    (L.outstanding.get r.id = none ∧ L.chargeExact r actual = some (.ok (), L)) ∨
      (∃ e, L.chargeExact r actual = some (.error e, L)) ∨
      (∃ e, L.chargeExact r actual = some (.error e, { L with overflowed := true })) ∨
      ∃ held L₁ L₂, L.outstanding.get r.id = some held ∧ held.reservation = r ∧
        Observes L held actual L₁ ∧
        Closes L₁ r.id { held with observed := max held.observed actual } L₂ ∧
        L.chargeExact r actual = some (.ok (), L₂) := by
  rw [chargeExact]
  cases hout : L.outstanding.get r.id with
  | none => exact .inl ⟨rfl, rfl⟩
  | some held =>
    right
    simp only [Option.isNone_some, Bool.false_eq_true, if_false]
    rcases h.observeChargeExact_cases r actual with
      ⟨e, he⟩ | ⟨e, he⟩ | ⟨held', L₁, hid, rfl, hok, ho⟩
    · exact .inl ⟨e, by rw [he]; rfl⟩
    · exact .inr (.inl ⟨e, by rw [he]; rfl⟩)
    · obtain rfl : held = held' := Option.some.inj (hout.symm.trans hid)
      have hid₁ : L₁.outstanding.get held.reservation.id =
          some { held with observed := max held.observed actual } := by
        rw [ho.outstanding, OrdMap.get_insert_self]
      obtain ⟨L₂, hclose, hc⟩ := (h.observes hid ho).close_cases hid₁
      refine .inr (.inr ⟨held, L₁, L₂, rfl, rfl, ho, hc, ?_⟩)
      rw [hok, Option.bind_some]
      simp only [hid₁, hclose, Option.map_some]

/-- Releasing never panics. -/
theorem Sound.release_cases {L : BudgetLedger} (h : L.Sound) (r : Reservation) :
    (L.outstanding.get r.id = none ∧ L.release r = some L) ∨
      ∃ held L', L.outstanding.get r.id = some held ∧ Closes L r.id held L' ∧
        L.release r = some L' := by
  rw [release]
  cases hout : L.outstanding.get r.id with
  | none => exact .inl ⟨rfl, rfl⟩
  | some held =>
    obtain ⟨L', hclose, hc⟩ := h.close_cases hout
    exact .inr ⟨held, L', rfl, hc, hclose⟩

/-- Closing admission changes nothing the invariant reads. -/
theorem Sound.overflow {L : BudgetLedger} (h : L.Sound) :
    Sound { L with overflowed := true } where
  held hid := by
    obtain ⟨h₁, h₂, h₃, h₄⟩ := h.held hid
    exact ⟨h₁, h₂, h₃, h₄⟩
  reserved_eq := h.reserved_eq

/-- What a scope has committed and holds. -/
def spent (L : BudgetLedger) (scope : BudgetScope) : ℕ := L.committed scope + L.reserved scope

theorem Reserves.spent {L L' : BudgetLedger} {r : Reservation} (h : Reserves L r L')
    (s : BudgetScope) : spent L' s = spent L s + if s ∈ r.scopes then r.amount else 0 := by
  simp only [BudgetLedger.spent, committed, reserved, h.accounts.account s]
  split_ifs
  · simp only
    omega
  · rfl

theorem Sound.closes_spent {L L' : BudgetLedger} (h : L.Sound) {id : String} {held : Outstanding}
    (hid : L.outstanding.get id = some held) (hc : Closes L id held L') (s : BudgetScope) :
    spent L' s + (if s ∈ held.reservation.scopes then held.unspent else 0) = spent L s := by
  have hle := h.unspent_le hid (s := s)
  simp only [spent, committed, reserved, hc.accounts.account s] at hle ⊢
  split_ifs with hs
  · have := hle hs
    simp only
    omega
  · rfl

/-- A charge within the reservation moves tokens and adds none. -/
theorem Sound.observes_spent {L L' : BudgetLedger} (h : L.Sound) {held : Outstanding} {actual : ℕ}
    (hid : L.outstanding.get held.reservation.id = some held) (ho : Observes L held actual L')
    (hwithin : actual ≤ held.reservation.amount) (s : BudgetScope) : spent L' s = spent L s := by
  have hle := h.unspent_le hid (s := s)
  simp only [spent, committed, reserved, ho.accounts.account s] at hle ⊢
  split_ifs with hs
  · have := hle hs
    simp only [Outstanding.unspent] at this ⊢
    omega
  · rfl

/-- A reservation refused for its tokens does not fit one of its scopes. -/
theorem reserve_refused_tokens {L L' : BudgetLedger} {scopes : List BudgetScope} {amount : ℕ}
    {e : BudgetError} (h : L.reserve scopes amount = some (.error e, L'))
    (he : e.reason = .tokens) :
    ∃ s ∈ scopes, ∃ limit, (L.account s).limit = some limit ∧ limit < spent L s + amount := by
  simp only [reserve] at h
  split_ifs at h with hover hnext
  · cases h
    cases he
  · cases h
    cases he
  · split at h
    · rename_i refused hsome
      cases h
      obtain ⟨l₁, s, l₂, hl, hs, -⟩ := List.findSome?_eq_some_iff.mp hsome
      have hmem : s ∈ scopes := mem_scopeSet.mp (by rw [hl]; simp)
      simp only [refusal] at hs
      split at hs
      · cases hs
        cases he
      · rename_i total htotal
        obtain ⟨used, hused, htotal⟩ := Option.bind_eq_some_iff.mp htotal
        obtain ⟨-, rfl⟩ := addU128_eq_some.mp hused
        obtain ⟨-, rfl⟩ := addU128_eq_some.mp htotal
        obtain ⟨limit, hlimit, hs⟩ := Option.bind_eq_some_iff.mp hs
        split_ifs at hs with hlt
        exact ⟨s, hmem, limit, hlimit, hlt⟩
    · obtain ⟨accounts, -, heq⟩ := Option.map_eq_some_iff.mp h
      cases heq

/-- What every operation on a reservation already made keeps of a sound ledger. -/
structure Carries (L L' : BudgetLedger) : Prop where
  sound : L'.Sound
  next : L'.next = L.next
  runLimit : (L'.account .run).limit = (L.account .run).limit

theorem Carries.refl {L : BudgetLedger} (h : L.Sound) : Carries L L := ⟨h, rfl, rfl⟩

theorem Carries.trans {L₁ L₂ L₃ : BudgetLedger} (h₁ : Carries L₁ L₂) (h₂ : Carries L₂ L₃) :
    Carries L₁ L₃ :=
  ⟨h₂.sound, h₂.next.trans h₁.next, h₂.runLimit.trans h₁.runLimit⟩

theorem Carries.overflow {L : BudgetLedger} (h : L.Sound) :
    Carries L { L with overflowed := true } :=
  ⟨h.overflow, rfl, rfl⟩

theorem Carries.observes {L L' : BudgetLedger} (h : L.Sound) {held : Outstanding} {actual : ℕ}
    (hid : L.outstanding.get held.reservation.id = some held) (ho : Observes L held actual L') :
    Carries L L' :=
  ⟨h.observes hid ho, ho.next, ho.accounts.limit (fun _ => rfl) _⟩

theorem Carries.closes {L L' : BudgetLedger} (h : L.Sound) {id : String} {held : Outstanding}
    (hid : L.outstanding.get id = some held) (hc : Closes L id held L') : Carries L L' :=
  ⟨h.closes hid hc, hc.next, hc.accounts.limit (fun _ => rfl) _⟩

theorem Carries.withExactCommitted {L : BudgetLedger} (h : L.Sound) (scope : BudgetScope)
    (committed : ℕ) : Carries L (L.withExactCommitted scope committed) := by
  refine ⟨h.withExactCommitted scope committed, rfl, ?_⟩
  rw [withExactCommitted_account]
  split_ifs with heq
  · rw [heq]
  · rfl

theorem Carries.withLimit {L : BudgetLedger} (h : L.Sound) (name : String) (limit : ℕ) :
    Carries L (L.withLimit (.fanOut name) limit) := by
  refine ⟨h.withLimit (.fanOut name) limit, rfl, ?_⟩
  rw [withLimit_account, if_neg (by simp)]

/-- The ledgers a run may start from: limits and earlier commitments, set on the
empty ledger in any order. -/
inductive Built : BudgetLedger → Prop
  | default : Built {}
  | withLimit {L : BudgetLedger} (h : Built L) (scope : BudgetScope) (limit : ℕ) :
      Built (L.withLimit scope limit)
  | withExactCommitted {L : BudgetLedger} (h : Built L) (scope : BudgetScope) (committed : ℕ) :
      Built (L.withExactCommitted scope committed)

theorem Built.sound {L : BudgetLedger} (h : Built L) : L.Sound := by
  induction h with
  | default => exact sound_empty
  | withLimit _ scope limit ih => exact ih.withLimit scope limit
  | withExactCommitted _ scope committed ih => exact ih.withExactCommitted scope committed

theorem Built.outstanding {L : BudgetLedger} (h : Built L) : L.outstanding = .empty := by
  induction h with
  | default => rfl
  | withLimit _ _ _ ih => exact ih
  | withExactCommitted _ _ _ ih => exact ih

end BudgetLedger

/-! ## Histories of calls -/

/-- One call of the ledger's interface, with any values. -/
inductive BudgetCall where
  | reserve (scopes : List BudgetScope) (amount : ℕ)
  | observeChargeExact (reservation : Reservation) (actual : ℕ)
  | chargeExact (reservation : Reservation) (actual : ℕ)
  | release (reservation : Reservation)
  deriving DecidableEq, Repr

/-- A ledger with what its callers have seen of it. -/
structure BudgetHistory where
  ledger : BudgetLedger
  /-- every reservation made so far, with the highest charge observed for it -/
  made : OrdMap String Outstanding

namespace BudgetHistory

open BudgetLedger

/-- Nothing was reserved yet. -/
def start (L : BudgetLedger) : BudgetHistory := ⟨L, .empty⟩

/-- Record an observed charge. -/
def charge (made : OrdMap String Outstanding) (id : String) (actual : ℕ) :
    OrdMap String Outstanding :=
  match made.get id with
  | none => made
  | some c => made.insert id { c with observed := max c.observed actual }

/-- Make a call; `none` where the ledger panics. A charge is observed when the
call is accepted for a reservation that is outstanding. -/
def step (H : BudgetHistory) : BudgetCall → Option BudgetHistory
  | .reserve scopes amount =>
    (H.ledger.reserve scopes amount).map fun
      | (.error _, L) => ⟨L, H.made⟩
      | (.ok r, L) => ⟨L, H.made.insert r.id ⟨r, 0⟩⟩
  | .observeChargeExact r actual =>
    (H.ledger.observeChargeExact r actual).map fun
      | (.error _, L) => ⟨L, H.made⟩
      | (.ok (), L) => ⟨L, charge H.made r.id actual⟩
  | .chargeExact r actual =>
    (H.ledger.chargeExact r actual).map fun
      | (.error _, L) => ⟨L, H.made⟩
      | (.ok (), L) =>
        ⟨L, if H.ledger.outstanding.contains r.id then charge H.made r.id actual else H.made⟩
  | .release r => (H.ledger.release r).map fun L => ⟨L, H.made⟩

/-- What a reservation has charged to a scope. -/
def paid (scope : BudgetScope) (c : Outstanding) : ℕ :=
  if scope ∈ c.reservation.scopes then c.observed else 0

/-- What a reservation has charged to a scope beyond its amount. -/
def overrun (scope : BudgetScope) (c : Outstanding) : ℕ :=
  if scope ∈ c.reservation.scopes then c.observed - c.reservation.amount else 0

/-- What the calls keep, from the ledger they started with. -/
structure Conserves (init : BudgetLedger) (H : BudgetHistory) : Prop where
  sound : H.ledger.Sound
  held : ∀ {id h}, H.ledger.outstanding.get id = some h → H.made.get id = some h
  known : ∀ {id c}, H.made.get id = some c → ∃ n ≤ H.ledger.next, id = reservationId n
  limit_eq : ∀ s, (H.ledger.account s).limit = (init.account s).limit
  committed_eq : ∀ s, H.ledger.committed s = init.committed s + H.made.sum fun _ c => paid s c
  bounded : ∀ s limit, (init.account s).limit = some limit →
    H.ledger.committed s + H.ledger.reserved s ≤
      max limit (init.committed s) + H.made.sum fun _ c => overrun s c

theorem Conserves.start {init : BudgetLedger} (h : Built init) :
    Conserves init (start init) where
  sound := h.sound
  held hid := by
    rw [BudgetHistory.start, h.outstanding] at hid
    cases hid
  known hid := by cases hid
  limit_eq _ := rfl
  committed_eq _ := rfl
  bounded s limit _ := by
    have hreserved : init.reserved s = 0 := by
      rw [h.sound.reserved_eq s, h.outstanding, OrdMap.sum_empty]
    change init.committed s + init.reserved s ≤ _
    rw [hreserved]
    exact le_add_right (le_max_right _ _)

variable {init : BudgetLedger} {H : BudgetHistory}

/-- The refusal that closes admission changes no account. -/
theorem Conserves.overflowed (h : Conserves init H) :
    Conserves init ⟨{ H.ledger with overflowed := true }, H.made⟩ where
  sound := h.sound.overflow
  held := h.held
  known := h.known
  limit_eq := h.limit_eq
  committed_eq := h.committed_eq
  bounded := h.bounded

theorem Conserves.reserves (h : Conserves init H) {r : Reservation} {L' : BudgetLedger}
    (hr : Reserves H.ledger r L') : Conserves init ⟨L', H.made.insert r.id ⟨r, 0⟩⟩ := by
  have hfresh : H.made.get r.id = none := by
    rw [Option.eq_none_iff_forall_ne_some]
    intro c hc
    obtain ⟨n, hn, heq⟩ := h.known hc
    have := reservationId_injective (hr.id_eq.symm.trans heq)
    omega
  refine ⟨h.sound.reserves hr, ?_, ?_, ?_, ?_, ?_⟩
  · intro id held hid
    rw [hr.outstanding, OrdMap.get_insert] at hid
    rw [OrdMap.get_insert]
    split_ifs at hid ⊢ with heq
    · exact hid
    · exact h.held hid
  · intro id c hc
    rw [hr.next]
    rw [OrdMap.get_insert] at hc
    split_ifs at hc with heq
    · exact ⟨_, le_rfl, heq.trans hr.id_eq⟩
    · obtain ⟨n, hn, hid⟩ := h.known hc
      exact ⟨n, by omega, hid⟩
  · intro s
    rw [hr.accounts.limit (fun _ => rfl) s, h.limit_eq s]
  · intro s
    have hcommitted : L'.committed s = H.ledger.committed s := by
      rw [BudgetLedger.committed, hr.accounts.account s]
      split_ifs <;> rfl
    rw [OrdMap.sum_insert_of_none hfresh, hcommitted, h.committed_eq s, paid]
    simp
  · intro s limit hlimit
    have hbound := h.bounded s limit hlimit
    have hadmission := hr.admitted s
    rw [OrdMap.sum_insert_of_none hfresh, BudgetLedger.committed, BudgetLedger.reserved,
      hr.accounts.account s]
    split_ifs with hs
    · have := hadmission hs limit ((h.limit_eq s).trans hlimit)
      rw [BudgetLedger.committed, BudgetLedger.reserved] at this
      have := le_max_left limit (init.committed s)
      simp only
      omega
    · rw [← Nat.add_assoc]
      exact hbound.trans (Nat.le_add_right _ _)

theorem Conserves.observes (h : Conserves init H) {held : Outstanding} {actual : ℕ}
    {L' : BudgetLedger} (hid : H.ledger.outstanding.get held.reservation.id = some held)
    (ho : Observes H.ledger held actual L') :
    Conserves init ⟨L', charge H.made held.reservation.id actual⟩ := by
  have hmade := h.held hid
  rw [charge, hmade]
  refine ⟨h.sound.observes hid ho, ?_, ?_, ?_, ?_, ?_⟩
  · intro id held' hid'
    rw [ho.outstanding, OrdMap.get_insert] at hid'
    rw [OrdMap.get_insert]
    split_ifs at hid' ⊢ with heq
    · exact hid'
    · exact h.held hid'
  · intro id c hc
    rw [ho.next]
    rw [OrdMap.get_insert] at hc
    split_ifs at hc with heq
    · exact heq ▸ h.known hmade
    · exact h.known hc
  · intro s
    rw [ho.accounts.limit (fun _ => rfl) s, h.limit_eq s]
  · intro s
    have hsum := OrdMap.sum_insert_of_some hmade
      { held with observed := max held.observed actual } fun _ c => paid s c
    have hold := h.committed_eq s
    rw [BudgetLedger.committed] at hold
    rw [BudgetLedger.committed, ho.accounts.account s]
    simp only [paid] at hsum hold ⊢
    split_ifs at hsum ⊢ with hs
    · simp only
      omega
    · omega
  · intro s limit hlimit
    have hsum := OrdMap.sum_insert_of_some hmade
      { held with observed := max held.observed actual } fun _ c => overrun s c
    have hbound := h.bounded s limit hlimit
    have hle := h.sound.unspent_le hid (s := s)
    rw [BudgetLedger.committed, BudgetLedger.reserved] at hbound
    rw [BudgetLedger.reserved] at hle
    rw [BudgetLedger.committed, BudgetLedger.reserved, ho.accounts.account s]
    simp only [overrun, Outstanding.unspent] at hsum hbound hle ⊢
    split_ifs at hsum ⊢ with hs
    · have := hle hs
      simp only
      omega
    · omega

theorem Conserves.closes (h : Conserves init H) {id : String} {held : Outstanding}
    {L' : BudgetLedger} (hid : H.ledger.outstanding.get id = some held)
    (hc : Closes H.ledger id held L') : Conserves init ⟨L', H.made⟩ := by
  refine ⟨h.sound.closes hid hc, ?_, ?_, ?_, ?_, ?_⟩
  · intro id' held' hid'
    rw [hc.outstanding, OrdMap.get_erase] at hid'
    split_ifs at hid'
    exact h.held hid'
  · intro id' c hc'
    rw [hc.next]
    exact h.known hc'
  · intro s
    rw [hc.accounts.limit (fun _ => rfl) s, h.limit_eq s]
  · intro s
    rw [← h.committed_eq s, BudgetLedger.committed, hc.accounts.account s]
    split_ifs <;> rfl
  · intro s limit hlimit
    have hbound := h.bounded s limit hlimit
    rw [BudgetLedger.committed, BudgetLedger.reserved] at hbound
    rw [BudgetLedger.committed, BudgetLedger.reserved, hc.accounts.account s]
    split_ifs with hs
    · simp only
      omega
    · exact hbound

/-- **One call.** No call panics, and every call keeps the invariant. -/
theorem Conserves.step (h : Conserves init H) (call : BudgetCall) :
    ∃ H', H.step call = some H' ∧ Conserves init H' := by
  cases call with
  | reserve scopes amount =>
    rcases reserve_cases H.ledger scopes amount with ⟨e, he⟩ | ⟨r, L', hok, -, -, hr⟩
    · exact ⟨H, by rw [BudgetHistory.step, he]; rfl, h⟩
    · exact ⟨_, by rw [BudgetHistory.step, hok]; rfl, h.reserves hr⟩
  | observeChargeExact r actual =>
    rcases h.sound.observeChargeExact_cases r actual with
      ⟨e, he⟩ | ⟨e, he⟩ | ⟨held, L', hid, rfl, hok, ho⟩
    · exact ⟨H, by rw [BudgetHistory.step, he]; rfl, h⟩
    · exact ⟨_, by rw [BudgetHistory.step, he]; rfl, h.overflowed⟩
    · exact ⟨_, by rw [BudgetHistory.step, hok]; rfl, h.observes hid ho⟩
  | chargeExact r actual =>
    rcases h.sound.chargeExact_cases r actual with
      ⟨hout, hok⟩ | ⟨e, he⟩ | ⟨e, he⟩ | ⟨held, L₁, L₂, hid, rfl, ho, hc, hok⟩
    · refine ⟨H, ?_, h⟩
      rw [BudgetHistory.step, hok, Option.map_some, OrdMap.contains, hout]
      rfl
    · exact ⟨H, by rw [BudgetHistory.step, he]; rfl, h⟩
    · exact ⟨_, by rw [BudgetHistory.step, he]; rfl, h.overflowed⟩
    · -- the observation is recorded first, then the reservation is ended
      refine ⟨_, ?_, (h.observes hid ho).closes ?_ hc⟩
      · rw [BudgetHistory.step, hok, Option.map_some, OrdMap.contains, hid]
        rfl
      · rw [ho.outstanding, OrdMap.get_insert_self]
  | release r =>
    rcases h.sound.release_cases r with ⟨-, hok⟩ | ⟨held, L', hid, hc, hok⟩
    · exact ⟨H, by rw [BudgetHistory.step, hok]; rfl, h⟩
    · exact ⟨_, by rw [BudgetHistory.step, hok]; rfl, h.closes hid hc⟩

/-- **Every sequence of calls** runs to its end, and the invariant holds there. -/
theorem Conserves.run (h : Conserves init H) (calls : List BudgetCall) :
    ∃ H', run BudgetHistory.step H calls = some H' ∧ Conserves init H' := by
  induction calls generalizing H with
  | nil => exact ⟨H, rfl, h⟩
  | cons call calls ih =>
    obtain ⟨H₁, hstep, h₁⟩ := h.step call
    obtain ⟨H₂, hrun, h₂⟩ := ih h₁
    exact ⟨H₂, run_cons_eq_some.mpr ⟨H₁, hstep, hrun⟩, h₂⟩

/-- **Conservation.** From any built ledger every sequence of calls completes
without a panic. In the state it reaches, each scope's reserved counter is what
the outstanding reservations naming it have not spent, and its committed
counter is the initial one and the highest charge observed for every
reservation ever made that names it. -/
theorem run_conserves (init : BudgetLedger) (hinit : Built init) (calls : List BudgetCall) :
    ∃ H, Afactory.run BudgetHistory.step (start init) calls = some H ∧ ∀ s,
      H.ledger.reserved s = (H.ledger.outstanding.sum fun _ h =>
        if s ∈ h.reservation.scopes then h.reservation.amount - h.observed else 0) ∧
      H.ledger.committed s = init.committed s + H.made.sum fun _ c =>
        if s ∈ c.reservation.scopes then c.observed else 0 := by
  obtain ⟨H, hrun, hH⟩ := (Conserves.start hinit).run calls
  exact ⟨H, hrun, fun s => ⟨hH.sound.reserved_eq s, hH.committed_eq s⟩⟩

/-- The ledger of one run limited to 100 with 30 committed before. -/
def resumed : BudgetLedger := (BudgetLedger.withLimit {} .run 100).withExactCommitted .run 30

theorem resumed_built : Built resumed :=
  (Built.default.withLimit .run 100).withExactCommitted .run 30

/-- An overrun, a repeated observation and a stale handle. -/
theorem run_conserves_resumed :
    ∃ H, Afactory.run BudgetHistory.step (start resumed)
      [.reserve [.run, .fanOut "review"] 40, .observeChargeExact ⟨"reservation:1", 40,
        [.fanOut "review", .run]⟩ 55, .chargeExact ⟨"reservation:1", 40,
        [.fanOut "review", .run]⟩ 50, .release ⟨"reservation:1", 1, []⟩] = some H ∧ ∀ s,
      H.ledger.reserved s = (H.ledger.outstanding.sum fun _ h =>
        if s ∈ h.reservation.scopes then h.reservation.amount - h.observed else 0) ∧
      H.ledger.committed s = resumed.committed s + H.made.sum fun _ c =>
        if s ∈ c.reservation.scopes then c.observed else 0 :=
  run_conserves resumed resumed_built _

/-- **Admission bound and atomicity.** However a run went, a limited scope holds
no more than its limit (or what it began with, if that was more) and the
overruns of the reservations naming it; without an overrun it holds no more
than the limit. A refused reservation leaves the ledger as it was, and a refused
observation changes at most the flag that closes admission. -/
theorem run_bounded_atomic (init : BudgetLedger) (hinit : Built init) (calls : List BudgetCall)
    (H : BudgetHistory) (hrun : Afactory.run BudgetHistory.step (start init) calls = some H) :
    (∀ s limit, (H.ledger.account s).limit = some limit →
      H.ledger.committed s + H.ledger.reserved s ≤ max limit (init.committed s) +
        H.made.sum fun _ c =>
          if s ∈ c.reservation.scopes then c.observed - c.reservation.amount else 0) ∧
    (∀ s limit, (H.ledger.account s).limit = some limit → init.committed s ≤ limit →
      (∀ id c, H.made.get id = some c → s ∈ c.reservation.scopes →
        c.observed ≤ c.reservation.amount) →
      H.ledger.committed s + H.ledger.reserved s ≤ limit) ∧
    (∀ scopes amount e L, H.ledger.reserve scopes amount = some (.error e, L) →
      L = H.ledger) ∧
    ∀ r actual e L, H.ledger.observeChargeExact r actual = some (.error e, L) →
      L = H.ledger ∨ L = { H.ledger with overflowed := true } := by
  obtain ⟨H', hrun', h⟩ := (Conserves.start hinit).run calls
  obtain rfl : H' = H := Option.some.inj (hrun'.symm.trans hrun)
  refine ⟨fun s limit hlimit => ?_, fun s limit hlimit hinit hwithin => ?_,
    fun scopes amount e L hrefused => ?_, fun r actual e L hrefused => ?_⟩
  · exact h.bounded s limit ((h.limit_eq s).symm.trans hlimit)
  · have hbound := h.bounded s limit ((h.limit_eq s).symm.trans hlimit)
    have hzero : (H'.made.sum fun _ c => overrun s c) = 0 := OrdMap.sum_eq_zero fun id c hc => by
      rw [overrun]
      split_ifs with hs
      · exact Nat.sub_eq_zero_of_le (hwithin id c hc hs)
      · rfl
    rw [hzero, max_eq_left hinit] at hbound
    exact hbound
  · rcases reserve_cases H'.ledger scopes amount with ⟨e', he⟩ | ⟨r, L', hok, -⟩
    · rw [he] at hrefused
      cases hrefused
      rfl
    · rw [hok] at hrefused
      cases hrefused
  · rcases h.sound.observeChargeExact_cases r actual with
      ⟨e', he⟩ | ⟨e', he⟩ | ⟨held, L', -, -, hok, -⟩
    · rw [he] at hrefused
      cases hrefused
      exact .inl rfl
    · rw [he] at hrefused
      cases hrefused
      exact .inr rfl
    · rw [hok] at hrefused
      cases hrefused

/-- A charge of 55 for 40 reserved after 30 were committed, then a reservation
past the limit. -/
theorem run_bounded_atomic_resumed :
    ∃ H, Afactory.run BudgetHistory.step (start resumed)
      [.reserve [.run] 40, .chargeExact ⟨"reservation:1", 40, [.run]⟩ 55] = some H ∧
      H.ledger.committed .run + H.ledger.reserved .run ≤ max 100 (resumed.committed .run) +
        H.made.sum (fun _ c => if BudgetScope.run ∈ c.reservation.scopes then
          c.observed - c.reservation.amount else 0) ∧
      ∀ e L, H.ledger.reserve [.run] 20 = some (.error e, L) → L = H.ledger := by
  obtain ⟨H, hrun, h⟩ := (Conserves.start resumed_built).run
    [.reserve [.run] 40, .chargeExact ⟨"reservation:1", 40, [.run]⟩ 55]
  obtain ⟨hbound, -, hreserve, -⟩ := run_bounded_atomic resumed resumed_built _ H hrun
  exact ⟨H, hrun, hbound .run 100 (h.limit_eq .run), fun e L => hreserve [.run] 20 e L⟩

end BudgetHistory

end Afactory
