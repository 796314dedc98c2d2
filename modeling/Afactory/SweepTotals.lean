import Mathlib
import Afactory.SweepRules

/-!
# The totals of a sweep

A plan's running totals are exact, and so are those of the run that frees what was
planned.

* `Exact`: steps that each take their bytes out of a total that holds them;
* `Inputs.Balanced`: what is counted inside an entry fits in it, and the bytes fit in 64
  bits;
* `Sweep.Accounts`: the model's total against its entries, kept by every push;
* `run_as_previewed`, `run_total`: the exact executor's run, and any run.
-/

namespace Afactory

namespace Storage

/-! ## Exact steps -/

/-- The bytes of steps. -/
def stepBytes (steps : List Planned) : ℕ := (steps.map fun st => st.removal.bytes).sum

/-- Steps that take a total to another, each its own bytes, which the total holds. -/
def Exact : ℕ → List Planned → ℕ → Prop
  | t, [], t' => t = t'
  | t, st :: rest, t' => st.removal.bytes ≤ t ∧
    st.removal.totalAfter = some (t - st.removal.bytes) ∧ Exact (t - st.removal.bytes) rest t'

theorem Exact.snoc {t t' : ℕ} {steps : List Planned} (h : Exact t steps t') {st : Planned}
    (hle : st.removal.bytes ≤ t') (hafter : st.removal.totalAfter = some (t' - st.removal.bytes)) :
    Exact t (steps ++ [st]) (t' - st.removal.bytes) := by
  induction steps generalizing t with
  | nil =>
    obtain rfl : t = t' := h
    exact ⟨hle, hafter, rfl⟩
  | cons first rest ih => exact ⟨h.1, h.2.1, ih h.2.2⟩

theorem Exact.total {t t' : ℕ} {steps : List Planned} (h : Exact t steps t') :
    t' + stepBytes steps = t := by
  induction steps generalizing t with
  | nil => exact (h : t = t').symm
  | cons first rest ih =>
    have hle := h.1
    have := ih h.2.2
    rw [stepBytes, List.map_cons, List.sum_cons, ← stepBytes]
    omega

/-! ## What the model counts -/

/-- The bytes of the entries that are no telemetry. -/
def plainBytes (l : List Entry) : ℕ :=
  ((l.filter fun e => e.kind ≠ .telemetry).map fun e => e.bytes).sum

/-- The bytes of the entry that counts what lies within. -/
def bytesAt (l : List Entry) (w : Kind × PathBuf) : ℕ :=
  match l.find? (·.isHolder w.1 w.2) with
  | none => 0
  | some e => e.bytes

/-- What evictions can free of every telemetry directory. -/
def evictable (models : OrdMap PathBuf (Option Directory)) : ℕ :=
  models.sum fun _ model => match model with
    | none => 0
    | some model => model.evictable

/-- Bytes another entry counts: where, and how many. -/
abbrev Demand := (Kind × PathBuf) × ℕ

/-- What is demanded of one entry. -/
def demandOf (l : List Demand) (w : Kind × PathBuf) : ℕ :=
  ((l.filter fun d => d.1 = w).map Prod.snd).sum

/-- What is demanded of telemetry entries. -/
def telemetryDemand (l : List Demand) : ℕ :=
  ((l.filter fun d => d.1.1 = .telemetry).map Prod.snd).sum

theorem demandOf_cons (d : Demand) (l : List Demand) (w : Kind × PathBuf) :
    demandOf (d :: l) w = (if d.1 = w then d.2 else 0) + demandOf l w := by
  unfold demandOf
  by_cases h : d.1 = w <;> simp [h]

theorem telemetryDemand_cons (d : Demand) (l : List Demand) :
    telemetryDemand (d :: l) = (if d.1.1 = .telemetry then d.2 else 0) + telemetryDemand l := by
  unfold telemetryDemand
  by_cases h : d.1.1 = .telemetry <;> simp [h]

theorem plainBytes_cons (e : Entry) (l : List Entry) :
    plainBytes (e :: l) = (if e.kind = .telemetry then 0 else e.bytes) + plainBytes l := by
  unfold plainBytes
  by_cases h : e.kind = .telemetry <;> simp [h]

theorem bytesAt_cons (e : Entry) (l : List Entry) (w : Kind × PathBuf) :
    bytesAt (e :: l) w = if e.isHolder w.1 w.2 then e.bytes else bytesAt l w := by
  unfold bytesAt
  rw [List.find?_cons]
  cases e.isHolder w.1 w.2 <;> rfl

theorem Entry.isHolder_iff {e : Entry} {w : Kind × PathBuf} :
    e.isHolder w.1 w.2 = true ↔ (e.kind, e.path) = w ∧ e.taskId = none := by
  simp [Entry.isHolder, Prod.ext_iff]

/-- Taking the entry of a key out of entries of distinct keys. -/
theorem plainBytes_eraseP {l : List Entry} (hl : (l.map Entry.key).Nodup) {e : Entry}
    (he : e ∈ l) (hkind : e.kind ≠ .telemetry) :
    plainBytes (l.eraseP (·.key = e.key)) + e.bytes = plainBytes l := by
  induction l with
  | nil => cases he
  | cons x rest ih =>
    obtain ⟨hx, hrest⟩ := List.nodup_cons.mp hl
    by_cases hkey : x.key = e.key
    · obtain rfl : e = x := by
        rcases List.mem_cons.mp he with he | he
        · exact he
        · exact absurd (List.mem_map.mpr ⟨e, he, hkey.symm⟩) hx
      rw [List.eraseP_cons_of_pos (by simp), plainBytes_cons, if_neg hkind, Nat.add_comm]
    · have he : e ∈ rest := (List.mem_cons.mp he).resolve_left fun h => hkey (h ▸ rfl)
      rw [List.eraseP_cons_of_neg (by simpa using hkey), plainBytes_cons, plainBytes_cons,
        ← ih hrest he, Nat.add_assoc]

/-- An entry of another kind taken out leaves what a holder counts. -/
theorem bytesAt_eraseP {l : List Entry} {k : Key} {w : Kind × PathBuf} (hk : k.1 ≠ w.1) :
    bytesAt (l.eraseP (·.key = k)) w = bytesAt l w := by
  induction l with
  | nil => rfl
  | cons x rest ih =>
    by_cases hx : x.key = k
    · have hno : ¬ x.isHolder w.1 w.2 = true := by
        rw [Entry.isHolder_iff]
        rintro ⟨rfl, -⟩
        exact hk (congrArg Prod.fst hx.symm)
      rw [List.eraseP_cons_of_pos (by simpa using hx), bytesAt_cons, if_neg hno]
    · rw [List.eraseP_cons_of_neg (by simpa using hx), bytesAt_cons, bytesAt_cons, ih]

/-- Bytes taken out of a holder are off its own count only. -/
theorem bytesAt_changeFirst (l : List Entry) (w w' : Kind × PathBuf) (b : ℕ) :
    bytesAt (changeFirst (·.isHolder w.1 w.2) (fun e => { e with bytes := e.bytes - b }) l) w' =
      if w' = w then bytesAt l w' - b else bytesAt l w' := by
  induction l with
  | nil => simp [changeFirst, bytesAt]
  | cons x rest ih =>
    rw [changeFirst]
    by_cases hx : x.isHolder w.1 w.2 = true
    · rw [if_pos hx, bytesAt_cons, bytesAt_cons]
      by_cases hw' : w' = w
      · subst hw'
        rw [if_pos rfl, if_pos hx, if_pos (by exact hx)]
      · have hno : ¬ x.isHolder w'.1 w'.2 = true := by
          rw [Entry.isHolder_iff] at hx ⊢
          exact fun h => hw' (h.1.symm.trans hx.1)
        rw [if_neg hw', if_neg hno, if_neg (by exact hno)]
    · rw [if_neg hx, bytesAt_cons, bytesAt_cons, ih]
      by_cases hw' : x.isHolder w'.1 w'.2 = true
      · rw [if_pos hw', if_pos hw', if_neg]
        rintro rfl
        exact hx hw'
      · rw [if_neg hw', if_neg hw']

/-- An entry after the change is as it was, unless it is the holder. -/
theorem mem_of_mem_changeFirst {l : List Entry} {w : Kind × PathBuf} {b : ℕ} {x : Entry}
    (hx : x ∈ changeFirst (·.isHolder w.1 w.2) (fun e => { e with bytes := e.bytes - b }) l)
    (hkind : x.kind ≠ w.1) : x ∈ l := by
  induction l with
  | nil => exact hx
  | cons y rest ih =>
    rw [changeFirst] at hx
    split at hx
    next hy =>
      rcases List.mem_cons.mp hx with rfl | hx
      · exact absurd (congrArg Prod.fst (Entry.isHolder_iff.mp hy).1) hkind
      · exact List.mem_cons_of_mem _ hx
    · rcases List.mem_cons.mp hx with rfl | hx
      · exact List.mem_cons_self
      · exact List.mem_cons_of_mem _ (ih hx)

theorem plainBytes_changeFirst {l : List Entry} {w : Kind × PathBuf} {b : ℕ}
    (hb : b ≤ bytesAt l w) :
    plainBytes (changeFirst (·.isHolder w.1 w.2) (fun e => { e with bytes := e.bytes - b }) l) +
      (if w.1 = .telemetry then 0 else b) = plainBytes l := by
  induction l with
  | nil =>
    obtain rfl : b = 0 := by simpa [bytesAt] using hb
    simp [changeFirst, plainBytes]
  | cons x rest ih =>
    rw [changeFirst]
    rw [bytesAt_cons] at hb
    by_cases hx : x.isHolder w.1 w.2 = true
    · rw [if_pos hx] at hb
      have hkind : x.kind = w.1 := congrArg Prod.fst (Entry.isHolder_iff.mp hx).1
      rw [if_pos hx, plainBytes_cons, plainBytes_cons]
      simp only [hkind]
      split_ifs <;> omega
    · rw [if_neg hx] at hb
      have := ih hb
      rw [if_neg hx, plainBytes_cons, plainBytes_cons]
      omega

/-! ## Takes, spelled out -/

theorem Model.take_own {M : Model} (hM : M.keys.Nodup) {e : Entry} (he : e ∈ M.entries)
    (inside : Option (Kind × PathBuf)) (b : ℕ) :
    M.take (some e.key) inside b = ⟨M.entries.eraseP (·.key = e.key), M.total - e.bytes⟩ := by
  obtain ⟨x, hx⟩ : ∃ x, M.entries.find? (·.key = e.key) = some x := by
    rw [← Option.isSome_iff_exists, List.find?_isSome]
    exact ⟨e, he, by simp⟩
  have hkey : x.key = e.key := by simpa using List.find?_some hx
  obtain rfl := List.inj_on_of_nodup_map hM (List.mem_of_find?_eq_some hx) he hkey
  rw [take, Option.bind_some, hx]

/-- A key the model does not have names nothing to take. -/
theorem Model.take_unknown {M : Model} {key : Option Key}
    (hkey : ∀ k, key = some k → k ∉ M.keys) (inside : Option (Kind × PathBuf)) (b : ℕ) :
    M.take key inside b = M.takeWithin inside b := by
  cases key with
  | none => rfl
  | some k =>
    have hnone : M.entries.find? (·.key = k) = none := by
      refine List.find?_eq_none.mpr fun e he hek => hkey k rfl ?_
      exact List.mem_map.mpr ⟨e, he, by simpa using hek⟩
    rw [take, Option.bind_some, hnone]

theorem Model.takeWithin_eq {M : Model} {w : Kind × PathBuf} {b : ℕ}
    (hb : b ≤ bytesAt M.entries w) : M.takeWithin (some w) b =
      ⟨changeFirst (·.isHolder w.1 w.2) (fun e => { e with bytes := e.bytes - b }) M.entries,
        M.total - b⟩ := by
  unfold bytesAt at hb
  simp only [takeWithin]
  cases hf : M.entries.find? (·.isHolder w.1 w.2) with
  | some e =>
    rw [hf] at hb
    simp only [min_eq_left hb]
  | none =>
    rw [hf] at hb
    obtain rfl : b = 0 := Nat.le_zero.mp hb
    have hsame : ∀ l : List Entry, l.find? (·.isHolder w.1 w.2) = none →
        changeFirst (·.isHolder w.1 w.2) (fun e => { e with bytes := e.bytes - 0 }) l = l := by
      intro l
      induction l with
      | nil => exact fun _ => rfl
      | cons x rest ih =>
        intro hnone
        rw [List.find?_cons] at hnone
        cases hx : x.isHolder w.1 w.2 with
        | true => rw [hx] at hnone; cases hnone
        | false =>
          rw [hx] at hnone
          rw [changeFirst, hx, if_neg Bool.false_ne_true, ih hnone]
    rw [hsame _ hf, Nat.sub_zero]

/-! ## The accounts -/

/-- Whether entries of a kind are named one by one and hold nothing. -/
def Kind.named (k : Kind) : Bool := k = .claim || k = .survey || k = .task

/-- The model against the snapshot while `rest` is still demanded of its entries: an entry
no step named is there, a claim's, a Survey's and a Task's with all its bytes; the total
holds the entries' bytes, what telemetry can free and what is demanded of it; and the steps
are exact. -/
structure Sweep.Accounts (inputs : Inputs) (S : Sweep) (rest : List Demand) : Prop where
  tracks : inputs.Tracks S.model
  remain : ∀ e ∈ inputs.counted, e.key ∉ S.plan.steps.map Planned.key → e.bare ∈ S.model.bare
  whole : ∀ e ∈ S.model.entries, e.kind.named = true → e ∈ inputs.counted
  kinds : ∀ d ∈ rest, d.1.1.named = false
  demand : ∀ w, demandOf rest w ≤ bytesAt S.model.entries w
  balance : plainBytes S.model.entries + evictable S.telemetry.models + telemetryDemand rest ≤
    S.model.total
  covers : ∀ root model, S.telemetry.models.get root = some (some model) → model.Covers
  exact : Exact S.plan.totalBefore S.plan.steps S.model.total
  clean : ∀ st ∈ S.plan.steps, st.removal.left = []

namespace Sweep

variable {inputs : Inputs} {S : Sweep} {rest : List Demand}

/-- Nothing planned. -/
theorem Accounts.of_eq {S' : Sweep} (h : Accounts inputs S rest)
    (hsteps : S'.plan.steps = S.plan.steps) (hbefore : S'.plan.totalBefore = S.plan.totalBefore)
    (hmodel : S'.model = S.model) (htel : S'.telemetry.models = S.telemetry.models) :
    Accounts inputs S' rest where
  tracks := by rw [hmodel]; exact h.tracks
  remain := by rw [hmodel, hsteps]; exact h.remain
  whole := by rw [hmodel]; exact h.whole
  kinds := h.kinds
  demand := by rw [hmodel]; exact h.demand
  balance := by rw [hmodel, htel]; exact h.balance
  covers := by rw [htel]; exact h.covers
  exact := by rw [hmodel, hsteps, hbefore]; exact h.exact
  clean := by rw [hsteps]; exact h.clean

/-- A demand that is no longer made. -/
theorem Accounts.drop {d : Demand} (h : Accounts inputs S (d :: rest)) :
    Accounts inputs S rest where
  tracks := h.tracks
  remain := h.remain
  whole := h.whole
  kinds := fun x hx => h.kinds x (List.mem_cons_of_mem _ hx)
  demand := fun w => by
    have := h.demand w
    rw [demandOf_cons] at this
    omega
  balance := by
    have := h.balance
    rw [telemetryDemand_cons] at this
    omega
  covers := h.covers
  exact := h.exact
  clean := h.clean

theorem Accounts.drop_all (h : Accounts inputs S rest) : Accounts inputs S [] := by
  induction rest with
  | nil => exact h
  | cons d rest ih => exact ih h.drop

/-- A step of the entry its key names. -/
theorem Accounts.push_own (h : Accounts inputs S rest) (hin : inputs.Listed) {e : Entry}
    (he : e ∈ S.model.entries) (hkind : e.kind ≠ .telemetry) (hrest : ∀ d ∈ rest, d.1.1 ≠ e.kind)
    {r : Removal} (hr : r.bytes = e.bytes) (hkey : (r.kind, r.path, r.taskId) = e.key)
    (hleft : r.left = []) (job : Job) (inside : Option (Kind × PathBuf)) :
    Accounts inputs (S.push r job (some e.key) inside) rest := by
  have hnodup := hin.tracked_nodup h.tracks
  have htake := Model.take_own hnodup he inside r.bytes
  have hplain := plainBytes_eraseP hnodup he hkind
  have hbalance := h.balance
  have hfits : e.bytes ≤ S.model.total := by omega
  unfold push planStep
  rw [htake]
  refine ⟨?_, fun x hx hnew => ?_, fun x hx hnamed => ?_, h.kinds, fun w => ?_, ?_, h.covers, ?_,
    fun st hst => ?_⟩
  · exact List.Sublist.trans (List.eraseP_sublist.map _) h.tracks
  · rw [List.map_append, List.mem_append, not_or] at hnew
    obtain ⟨y, hy, hyx⟩ := List.mem_map.mp (h.remain x hx hnew.1)
    refine List.mem_map.mpr ⟨y, (List.mem_eraseP_of_neg ?_).mpr hy, hyx⟩
    intro hye
    have hye : y.key = e.key := by simpa using hye
    refine hnew.2 (List.mem_singleton.mpr ?_)
    rw [← x.key_bare, ← hyx, y.key_bare, hye, ← hkey]
    rfl
  · exact h.whole x (List.mem_of_mem_eraseP hx) hnamed
  · dsimp only
    by_cases hw : e.kind = w.1
    · have hzero : demandOf rest w = 0 := by
        have : (rest.filter fun d => d.1 = w) = [] := by
          refine List.filter_eq_nil_iff.mpr fun d hd hdw => hrest d hd ?_
          rw [of_decide_eq_true hdw, hw]
        rw [demandOf, this]
        rfl
      omega
    · rw [bytesAt_eraseP hw]
      exact h.demand w
  · dsimp only
    omega
  · rw [← hr] at hfits ⊢
    exact h.exact.snoc hfits rfl
  · rcases List.mem_append.mp hst with hst | hst
    · exact h.clean st hst
    · obtain rfl := List.mem_singleton.mp hst
      exact hleft

/-- A step whose bytes another entry counts. -/
theorem Accounts.push_within {w : Kind × PathBuf} {r : Removal}
    (h : Accounts inputs S ((w, r.bytes) :: rest)) {key : Option Key}
    (hkey : ∀ k, key = some k → k ∉ S.model.keys) (hleft : r.left = []) (job : Job) :
    Accounts inputs (S.push r job key (some w)) rest := by
  have hdemand := h.demand w
  rw [demandOf_cons, if_pos rfl] at hdemand
  have hb : r.bytes ≤ bytesAt S.model.entries w := by omega
  have htake : S.model.take key (some w) r.bytes = _ :=
    (Model.take_unknown hkey _ _).trans (Model.takeWithin_eq hb)
  have hplain := plainBytes_changeFirst hb
  have hbalance := h.balance
  rw [telemetryDemand_cons] at hbalance
  dsimp only at hbalance
  have hfits : r.bytes ≤ S.model.total := by
    split_ifs at hbalance hplain <;> omega
  unfold push planStep
  rw [htake]
  have hbare : (changeFirst (·.isHolder w.1 w.2) (fun e => { e with bytes := e.bytes - r.bytes })
      S.model.entries).map Entry.bare = S.model.bare := map_bare_changeFirst _ _ _
  have hwkind : w.1.named = false := h.kinds _ List.mem_cons_self
  refine ⟨?_, fun x hx hnew => ?_, fun x hx hnamed => ?_,
    fun d hd => h.kinds d (List.mem_cons_of_mem _ hd), fun w' => ?_, ?_, h.covers, ?_,
    fun st hst => ?_⟩
  · exact (show List.Sublist _ _ by rw [Model.bare, hbare]; exact h.tracks)
  · rw [List.map_append, List.mem_append, not_or] at hnew
    rw [Model.bare, hbare]
    exact h.remain x hx hnew.1
  · exact h.whole x (mem_of_mem_changeFirst hx fun hk => by rw [hk, hwkind] at hnamed; cases hnamed)
      hnamed
  · have := h.demand w'
    rw [demandOf_cons] at this
    dsimp only at this ⊢
    rw [bytesAt_changeFirst]
    by_cases hw' : w' = w
    · subst hw'
      rw [if_pos rfl] at this ⊢
      omega
    · rw [if_neg (Ne.symm hw')] at this
      rw [if_neg hw']
      omega
  · dsimp only
    split_ifs at hbalance hplain <;> omega
  · exact h.exact.snoc hfits rfl
  · rcases List.mem_append.mp hst with hst | hst
    · exact h.clean st hst
    · obtain rfl := List.mem_singleton.mp hst
      exact hleft

/-- A step of no bytes whose key the model does not have. -/
theorem Accounts.push_nothing (h : Accounts inputs S rest) {r : Removal} {key : Key}
    (hkey : key ∉ S.model.keys) (hr : r.bytes = 0) (hleft : r.left = []) (job : Job) :
    Accounts inputs (S.push r job (some key) none) rest := by
  have htake : S.model.take (some key) none r.bytes = S.model :=
    Model.take_unknown (fun k hk => Option.some.inj hk ▸ hkey) _ _
  unfold push planStep
  rw [htake]
  refine ⟨h.tracks, fun x hx hnew => ?_, h.whole, h.kinds, h.demand, h.balance, h.covers, ?_,
    fun st hst => ?_⟩
  · rw [List.map_append, List.mem_append, not_or] at hnew
    exact h.remain x hx hnew.1
  · obtain ⟨st, hst⟩ : ∃ st : Planned, st = ⟨{ r with totalAfter := some S.model.total }, job⟩ :=
      ⟨_, rfl⟩
    have hzero : st.removal.bytes = 0 := by rw [hst]; exact hr
    have := h.exact.snoc (by rw [hzero]; exact Nat.zero_le _) (by rw [hzero, hst]; rfl)
    rw [hzero, hst] at this
    exact this
  · rcases List.mem_append.mp hst with hst | hst
    · exact h.clean st hst
    · obtain rfl := List.mem_singleton.mp hst
      exact hleft

/-- The model an eviction was planned in: its directory, and what it freed of it. -/
theorem evictTelemetry_eq_ok {models : OrdMap PathBuf (Option Directory)} {e : Entry}
    {evicted : ℕ × OrdMap PathBuf (Option Directory)} (h : evictTelemetry models e = .ok evicted) :
    ∃ root id model segment, models.get root = some (some model) ∧
      model.segments.get id = some segment ∧
      evicted = ((model.remove id).1, models.insert root (some (model.remove id).2)) := by
  unfold evictTelemetry at h
  extract_lets failed at h
  split at h
  next root id hroot hid =>
    split at h
    next model hmodel =>
      split at h
      next hcontains =>
        obtain ⟨segment, hsegment⟩ := OrdMap.contains_iff.mp hcontains
        exact ⟨root, id, model, segment, hmodel, hsegment, (Except.ok.inj h).symm⟩
      · cases h
    · cases h
  · cases h

/-- What an eviction frees comes out of what telemetry can free. -/
theorem evictable_evicted {models : OrdMap PathBuf (Option Directory)} {e : Entry}
    {evicted : ℕ × OrdMap PathBuf (Option Directory)}
    (hcovers : ∀ root model, models.get root = some (some model) → model.Covers)
    (h : evictTelemetry models e = .ok evicted) :
    evictable evicted.2 + evicted.1 = evictable models ∧
      ∀ root model, evicted.2.get root = some (some model) → model.Covers := by
  obtain ⟨root, id, model, segment, hmodel, hsegment, rfl⟩ := evictTelemetry_eq_ok h
  have hc := hcovers root model hmodel
  have hfreed := hc.keyed.evictable_remove hsegment
  have hsum := OrdMap.sum_insert_of_some hmodel (some (model.remove id).2)
    fun _ model => match model with
      | none => 0
      | some model => Directory.evictable model
  refine ⟨?_, fun root' model' hget => ?_⟩
  · unfold evictable
    dsimp only at hsum ⊢
    omega
  · rw [OrdMap.get_insert] at hget
    split_ifs at hget
    · cases hget
      exact (hc.remove hsegment).2
    · exact hcovers root' model' hget

theorem plainBytes_takeTelemetry (M : Model) (path : PathBuf) (freed : ℕ) :
    plainBytes (M.takeTelemetry path freed).entries = plainBytes M.entries := by
  have hboth : (M.takeTelemetry path freed).entries.filter (fun e => e.kind ≠ .telemetry) =
      M.entries.filter fun e => e.kind ≠ .telemetry := by
    simp only [Model.takeTelemetry, List.filter_filter]
    refine List.filter_congr fun e _ => ?_
    cases h : decide (e.kind = .telemetry) <;> simp_all
  rw [plainBytes, hboth, plainBytes]

/-- A telemetry entry's eviction. -/
theorem Accounts.pushTelemetry (h : Accounts inputs S []) (hin : inputs.Listed) {e : Entry}
    (hkind : e.kind = .telemetry) (hid : e.taskId = none) (rule : Rule) :
    Accounts inputs (S.pushTelemetry e rule).2 [] ∧
      evictable (S.pushTelemetry e rule).2.telemetry.models + (S.pushTelemetry e rule).1.getD 0 =
        evictable S.telemetry.models := by
  rw [Sweep.pushTelemetry]
  cases hev : evictTelemetry S.telemetry.models e with
  | error error => exact ⟨h.of_eq rfl rfl rfl rfl, rfl⟩
  | ok evicted =>
    obtain ⟨hfreed, hcovers⟩ := evictable_evicted h.covers hev
    have hbalance := h.balance
    have hfits : evicted.1 ≤ S.model.total := by omega
    refine ⟨⟨?_, fun x hx hnew => ?_, fun x hx hnamed => ?_, by simp, fun w => Nat.zero_le _, ?_,
      hcovers, h.exact.snoc hfits rfl, fun st hst => ?_⟩, hfreed⟩
    · exact List.Sublist.trans (Model.bare_takeTelemetry _ _ _) h.tracks
    · have hold : x.key ∉ S.plan.steps.map Planned.key := fun hk => by
        obtain ⟨st, hst, hkey⟩ := List.mem_map.mp hk
        exact hnew (List.mem_map.mpr ⟨st, List.mem_append_left _ hst, hkey⟩)
      obtain ⟨y, hy, hyx⟩ := List.mem_map.mp (h.remain x hx hold)
      refine List.mem_map.mpr ⟨y, List.mem_filter.mpr ⟨hy, ?_⟩, hyx⟩
      rw [Bool.not_eq_true', Bool.and_eq_false_iff, decide_eq_false_iff_not,
        decide_eq_false_iff_not, ← not_and_or]
      rintro ⟨hyk, hyp⟩
      refine hnew (List.mem_map.mpr ⟨_, List.mem_append_right _ (List.mem_singleton_self _), ?_⟩)
      have hytask := taskId_eq_none hin h.tracks hy (by rw [hyk]; decide)
      rw [← x.key_bare, ← hyx, y.key_bare, Entry.key, hyk, hyp, hytask, ← hkind, ← hid]
      rfl
    · exact h.whole x (List.mem_of_mem_filter hx) hnamed
    · have hplain := plainBytes_takeTelemetry S.model e.path evicted.1
      have hzero : telemetryDemand [] = 0 := rfl
      change plainBytes (S.model.takeTelemetry e.path evicted.1).entries + evictable evicted.2 +
        telemetryDemand [] ≤ S.model.total - evicted.1
      omega
    · rcases List.mem_append.mp hst with hst | hst
      · exact h.clean st hst
      · obtain rfl := List.mem_singleton.mp hst
        rfl

end Sweep

/-! ## What a balanced snapshot counts -/

namespace Inputs

/-- A claim recovery finishes, in the entry that counts it. -/
def insideClaim (inputs : Inputs) (claim : Entry) : List Demand :=
  if claim.tooDeep || claim.unmeasurable.isSome then []
  else match inputs.heldBy claim with
    | none => []
    | some w => [(w, claim.bytes)]

/-- A pending deletion its Store's entry counts. -/
def insidePending (r : PathBuf × Pending) : List Demand :=
  match r.2.counted with
  | .survey => []
  | .store => [((.projectStore, r.1), r.2.bytes)]

/-- A Task pick of a Store not told apart. -/
def insidePick (inputs : Inputs) (pick : TaskPick) : List Demand :=
  if (Kind.task, pick.state, some pick.taskId) ∈ inputs.entries.map Entry.key then []
  else [((.taskStore, pick.state), pick.bytes)]

/-- Everything counted inside another entry. -/
def inside (inputs : Inputs) : List Demand :=
  inputs.claims.flatMap inputs.insideClaim ++
    (inputs.pendings.flatMap insidePending ++ inputs.tasks.flatMap inputs.insidePick)

/-- The bytes of the snapshot's telemetry entries. -/
def telemetryBytes (inputs : Inputs) : ℕ :=
  ((inputs.entries.filter fun e => e.kind = .telemetry).map fun e => e.bytes).sum

/-- Each Task pick and each pending record carries the bytes of the entry that counts it;
what is counted inside an entry fits in it; the telemetry entries hold what their
directories can free; and the snapshot's bytes fit in 64 bits. -/
structure Balanced (inputs : Inputs) : Prop where
  picks : ∀ pick ∈ inputs.tasks, ∀ e ∈ inputs.entries,
    e.key = (.task, pick.state, some pick.taskId) → e.bytes = pick.bytes
  records : ∀ r ∈ inputs.pendings, r.2.counted = .survey →
    ∃ e ∈ inputs.entries, e.key = (.survey, r.2.object, none) ∧ e.bytes = r.2.bytes
  inside : ∀ w, demandOf inputs.inside w ≤ bytesAt inputs.entries w
  telemetry : evictable inputs.telemetry.models + telemetryDemand inputs.inside ≤
    inputs.telemetryBytes
  covers : ∀ root model, inputs.telemetry.models.get root = some (some model) → model.Covers
  bounded : (inputs.counted.map fun e => e.bytes).sum < u64Bound

variable {inputs : Inputs}

/-- The holder is one of the entries it is chosen from. -/
theorem mem_of_deepest {l : List Entry} {best : Option Entry} {e : Entry}
    (h : l.foldl (fun best e => match best with
      | some b => if e.path.length < b.path.length then some b else some e
      | none => some e) best = some e) : e ∈ l ∨ best = some e := by
  induction l generalizing best with
  | nil => exact .inr h
  | cons x rest ih =>
    rcases ih h with he | he
    · exact .inl (List.mem_cons_of_mem _ he)
    · cases best with
      | none => exact .inl (Option.some.inj he ▸ List.mem_cons_self)
      | some b =>
        dsimp only at he
        split at he
        · exact .inr he
        · exact .inl (Option.some.inj he ▸ List.mem_cons_self)

theorem heldBy_kind {claim : Entry} {w : Kind × PathBuf} (h : inputs.heldBy claim = some w) :
    w.1.named = false := by
  obtain ⟨e, he, rfl⟩ := Option.map_eq_some_iff.mp h
  unfold holder at he
  rcases mem_of_deepest he with he | he
  · have hkinds := (List.mem_filter.mp he).2
    simp only [ne_eq, decide_not, Bool.and_eq_true, Bool.not_eq_true',
      decide_eq_false_iff_not] at hkinds
    obtain ⟨⟨⟨⟨⟨-, hs⟩, hc⟩, ht⟩, -⟩, -⟩ := hkinds
    simp [Kind.named, hs, hc, ht]
  · cases he

theorem inside_kind {d : Demand} (hd : d ∈ inputs.inside) : d.1.1.named = false := by
  rcases List.mem_append.mp hd with hd | hd
  · obtain ⟨claim, -, hd⟩ := List.mem_flatMap.mp hd
    unfold insideClaim at hd
    split at hd
    · cases hd
    · split at hd
      · cases hd
      next w hw =>
        obtain rfl := List.mem_singleton.mp hd
        exact heldBy_kind hw
  · rcases List.mem_append.mp hd with hd | hd
    · obtain ⟨r, -, hd⟩ := List.mem_flatMap.mp hd
      unfold insidePending at hd
      split at hd
      · cases hd
      · obtain rfl := List.mem_singleton.mp hd
        rfl
    · obtain ⟨pick, -, hd⟩ := List.mem_flatMap.mp hd
      unfold insidePick at hd
      split at hd
      · cases hd
      · obtain rfl := List.mem_singleton.mp hd
        rfl

theorem totalOf_eq {l : List Entry} (h : (l.map fun e => e.bytes).sum < u64Bound) :
    totalOf l = (l.map fun e => e.bytes).sum := by
  have hfold : ∀ (l : List Entry) (t : ℕ), t + (l.map fun e => e.bytes).sum < u64Bound →
      l.foldl (fun t e => saturatingAdd t e.bytes) t = t + (l.map fun e => e.bytes).sum := by
    intro l
    induction l with
    | nil => exact fun t _ => rfl
    | cons e rest ih =>
      intro t ht
      rw [List.map_cons, List.sum_cons] at ht ⊢
      have hadd : saturatingAdd t e.bytes = t + e.bytes := by
        unfold saturatingAdd
        omega
      rw [List.foldl_cons, hadd, ih _ (by omega)]
      omega
  have := hfold l 0 (by omega)
  rwa [Nat.zero_add] at this

/-- The bytes of entries: telemetry's and the others'. -/
theorem sum_bytes_eq (l : List Entry) : (l.map fun e => e.bytes).sum = plainBytes l +
    ((l.filter fun e => e.kind = .telemetry).map fun e => e.bytes).sum := by
  induction l with
  | nil => rfl
  | cons e rest ih =>
    rw [List.map_cons, List.sum_cons, plainBytes_cons, ih]
    by_cases h : e.kind = .telemetry
    · rw [List.filter_cons_of_pos (by simpa using h), List.map_cons, List.sum_cons, if_pos h]
      omega
    · rw [List.filter_cons_of_neg (by simpa using h), if_neg h]
      omega

/-- The accounts at the start. -/
theorem Balanced.start (hb : inputs.Balanced) (hin : inputs.Listed) :
    Sweep.Accounts inputs inputs.start inputs.inside where
  tracks := Sweep.start_tracks inputs
  remain := fun e he _ => List.mem_map_of_mem he
  whole := fun e he _ => he
  kinds := fun d hd => inside_kind hd
  demand := fun w => by
    by_cases hw : w.1 = .claim
    · have hnone : (inputs.inside.filter fun d => d.1 = w) = [] := by
        refine List.filter_eq_nil_iff.mpr fun d hd hdw => ?_
        have := inside_kind hd
        rw [of_decide_eq_true hdw, hw] at this
        cases this
      rw [demandOf, hnone]
      exact Nat.zero_le _
    · have hcounted : ∀ (l l' : List Entry), (∀ c ∈ l', c.kind = .claim) →
          bytesAt (l ++ l') w = bytesAt l w := by
        intro l l' hl'
        induction l with
        | nil =>
          have : l'.find? (·.isHolder w.1 w.2) = none := by
            refine List.find?_eq_none.mpr fun c hc hh => hw ?_
            rw [← congrArg Prod.fst (Entry.isHolder_iff.mp hh).1]
            exact hl' c hc
          rw [List.nil_append, bytesAt, this]
          rfl
        | cons e rest ih => rw [List.cons_append, bytesAt_cons, bytesAt_cons, ih]
      have hbytes : bytesAt inputs.start.model.entries w = bytesAt inputs.entries w :=
        hcounted _ _ fun c hc => (hin.claims c (List.mem_of_mem_filter hc)).1
      rw [hbytes]
      exact hb.inside w
  balance := by
    have htotal : inputs.start.model.total = totalOf inputs.counted := rfl
    have hsum := sum_bytes_eq inputs.counted
    have hmore : inputs.telemetryBytes ≤
        ((inputs.counted.filter fun e => e.kind = .telemetry).map fun e => e.bytes).sum := by
      rw [counted, List.filter_append, List.map_append, List.sum_append]
      exact Nat.le_add_right _ _
    have htel := hb.telemetry
    rw [htotal, totalOf_eq hb.bounded]
    change plainBytes inputs.counted + evictable inputs.telemetry.models + _ ≤ _
    omega
  covers := hb.covers
  exact := rfl
  clean := fun st hst => by
    rw [Sweep.start_steps] at hst
    cases hst

end Inputs

namespace Sweep

variable {inputs : Inputs} {S : Sweep} {rest : List Demand}

/-! ## Recovery and the Stores' rules -/

/-- An entry named one by one that no step named yet is in the model as it was. -/
theorem Accounts.present (h : Accounts inputs S rest) (hin : inputs.Listed) {e : Entry}
    (he : e ∈ inputs.counted) (hnamed : e.kind.named = true)
    (hnew : e.key ∉ S.plan.steps.map Planned.key) : e ∈ S.model.entries := by
  obtain ⟨x, hx, hbare⟩ := List.mem_map.mp (h.remain e he hnew)
  have hkind : x.bare.kind = e.bare.kind := by rw [hbare]
  have hkey : x.key = e.key := by rw [← x.key_bare, hbare, e.key_bare]
  have hxc := h.whole x hx (by rw [show x.kind = e.kind from hkind]; exact hnamed)
  have hsub := inputs.counted_sublist.subset
  rw [← hin.eq_of_key (hsub hxc) (hsub he) hkey]
  exact hx

/-- The accounts with the keys that are still to be named. -/
structure Ahead (inputs : Inputs) (S : Sweep) (keys : List Key) (rest : List Demand) : Prop where
  accounts : Accounts inputs S rest
  nodup : keys.Nodup
  fresh : ∀ k ∈ keys, k ∉ S.plan.steps.map Planned.key

/-- A part that names at most the first of the keys. -/
theorem Ahead.step {S' : Sweep} {k : Key} {keys : List Key} {rest' : List Demand}
    (h : Ahead inputs S (k :: keys) rest) (hacc : Accounts inputs S' rest')
    (hsteps : S'.plan.steps.map Planned.key ⊆ S.plan.steps.map Planned.key ++ [k]) :
    Ahead inputs S' keys rest' where
  accounts := hacc
  nodup := (List.nodup_cons.mp h.nodup).2
  fresh := fun k' hk' hold => by
    rcases List.mem_append.mp (hsteps hold) with hold | hold
    · exact h.fresh k' (List.mem_cons_of_mem _ hk') hold
    · rw [List.mem_singleton.mp hold] at hk'
      exact (List.nodup_cons.mp h.nodup).1 hk'

theorem Ahead.foldl {α : Type} {f : Sweep → α → Sweep} {keysOf : α → List Key}
    {demandsOf : α → List Demand} {l : List α} {keys : List Key}
    (hf : ∀ x ∈ l, ∀ S keys rest, Ahead inputs S (keysOf x ++ keys) (demandsOf x ++ rest) →
      Ahead inputs (f S x) keys rest)
    (h : Ahead inputs S (l.flatMap keysOf ++ keys) (l.flatMap demandsOf ++ rest)) :
    Ahead inputs (l.foldl f S) keys rest := by
  induction l generalizing S with
  | nil => exact h
  | cons x l ih =>
    rw [List.flatMap_cons, List.flatMap_cons, List.append_assoc, List.append_assoc] at h
    exact ih (fun y hy => hf y (List.mem_cons_of_mem _ hy)) (hf x List.mem_cons_self _ _ _ h)

theorem keys_push (r : Removal) (job : Job) (key : Option Key)
    (inside : Option (Kind × PathBuf)) : (S.push r job key inside).plan.steps.map Planned.key =
      S.plan.steps.map Planned.key ++ [(r.kind, r.path, r.taskId)] := by
  simp [push, planStep, Planned.key]

theorem claimStep_ahead (hin : inputs.Listed) {claim : Entry} (hc : claim ∈ inputs.claims)
    {keys : List Key}
    (h : Ahead inputs S ([claim.key] ++ keys) (inputs.insideClaim claim ++ rest)) :
    Ahead inputs (S.claimStep claim (inputs.heldBy claim)) keys rest := by
  have hacc := h.accounts
  unfold claimStep
  unfold Inputs.insideClaim at hacc
  split
  next hdeep =>
    rw [if_pos (by simp [hdeep])] at hacc
    exact h.step (hacc.of_eq rfl rfl rfl rfl) (List.subset_append_left _ _)
  next hdeep =>
    split
    next why hwhy =>
      rw [if_pos (by simp [hwhy])] at hacc
      exact h.step (hacc.of_eq rfl rfl rfl rfl) (List.subset_append_left _ _)
    next hmeasured =>
      rw [if_neg (by simp [hdeep, hmeasured])] at hacc
      refine h.step ?_ (by rw [keys_push, hin.claim_key hc]; exact List.Subset.refl _)
      cases hheld : inputs.heldBy claim with
      | some w =>
        rw [hheld] at hacc
        exact Accounts.push_within hacc (fun k hk => by cases hk) rfl _
      | none =>
        rw [hheld] at hacc
        have hcounted : claim ∈ inputs.counted := by
          refine List.mem_append_right _ (List.mem_filter.mpr ⟨hc, ?_⟩)
          rw [hheld]
          rfl
        have hkind := (hin.claims claim hc).1
        have hpresent := hacc.present hin hcounted (by rw [hkind]; rfl)
          (h.fresh _ List.mem_cons_self)
        have hpush := Accounts.push_own hacc hin hpresent (by rw [hkind]; decide)
          (fun d hd hdk => by
            have := hacc.kinds d hd
            rw [hdk, hkind] at this
            cases this)
          (r := removal .claim claim.path none claim.bytes .recovery) rfl
          (hin.claim_key hc).symm rfl (.evict claim) none
        rwa [hin.claim_key hc] at hpush

theorem pendingStep_ahead (hin : inputs.Listed) (hb : inputs.Balanced) {p : PathBuf × Look}
    (hp : p ∈ inputs.projects) (hfree : p.2.held = none) {pending : Pending}
    (hr : pending ∈ p.2.recovery) {keys : List Key}
    (h : Ahead inputs S ([(pending.target.1, pending.target.2, none)] ++ keys)
      (Inputs.insidePending (p.1, pending) ++ rest)) :
    Ahead inputs (pendingStep p.1 p.2 S pending) keys rest := by
  have hmem : (p.1, pending) ∈ inputs.pendings := by
    refine List.mem_flatMap.mpr ⟨p, hp, ?_⟩
    rw [hfree]
    exact List.mem_map_of_mem hr
  have hacc := h.accounts
  unfold pendingStep
  unfold Inputs.insidePending at hacc
  rw [hfree]
  dsimp only at hacc ⊢
  refine h.step ?_ (by rw [keys_push]; exact List.Subset.refl _)
  cases hcounted : pending.counted with
  | store =>
    rw [hcounted] at hacc
    exact Accounts.push_within hacc (fun k hk => by cases hk) rfl _
  | survey =>
    rw [hcounted] at hacc
    obtain ⟨e, he, hkey, hbytes⟩ := hb.records _ hmem hcounted
    have hkind : e.kind = .survey := congrArg Prod.fst hkey
    have htarget : pendingKind pending = .survey := hin.records _ hmem hcounted
    have hsame : (pending.target.1, pending.target.2, none) = e.key := by
      rw [hkey]
      exact Prod.ext htarget rfl
    have hpresent := hacc.present hin (List.mem_append_left _ he) (by rw [hkind]; rfl)
      (by rw [← hsame]; exact h.fresh _ List.mem_cons_self)
    have hpush := Accounts.push_own hacc hin hpresent (by rw [hkind]; decide)
      (fun d hd hdk => by
        have := hacc.kinds d hd
        rw [hdk, hkind] at this
        cases this)
      (r := removal (pendingKind pending) pending.object none pending.bytes .recovery)
      hbytes.symm hsame rfl (.survey pending.job) none
    rwa [hkey] at hpush

theorem projectStep_ahead (hin : inputs.Listed) (hb : inputs.Balanced) {p : PathBuf × Look}
    (hp : p ∈ inputs.projects) {keys : List Key}
    (h : Ahead inputs S (pendingKeys p ++ keys)
      ((if p.2.held.isSome then [] else p.2.recovery.map fun r => (p.1, r)).flatMap
        Inputs.insidePending ++ rest)) :
    Ahead inputs (S.projectStep p) keys rest := by
  unfold projectStep
  extract_lets _ said
  have hsaid : ∀ {keys rest}, Ahead inputs S keys rest → Ahead inputs said keys rest :=
    fun h => ⟨h.accounts.of_eq rfl rfl rfl rfl, h.nodup, h.fresh⟩
  have h := hsaid h
  unfold pendingKeys at h
  cases hheld : p.2.held with
  | none =>
    simp only [hheld, Option.isSome_none, Bool.false_eq_true, if_false] at h
    rw [List.flatMap_map, List.map_eq_flatMap] at h
    exact .foldl (fun r hr S keys rest h => pendingStep_ahead hin hb hp hheld hr h) h
  | some reason =>
    simp only [hheld, Option.isSome_some, if_true, List.flatMap_nil, List.nil_append] at h
    have hstay : ∀ (l : List Pending) (S : Sweep), Ahead inputs S keys rest →
        Ahead inputs (l.foldl (pendingStep p.1 p.2) S) keys rest := by
      intro l
      induction l with
      | nil => exact fun S h => h
      | cons r l ih =>
        intro S h
        refine ih _ ?_
        unfold pendingStep
        rw [hheld]
        dsimp only
        split
        · exact ⟨h.accounts.of_eq rfl rfl rfl rfl, h.nodup, h.fresh⟩
        · exact h
    exact hstay _ _ h

theorem pickStep_ahead (hin : inputs.Listed) (hb : inputs.Balanced) {pick : TaskPick}
    (hp : pick ∈ inputs.tasks) {keys : List Key}
    (h : Ahead inputs S ([(.task, pick.state, some pick.taskId)] ++ keys)
      (inputs.insidePick pick ++ rest)) :
    Ahead inputs (S.pickStep pick) keys rest := by
  have hacc := h.accounts
  unfold pickStep
  unfold Inputs.insidePick at hacc
  refine h.step ?_ (by rw [keys_push]; exact List.Subset.refl _)
  split at hacc
  next hmem =>
    obtain ⟨e, he, hkey⟩ := List.mem_map.mp hmem
    have hkind : e.kind = .task := congrArg Prod.fst hkey
    have hpresent := Accounts.present hacc hin (List.mem_append_left _ he) (by rw [hkind]; rfl)
      (by rw [hkey]; exact h.fresh _ List.mem_cons_self)
    have hpush := Accounts.push_own hacc hin hpresent (by rw [hkind]; decide)
      (fun d hd hdk => by
        have := hacc.kinds d hd
        rw [hdk, hkind] at this
        cases this)
      (r := removal .task pick.state (some pick.taskId) pick.bytes .collection)
      (hb.picks pick hp e he hkey).symm hkey.symm rfl .task (some (.taskStore, pick.state))
    rwa [hkey] at hpush
  next hmem =>
    refine Accounts.push_within hacc (fun k hk hold => ?_) rfl _
    obtain rfl := Option.some.inj hk
    obtain ⟨e, he, hkey⟩ := List.mem_map.mp (Inputs.Tracks.keys_subset hacc.tracks hold)
    rcases List.mem_append.mp he with he | he
    · exact hmem (List.mem_map.mpr ⟨e, he, hkey⟩)
    · rw [hin.claim_key (List.mem_of_mem_filter he)] at hkey
      exact nomatch congrArg Prod.fst hkey

theorem recovered_ahead (hin : inputs.Listed) (hb : inputs.Balanced) :
    Ahead inputs inputs.recovered (pickKeys inputs) (inputs.tasks.flatMap inputs.insidePick) := by
  have hkeys := namedKeys_nodup hin
  rw [recoveryKeys, List.append_assoc] at hkeys
  have hstart : Ahead inputs inputs.start (inputs.claims.map Entry.key ++
      (inputs.projects.flatMap pendingKeys ++ pickKeys inputs)) inputs.inside :=
    ⟨hb.start hin, hkeys, fun k _ hk => by
      rw [start_steps] at hk
      exact absurd hk List.not_mem_nil⟩
  rw [List.map_eq_flatMap, Inputs.inside] at hstart
  have hclaims := Ahead.foldl (fun claim hc S keys rest h => claimStep_ahead hin hc h) hstart
  rw [Inputs.pendings, List.flatMap_assoc] at hclaims
  exact Ahead.foldl (fun p hp S keys rest h => projectStep_ahead hin hb hp h) hclaims

/-! ## Entries of the model -/

/-- What a part leaves of the model: everything but the entry of one key. -/
def Keeps (k : Key) (S S' : Sweep) : Prop :=
  ∀ y ∈ S.model.entries, y.key ≠ k → y ∈ S'.model.entries

theorem push_keeps (hin : inputs.Listed) (h : Accounts inputs S rest) {e : Entry}
    (he : e ∈ S.model.entries) (r : Removal) (job : Job) (inside : Option (Kind × PathBuf)) :
    Keeps e.key S (S.push r job (some e.key) inside) := by
  intro y hy hne
  unfold push planStep
  rw [Model.take_own (hin.tracked_nodup h.tracks) he]
  exact (List.mem_eraseP_of_neg (by simpa using hne)).mpr hy

theorem pushTelemetry_keeps (hin : inputs.Listed) (hS : inputs.Tracks S.model) {e : Entry}
    (hkind : e.kind = .telemetry) (hid : e.taskId = none) (rule : Rule) :
    Keeps e.key S (S.pushTelemetry e rule).2 := by
  intro y hy hne
  rw [Sweep.pushTelemetry]
  cases evictTelemetry S.telemetry.models e with
  | error error => exact hy
  | ok evicted =>
    refine List.mem_filter.mpr ⟨hy, ?_⟩
    rw [Bool.not_eq_true', Bool.and_eq_false_iff, decide_eq_false_iff_not,
      decide_eq_false_iff_not, ← not_and_or]
    rintro ⟨hyk, hyp⟩
    have hyt := taskId_eq_none hin hS hy (by rw [hyk]; decide)
    exact hne (by rw [Entry.key, Entry.key, hyk, hyp, hyt, hkind, hid])

/-- A loop over entries of the model. -/
theorem Accounts.each {f : Sweep → Entry → Sweep} {l : List Entry}
    (hf : ∀ x ∈ l, ∀ S, Accounts inputs S [] → x ∈ S.model.entries →
      Accounts inputs (f S x) [] ∧ Keeps x.key S (f S x))
    (hl : (l.map Entry.key).Nodup) (h : Accounts inputs S [])
    (hsub : ∀ x ∈ l, x ∈ S.model.entries) : Accounts inputs (l.foldl f S) [] := by
  induction l generalizing S with
  | nil => exact h
  | cons x l ih =>
    obtain ⟨hx, hl⟩ := List.nodup_cons.mp hl
    obtain ⟨hacc, hkeeps⟩ := hf x List.mem_cons_self S h (hsub x List.mem_cons_self)
    refine ih (fun y hy => hf y (List.mem_cons_of_mem _ hy)) hl hacc fun y hy => ?_
    refine hkeeps y (hsub y (List.mem_cons_of_mem _ hy)) fun heq => hx ?_
    rw [← heq]
    exact List.mem_map_of_mem hy

/-- The eviction of a telemetry entry of the model. -/
theorem Accounts.evict (hin : inputs.Listed) (h : Accounts inputs S []) {x : Entry}
    (hx : x ∈ S.model.entries) (hkind : x.kind = .telemetry) (rule : Rule) :
    Accounts inputs (S.pushTelemetry x rule).2 [] ∧
      Keeps x.key S (S.pushTelemetry x rule).2 := by
  have hid := taskId_eq_none hin h.tracks hx (by rw [hkind]; decide)
  exact ⟨(h.pushTelemetry hin hkind hid rule).1, pushTelemetry_keeps hin h.tracks hkind hid rule⟩

theorem idleStep_accounts (hin : inputs.Listed) (h : Accounts inputs S []) {x : Entry}
    (hx : x ∈ S.model.entries) (hkind : x.kind = .campaign ∨ x.kind = .unreadableStore) :
    Accounts inputs (S.idleStep x) [] ∧ Keeps x.key S (S.idleStep x) := by
  have hplain : x.kind ≠ .telemetry ∧ x.kind ≠ .task := by
    rcases hkind with hk | hk <;> rw [hk] <;> simp
  have hid := taskId_eq_none hin h.tracks hx hplain.2
  have hkey : (x.kind, x.path, none) = x.key := by rw [Entry.key, hid]
  unfold idleStep
  rw [hkey]
  exact ⟨h.push_own hin hx hplain.1 (by simp) rfl hkey rfl _ _, push_keeps hin h hx _ _ _⟩

theorem keepStep_accounts (hin : inputs.Listed) (h : Accounts inputs S []) (judge : Judge)
    (store : PathBuf) (look : Look) (live : Live) :
    Accounts inputs (keepStep judge store look S live) [] := by
  unfold keepStep
  extract_lets object found
  split
  · exact h.of_eq rfl rfl rfl rfl
  · split
    next unreadable identity =>
      have hask : Accounts inputs S.ask [] := h.of_eq rfl rfl rfl rfl
      cases hf : S.model.entries.find? fun e => e.kind = .survey && e.path = object with
      | none =>
        have hzero : found.1 = 0 := by
          simp only [found, Model.survey, hf]
        refine hask.push_nothing (fun hk => ?_) hzero rfl _
        obtain ⟨e, he, hkey⟩ := List.mem_map.mp hk
        refine List.find?_eq_none.mp hf e he ?_
        simp only [Entry.key, Prod.mk.injEq] at hkey
        simp [hkey.1, hkey.2.1]
      | some e =>
        have he := List.mem_of_find?_eq_some hf
        have hfound := List.find?_some hf
        simp only [Bool.and_eq_true, decide_eq_true_eq] at hfound
        have hid := taskId_eq_none hin h.tracks he (by rw [hfound.1]; decide)
        have hkey : (Kind.survey, object, none) = e.key := by
          rw [Entry.key, hfound.1, hfound.2, hid]
        have hbytes : found.1 = e.bytes := by
          simp only [found, Model.survey, hf]
        rw [hkey]
        exact hask.push_own hin he (by rw [hfound.1]; decide) (by simp) hbytes hkey rfl _ _
    · exact h.of_eq rfl rfl rfl rfl
    · exact h.of_eq rfl rfl rfl rfl

theorem collectInto_accounts (hin : inputs.Listed) (hb : inputs.Balanced) (judge : Judge) :
    Accounts inputs (collectInto inputs judge inputs.recovered) [] := by
  have hrec := recovered_ahead hin hb
  have hpicked : Accounts inputs (inputs.tasks.foldl pickStep inputs.recovered) [] := by
    rw [pickKeys, List.map_map, List.map_eq_flatMap] at hrec
    rw [← List.append_nil (inputs.tasks.flatMap _),
      ← List.append_nil (inputs.tasks.flatMap inputs.insidePick)] at hrec
    exact (Ahead.foldl (fun pick hp S keys rest h => pickStep_ahead hin hb hp h) hrec).accounts
  unfold collectInto
  extract_lets picked idled
  have hidled : Accounts inputs idled [] := by
    refine Accounts.each (fun x hx S h hmem => ?_) (idleKeys_nodup hin hpicked.tracks) hpicked
      fun x hx => (mem_idleEntries hx).1
    exact idleStep_accounts hin h hmem (mem_idleEntries hx).2.1
  have hlives : ∀ (p : PathBuf × Look) (l : List Live) (S : Sweep), Accounts inputs S [] →
      Accounts inputs (l.foldl (keepStep judge p.1 p.2) S) [] := by
    intro p l
    induction l with
    | nil => exact fun S h => h
    | cons live l ih => exact fun S h => ih _ (keepStep_accounts hin h judge p.1 p.2 live)
  have hprojects : ∀ (l : List (PathBuf × Look)) (S : Sweep), Accounts inputs S [] →
      Accounts inputs (l.foldl (keepSurveysStep inputs judge) S) [] := by
    intro l
    induction l with
    | nil => exact fun S h => h
    | cons p l ih => exact fun S h => ih _ (hlives p _ S h)
  exact hprojects _ _ hidled

theorem collected_accounts (hin : inputs.Listed) (hb : inputs.Balanced) (judge : Judge) :
    Accounts inputs (inputs.collected judge) [] := by
  have hrec := (recovered_ahead hin hb).accounts.drop_all
  have hgc : ∀ S, Accounts inputs S [] → Accounts inputs (collectTelemetry inputs S) [] := by
    intro S h
    unfold collectTelemetry
    refine Accounts.each (fun x hx S h hmem => ?_) (keys_sortBy_nodup hin h.tracks _ _) h
      fun x hx => List.mem_of_mem_filter (mem_sortBy.mp hx)
    have hrest := (List.mem_filter.mp (mem_sortBy.mp hx)).2
    exact h.evict hin hmem (restingTelemetry_iff.mp (Bool.and_eq_true_iff.mp hrest).1).1 _
  unfold Inputs.collected
  split
  · refine hgc _ ?_
    split
    · exact hrec
    · exact collectInto_accounts hin hb judge
  · exact hrec

/-! ## The budget and telemetry's cap -/

theorem Keeps.of_model {k : Key} {S' : Sweep} (h : S'.model = S.model) : Keeps k S S' :=
  fun y hy _ => by rw [h]; exact hy

theorem budgetStep_accounts (hin : inputs.Listed) (h : Accounts inputs S []) (judge : Judge)
    {x : Entry} (hx : x ∈ S.model.entries) :
    Accounts inputs (budgetStep inputs judge S x) [] ∧
      Keeps x.key S (budgetStep inputs judge S x) := by
  unfold budgetStep
  split
  next htel => exact h.evict hin hx htel _
  next htel =>
    split
    next hsurvey =>
      have hid := taskId_eq_none hin h.tracks hx (by rw [hsurvey]; decide)
      have hkey : (Kind.survey, x.path, none) = x.key := by rw [Entry.key, hsurvey, hid]
      unfold budgetSurvey
      split
      · exact ⟨h.of_eq rfl rfl rfl rfl, .of_model rfl⟩
      · split
        · exact ⟨h.of_eq rfl rfl rfl rfl, .of_model rfl⟩
        · split
          · have hask : Accounts inputs S.ask [] := h.of_eq rfl rfl rfl rfl
            exact ⟨hask.push_own hin hx htel (by simp) rfl hkey rfl _ _,
              push_keeps hin hask hx _ _ _⟩
          · exact ⟨h.of_eq rfl rfl rfl rfl, .of_model rfl⟩
          · exact ⟨h.of_eq rfl rfl rfl rfl, .of_model rfl⟩
    · exact ⟨h.push_own hin hx htel (by simp) rfl rfl rfl _ _, push_keeps hin h hx _ _ _⟩

theorem budgetLoop_accounts (hin : inputs.Listed) (judge : Judge) {cands : List Entry}
    (hc : (cands.map Entry.key).Nodup) (h : Accounts inputs S [])
    (hsub : ∀ x ∈ cands, x ∈ S.model.entries) :
    Accounts inputs (budgetLoop inputs judge cands S) [] := by
  induction cands generalizing S with
  | nil => exact h
  | cons x cands ih =>
    rw [budgetLoop]
    split
    · exact h
    · obtain ⟨hx, hc⟩ := List.nodup_cons.mp hc
      obtain ⟨hacc, hkeeps⟩ := budgetStep_accounts hin h judge (hsub x List.mem_cons_self)
      refine ih hc hacc fun y hy => ?_
      refine hkeeps y (hsub y (List.mem_cons_of_mem _ hy)) fun heq => hx ?_
      rw [← heq]
      exact List.mem_map_of_mem hy

theorem budgeted_accounts (hin : inputs.Listed) (hb : inputs.Balanced) (judge : Judge) :
    Accounts inputs (inputs.budgeted judge) [] := by
  have h := collected_accounts hin hb judge
  unfold Inputs.budgeted budget
  split
  · refine budgetLoop_accounts hin judge (keys_sortBy_nodup hin h.tracks _ _) h fun x hx => ?_
    exact List.mem_of_mem_filter (mem_sortBy.mp hx)
  · exact h

theorem stepBytes_pushTelemetry (e : Entry) (rule : Rule) :
    stepBytes (S.pushTelemetry e rule).2.plan.steps =
      stepBytes S.plan.steps + (S.pushTelemetry e rule).1.getD 0 := by
  rw [Sweep.pushTelemetry]
  cases evictTelemetry S.telemetry.models e with
  | error error => rfl
  | ok evicted => simp [stepBytes, planStep, removalOf, removal]

/-- **The cap's loop** takes what it frees out of what telemetry holds, which is enough. -/
theorem capLoop_accounts (hin : inputs.Listed) {cap : ℕ} {cands : List Entry} {held : ℕ}
    (hc : (cands.map Entry.key).Nodup) (hrest : ∀ x ∈ cands, x.kind = .telemetry)
    (h : Accounts inputs S []) (hsub : ∀ x ∈ cands, x ∈ S.model.entries)
    (hheld : evictable S.telemetry.models ≤ held) :
    Accounts inputs (capLoop cap cands held S).2 [] ∧
      (capLoop cap cands held S).1 + stepBytes (capLoop cap cands held S).2.plan.steps =
        held + stepBytes S.plan.steps := by
  induction cands generalizing S held with
  | nil =>
    unfold capLoop
    split
    · exact ⟨h.of_eq rfl rfl rfl rfl, rfl⟩
    · exact ⟨h, rfl⟩
  | cons x cands ih =>
    unfold capLoop
    split
    · obtain ⟨hx, hc⟩ := List.nodup_cons.mp hc
      have hkind := hrest x List.mem_cons_self
      have hmem := hsub x List.mem_cons_self
      have hid := taskId_eq_none hin h.tracks hmem (by rw [hkind]; decide)
      obtain ⟨hacc, hfreed⟩ := h.pushTelemetry hin hkind hid .budget
      have hsteps := stepBytes_pushTelemetry (S := S) x .budget
      have hkeeps := pushTelemetry_keeps hin h.tracks hkind hid .budget
      have hleft : evictable (S.pushTelemetry x .budget).2.telemetry.models ≤
          held - (S.pushTelemetry x .budget).1.getD 0 := by omega
      obtain ⟨hacc', htotal⟩ := ih hc (fun y hy => hrest y (List.mem_cons_of_mem _ hy)) hacc
        (fun y hy => hkeeps y (hsub y (List.mem_cons_of_mem _ hy)) fun heq => hx (by
          rw [← heq]
          exact List.mem_map_of_mem hy)) hleft
      refine ⟨hacc', ?_⟩
      dsimp only at htotal ⊢
      omega
    · exact ⟨h, rfl⟩

/-- What evictions can free of one directory. -/
def freeable (model : Option Directory) : ℕ :=
  match model with
  | none => 0
  | some model => model.evictable

/-- What one directory is counted with. -/
def counted (entries : List Entry) (p : PathBuf × Option Directory) : ℕ :=
  match p.2 with
  | some model => model.total
  | none => telemetryCounted entries p.1

/-- Telemetry holds at least what its directories can free. -/
theorem evictable_le_modelsTotal {models : OrdMap PathBuf (Option Directory)}
    (entries : List Entry) (hcovers : ∀ root model, models.get root = some (some model) →
      model.Covers) (hbound : evictable models < u64Bound) :
    evictable models ≤ modelsTotal models entries := by
  have hfold : ∀ (l : List (PathBuf × Option Directory)) (t : ℕ),
      (∀ p ∈ l, ∀ model, p.2 = some model → model.Covers) →
      min (t + (l.map fun p => freeable p.2).sum) (u64Bound - 1) ≤
        l.foldl (fun t p => saturatingAdd t (counted entries p)) t := by
    intro l
    induction l with
    | nil => exact fun t _ => min_le_left _ _
    | cons p l ih =>
      intro t hl
      refine le_trans ?_ (ih _ fun q hq => hl q (List.mem_cons_of_mem _ hq))
      rw [List.map_cons, List.sum_cons]
      have hmono : ∀ a b s : ℕ, a ≤ b → min (t + (a + s)) (u64Bound - 1) ≤
          min (saturatingAdd t b + s) (u64Bound - 1) := by
        intro a b s hab
        unfold saturatingAdd
        omega
      refine hmono _ _ _ ?_
      unfold freeable counted
      cases hp : p.2 with
      | none => exact Nat.zero_le _
      | some model => exact (hl p List.mem_cons_self model hp).counts
  have := hfold models.entries 0 fun p hp model hmodel =>
    hcovers p.1 model (OrdMap.mem_iff_get.mp (by rw [← hmodel]; exact hp))
  rw [Nat.zero_add] at this
  refine le_trans (le_min le_rfl ?_) this
  exact Nat.le_sub_one_of_lt hbound

/-- The plan once telemetry's cap was kept. -/
theorem capped_accounts (hin : inputs.Listed) (hb : inputs.Balanced) (judge : Judge) :
    Accounts inputs (capTelemetry inputs (inputs.budgeted judge)).2 [] ∧
      (capTelemetry inputs (inputs.budgeted judge)).1 +
          stepBytes (capTelemetry inputs (inputs.budgeted judge)).2.plan.steps =
        modelsTotal (inputs.budgeted judge).telemetry.models
            (inputs.budgeted judge).model.entries +
          stepBytes (inputs.budgeted judge).plan.steps := by
  have h := budgeted_accounts hin hb judge
  unfold capTelemetry
  extract_lets held
  split
  · exact ⟨h, rfl⟩
  · have hresting : ∀ x ∈ sortBy leastRecentlyUsed
        ((inputs.budgeted judge).model.entries.filter (restingTelemetry inputs)),
        x ∈ (inputs.budgeted judge).model.entries ∧ x.kind = .telemetry := fun x hx =>
      ⟨List.mem_of_mem_filter (mem_sortBy.mp hx),
        (restingTelemetry_iff.mp (List.mem_filter.mp (mem_sortBy.mp hx)).2).1⟩
    refine capLoop_accounts hin (keys_sortBy_nodup hin h.tracks _ _)
      (fun x hx => (hresting x hx).2) h (fun x hx => (hresting x hx).1) ?_
    refine evictable_le_modelsTotal _ h.covers ?_
    obtain ⟨keys, htook, -⟩ := collected_took hin judge
    have hbefore : (inputs.budgeted judge).plan.totalBefore = totalOf inputs.counted :=
      (budget_took hin judge (htook.tracks (start_tracks inputs)) (htook.last rfl)
        (collected_took hin judge).choose_spec.2).2.2.1.trans htook.before
    have htotal := h.exact.total
    rw [hbefore, Inputs.totalOf_eq hb.bounded] at htotal
    have hbalance := h.balance
    have hbounded := hb.bounded
    omega

end Sweep

/-! ## Runs -/

/-- The executor that frees exactly each step's planned bytes, measuring the same bytes at
the start of those it measures. -/
def frees (measures : ℕ → Bool) : Executor := fun n st => .ok
  { freed := st.removal.bytes
    unreadable := st.removal.unreadable
    started := if measures n then some st.removal.bytes else none
    changed := none
    left := [] }

theorem reconcile_eq {total measured counted : ℕ} (h : total + measured < u64Bound) :
    reconcile total measured counted = total + measured - counted := by
  rw [reconcile, saturatingAdd, min_eq_left (Nat.le_sub_one_of_lt h)]

/-- Exact steps run as planned. -/
theorem runSteps_frees {measures : ℕ → Bool} {steps : List Planned} {n t t' : ℕ} {report : Report}
    (h : Exact t steps t') (hclean : ∀ st ∈ steps, st.removal.left = [])
    (hfits : ∀ i st, steps[i]? = some st → measures (n + i) = true →
      t + st.removal.bytes < u64Bound) :
    runSteps (frees measures) n steps (some t, report) =
      (some t', { report with removals := report.removals ++ steps.map Planned.removal }) := by
  induction steps generalizing n t report with
  | nil =>
    obtain rfl : t = t' := h
    simp [runSteps]
  | cons st rest ih =>
    obtain ⟨hle, hafter, hrest⟩ := h
    have hleft := hclean st List.mem_cons_self
    have hremoval : { st.removal with
        bytes := st.removal.bytes
        unreadable := st.removal.unreadable
        left := []
        totalAfter := some (t - st.removal.bytes) } = st.removal := by
      rw [← hafter, ← hleft]
    have hstep : runStep (frees measures n st) st (some t) report =
        (some (t - st.removal.bytes),
          { report with removals := report.removals ++ [st.removal] }) := by
      unfold runStep frees
      cases hm : measures n with
      | false =>
        simp only [Bool.false_eq_true, if_false, Option.map_some]
        rw [hremoval]
      | true =>
        have hfit := hfits 0 st rfl (by rw [Nat.add_zero]; exact hm)
        have htotal : reconcile t st.removal.bytes st.removal.bytes - st.removal.bytes =
            t - st.removal.bytes := by
          rw [reconcile_eq hfit]
          omega
        simp only [if_true, Option.map_some, htotal]
        rw [hremoval]
    rw [runSteps, hstep, ih hrest (fun x hx => hclean x (List.mem_cons_of_mem _ hx))]
    · simp
    · intro i x hx hm
      have := hfits (i + 1) x hx (by rw [← hm]; congr 1; omega)
      omega

/-- What a step changes the total by, in terms of the snapshot: a wholly removed entry takes
its bytes, one partly removed leaves what was measured in their place. -/
def changeOf (outcome : Except Failed Ran) (st : Planned) : ℤ :=
  match outcome with
  | .ok ran => if ran.changed.isSome then 0 else -(st.removal.bytes : ℤ)
  | .error failed =>
    match failed.remains with
    | .measured left => left - st.removal.bytes
    | _ => 0

/-- What a step adds to the total before it takes anything out. -/
def measuredOf (outcome : Except Failed Ran) : ℕ :=
  match outcome with
  | .ok ran => if ran.changed.isSome then 0 else ran.started.getD 0
  | .error failed =>
    match failed.remains with
    | .measured left => left
    | _ => 0

/-- A removal that ran freed what it measured, or the planned bytes where nothing measured
it; one that stopped part way could measure what it left. -/
def Accounted (outcome : Except Failed Ran) (st : Planned) : Prop :=
  match outcome with
  | .ok ran => ran.changed = none → ran.freed = ran.started.getD st.removal.bytes
  | .error failed => failed.remains ≠ .unmeasured

/-- The changes of a run, from the nth step on. -/
def changes (execute : Executor) : ℕ → List Planned → ℤ
  | _, [] => 0
  | n, st :: rest => changeOf (execute n st) st + changes execute (n + 1) rest

/-- What a run measures, from the nth step on. -/
def measured (execute : Executor) : ℕ → List Planned → ℕ
  | _, [] => 0
  | n, st :: rest => measuredOf (execute n st) + measured execute (n + 1) rest

/-- One step of an accounted run. -/
theorem runStep_total {outcome : Except Failed Ran} {st : Planned} {t : ℕ} {report : Report}
    (hle : st.removal.bytes ≤ t) (hacc : Accounted outcome st)
    (hfits : t + measuredOf outcome < u64Bound) :
    ∃ t', (runStep outcome st (some t) report).1 = some t' ∧
      (t' : ℤ) = t + changeOf outcome st ∧ t ≤ t' + st.removal.bytes ∧
      t' ≤ t + measuredOf outcome := by
  cases outcome with
  | ok ran =>
    cases hchanged : ran.changed with
    | some changed =>
      refine ⟨t, by simp only [runStep, hchanged], ?_, by omega, by omega⟩
      simp [changeOf, hchanged]
    | none =>
      have hfreed : ran.freed = ran.started.getD st.removal.bytes := hacc hchanged
      simp only [measuredOf, hchanged, Option.isSome_none, Bool.false_eq_true, if_false] at hfits ⊢
      refine ⟨t - st.removal.bytes, ?_, ?_, by omega, by omega⟩
      · simp only [runStep, hchanged, Option.map_some]
        cases hs : ran.started with
        | none =>
          rw [hs] at hfreed
          simp [hfreed]
        | some started =>
          rw [hs] at hfreed hfits
          simp only [Option.getD_some] at hfreed hfits
          simp only [reconcile_eq hfits, hfreed, Option.some.injEq]
          omega
      · simp only [changeOf, hchanged, Option.isSome_none, Bool.false_eq_true, if_false]
        omega
  | error failed =>
    cases hremains : failed.remains with
    | counted =>
      refine ⟨t, by simp only [runStep, hremains], ?_, by omega, by omega⟩
      simp [changeOf, hremains]
    | measured left =>
      simp only [measuredOf, hremains] at hfits ⊢
      refine ⟨t + left - st.removal.bytes, ?_, ?_, by omega, by omega⟩
      · simp only [runStep, hremains, Option.map_some, reconcile_eq hfits]
      · simp only [changeOf, hremains]
        omega
    | unmeasured => exact absurd hremains hacc

/-- The total of an accounted run. -/
theorem runSteps_total {execute : Executor} {steps : List Planned} {n t : ℕ} {report : Report}
    (hle : stepBytes steps ≤ t)
    (hacc : ∀ i st, steps[i]? = some st → Accounted (execute (n + i) st) st)
    (hfits : t + measured execute n steps < u64Bound) :
    ∃ t', (runSteps execute n steps (some t, report)).1 = some t' ∧
      (t' : ℤ) = t + changes execute n steps := by
  induction steps generalizing n t report with
  | nil => exact ⟨t, rfl, by simp [changes]⟩
  | cons st rest ih =>
    rw [stepBytes, List.map_cons, List.sum_cons, ← stepBytes] at hle
    rw [measured] at hfits
    have hbytes : st.removal.bytes ≤ t := by omega
    have hfit : t + measuredOf (execute n st) < u64Bound := by omega
    obtain ⟨t₁, hstep, hchange, hlow, hhigh⟩ :
        ∃ t₁, (runStep (execute n st) st (some t) report).1 = some t₁ ∧
          (t₁ : ℤ) = t + changeOf (execute n st) st ∧ t ≤ t₁ + st.removal.bytes ∧
          t₁ ≤ t + measuredOf (execute n st) := runStep_total hbytes (hacc 0 st rfl) hfit
    obtain ⟨r, hr⟩ : ∃ r, runStep (execute n st) st (some t) report = (some t₁, r) :=
      ⟨_, Prod.ext hstep rfl⟩
    have hnext : ∀ i x, rest[i]? = some x → Accounted (execute (n + 1 + i) x) x := by
      intro i x hx
      have := hacc (i + 1) x hx
      rwa [show n + (i + 1) = n + 1 + i by omega] at this
    obtain ⟨t', hrun, htotal⟩ : ∃ t', (runSteps execute (n + 1) rest (some t₁, r)).1 = some t' ∧
        (t' : ℤ) = t₁ + changes execute (n + 1) rest := ih (by omega) hnext (by omega)
    refine ⟨t', ?_, ?_⟩
    · rw [runSteps, hr]
      exact hrun
    · rw [htotal, hchange, changes]
      ring

/-! ## The sweep -/

/-- **Preview and applied sweep agree.** For every snapshot that lists each thing once and
counts it in one entry:

* every step takes its bytes out of a total that holds them, and telemetry's own cap out of
  what telemetry holds: no saturating subtraction saturates;
* the run that frees exactly what was planned reports what the preview does;
* the total of any run that accounts for what it removes is the total before, less the
  snapshot's bytes of what was wholly removed, what was left measured in their place where
  a removal stopped part way. -/
theorem run_agrees (inputs : Inputs) (judge : Judge) (hin : inputs.Listed)
    (hb : inputs.Balanced) (report : Report) (hmax : report.maxBytes = inputs.maxBytes) :
    Exact (make inputs judge).totalBefore (make inputs judge).steps (make inputs judge).totalAfter ∧
    (make inputs judge).telemetryTotalAfter + stepBytes (make inputs judge).steps =
      modelsTotal (inputs.budgeted judge).telemetry.models (inputs.budgeted judge).model.entries +
        stepBytes (inputs.budgeted judge).plan.steps ∧
    (∀ measures : ℕ → Bool, (∀ i st, (make inputs judge).steps[i]? = some st →
        measures i = true → (make inputs judge).totalBefore + st.removal.bytes < u64Bound) →
      (run (make inputs judge) report (frees measures)).removals =
        (preview (make inputs judge) report).removals ∧
      (run (make inputs judge) report (frees measures)).totalAfter =
        (preview (make inputs judge) report).totalAfter ∧
      (run (make inputs judge) report (frees measures)).stop =
        (preview (make inputs judge) report).stop) ∧
    ∀ execute : Executor, (∀ i st, (make inputs judge).steps[i]? = some st →
        Accounted (execute i st) st) →
      (make inputs judge).totalBefore + measured execute 0 (make inputs judge).steps < u64Bound →
      ∃ t, (run (make inputs judge) report execute).totalAfter = some t ∧
        (t : ℤ) = (make inputs judge).totalBefore + changes execute 0 (make inputs judge).steps := by
  obtain ⟨hacc, htel⟩ := Sweep.capped_accounts hin hb judge
  have hexact : Exact (make inputs judge).totalBefore (make inputs judge).steps
      (make inputs judge).totalAfter := hacc.exact
  have hclean : ∀ st ∈ (make inputs judge).steps, st.removal.left = [] := hacc.clean
  have hstop : (make inputs judge).stop = stopOf (make inputs judge).totalAfter inputs.maxBytes :=
    rfl
  refine ⟨hexact, htel, fun measures hfits => ?_, fun execute haccounted hfits => ?_⟩
  · generalize make inputs judge = plan at *
    have hrun : ∀ r : Report, runSteps (frees measures) 0 plan.steps (some plan.totalBefore, r) =
        (some plan.totalAfter, { r with removals := r.removals ++ plan.steps.map Planned.removal }) :=
      fun r => runSteps_frees hexact hclean fun i st hst hm =>
        hfits i st hst (by rwa [Nat.zero_add] at hm)
    refine ⟨?_, ?_, ?_⟩
    · simp only [run, preview, hrun]
    · simp only [run, preview, hrun]
    · simp only [run, preview, hrun]
      rw [hstop, hmax]
  · generalize make inputs judge = plan at *
    have hle : stepBytes plan.steps ≤ plan.totalBefore := by
      have := hexact.total
      omega
    exact runSteps_total hle (fun i st hst => by
      rw [Nat.zero_add]
      exact haccounted i st hst) hfits

/-- The sample snapshot counts each thing in one entry. -/
theorem sampleInputs_balanced : sampleInputs.Balanced where
  picks := by decide
  records := by decide
  inside := fun w => by
    have hnone : sampleInputs.inside = [] := by decide
    rw [hnone]
    exact Nat.zero_le _
  telemetry := by decide
  covers := fun root model h => by cases h
  bounded := by decide

/-- An empty report. -/
def sampleReport : Report where
  maxBytes := 85
  totalAfter := none
  stop := .fits
  removals := []
  left := []
  registryDropped := []
  failures := []
  changed := []

theorem run_agrees_sample :
    (run (make sampleInputs takeAll) sampleReport (frees fun _ => true)).removals =
      (preview (make sampleInputs takeAll) sampleReport).removals := by
  have hfits : ∀ st ∈ (make sampleInputs takeAll).steps,
      (make sampleInputs takeAll).totalBefore + st.removal.bytes < u64Bound := by decide
  have hagrees := run_agrees sampleInputs takeAll sampleInputs_listed sampleInputs_balanced
    sampleReport rfl
  exact (hagrees.2.2.1 (fun _ => true) fun i st hst _ =>
    hfits st (List.mem_of_getElem? hst)).1

/-- An executor whose removals free five bytes each and measure nothing. -/
def freesFive : Executor := fun _ _ => .ok
  { freed := 5, unreadable := none, started := none, changed := none, left := [] }

/-- Of an entry removed whole without being measured the total loses what was freed, never
the snapshot's bytes. -/
theorem unmeasured_removal_loses_what_it_freed :
    (run (make sampleInputs takeAll) sampleReport freesFive).totalAfter = some 65 ∧
      (make sampleInputs takeAll).totalBefore +
        changes freesFive 0 (make sampleInputs takeAll).steps = 30 := by
  decide

end Storage

end Afactory
