import Mathlib
import Afactory.Terminated
import Afactory.Json
import Afactory.LedgerFrames
import Afactory.OneFinding

/-!
# The identity of a Demand

`canonical_demand_id` of `review-store/src/ingest.rs` digests four texts, each with a zero byte
behind it, and texts may hold such bytes themselves.

* `demandPreimage`, `canonicalDemandId`: what is digested, and the identity;
* `TightDemand`: no text of a Demand could be read as the end of one field and the beginning of
  the next;
* `DemandsReduced`: the Ledgers whose Demands came through reductions;
* `demand_identity`: identities tell a Demand from all others, and reductions record it as it is,
  exactly when it is tight.
-/

namespace Afactory

/-- The bytes `canonical_demand_id` digests. -/
def demandPreimage (source : String) (demand : BenchmarkDemand) : List UInt8 :=
  Json.utf8 "review.kernel/demand-id/v1\x00" ++
    [source, demand.claim, demand.why, demand.suggestedMethod].flatMap fun field =>
      Json.utf8 field ++ [0]

def canonicalDemandId (sha256 : List UInt8 → List UInt8) (source : String)
    (demand : BenchmarkDemand) : String :=
  "sha256:" ++ String.ofList (hexEncode (sha256 (demandPreimage source demand)))

/-- The texts of a Demand, as `DemandV1::validate` asks for them. -/
structure ValidDemand (source : String) (demand : BenchmarkDemand) : Prop where
  source : isBlank source = false
  claim : isBlank demand.claim = false
  why : isBlank demand.why = false
  method : isBlank demand.suggestedMethod = false

/-- Nothing but white space stands before a zero character of the text. -/
def BlankBeforeNul (text : String) : Prop :=
  Terminated.BlankBefore '\x00' isWhiteSpace text.toList

/-- Nothing but white space stands behind a zero character of the text. -/
def BlankBehindNul (text : String) : Prop :=
  Terminated.BlankBehind '\x00' isWhiteSpace text.toList

/-- **A tight Demand**: blank before every zero character, save in the method, and blank behind
every one, save in the source. -/
structure TightDemand (source : String) (demand : BenchmarkDemand) : Prop where
  source : BlankBeforeNul source
  claim : BlankBeforeNul demand.claim ∧ BlankBehindNul demand.claim
  why : BlankBeforeNul demand.why ∧ BlankBehindNul demand.why
  method : BlankBehindNul demand.suggestedMethod

/-- Tight but for its source, whose zero characters are not asked about. -/
structure TightTexts (demand : BenchmarkDemand) : Prop where
  claim : BlankBeforeNul demand.claim
  why : BlankBeforeNul demand.why ∧ BlankBehindNul demand.why
  method : BlankBehindNul demand.suggestedMethod

/-! ## What is digested -/

section Preimages

variable {source source' : String} {demand demand' : BenchmarkDemand}

/-- The characters of a Demand's texts. -/
def BenchmarkDemand.texts (demand : BenchmarkDemand) : List (List Char) :=
  [demand.claim.toList, demand.why.toList, demand.suggestedMethod.toList]

theorem texts_inj (h : demand.texts = demand'.texts) : demand = demand' := by
  obtain ⟨claim, why, method⟩ := demand
  obtain ⟨claim', why', method'⟩ := demand'
  simp only [BenchmarkDemand.texts, List.cons_eq_cons, and_true, String.toList_inj] at h
  obtain ⟨rfl, rfl, rfl⟩ := h
  rfl

theorem utf8_terminated (fields : List String) :
    (fields.flatMap fun field => Json.utf8 field ++ [0]) =
      Json.utf8 (String.ofList (Terminated.terminated '\x00' (fields.map String.toList))) := by
  induction fields with
  | nil => rfl
  | cons field fields ih =>
    have hcons : Terminated.terminated '\x00' ((field :: fields).map String.toList) =
        field.toList ++ ['\x00'] ++ Terminated.terminated '\x00' (fields.map String.toList) := by
      simp
    have hzero : Json.utf8 (String.ofList ['\x00']) = [0] := rfl
    rw [List.flatMap_cons, ih, hcons, String.ofList_append, String.ofList_append,
      String.ofList_toList, Json.utf8_append, Json.utf8_append, hzero]

/-- Preimages are equal when the joined texts are. -/
theorem demandPreimage_eq_iff : demandPreimage source demand = demandPreimage source' demand' ↔
    Terminated.terminated '\x00' (source.toList :: demand.texts) =
      Terminated.terminated '\x00' (source'.toList :: demand'.texts) := by
  rw [demandPreimage, demandPreimage, List.append_cancel_left_eq, utf8_terminated, utf8_terminated]
  constructor
  · intro h
    exact String.ofList_injective (Json.utf8_inj h)
  · intro h
    exact congrArg (fun l => Json.utf8 (String.ofList l)) h

theorem not_blank_iff {s : String} :
    isBlank s = false ↔ ¬ Terminated.Blank isWhiteSpace s.toList := by
  rw [isBlank, ← Bool.not_eq_true, List.all_eq_true]
  rfl

theorem validDemand_iff : ValidDemand source demand ↔
    ∀ f ∈ source.toList :: demand.texts, ¬ Terminated.Blank isWhiteSpace f := by
  simp only [BenchmarkDemand.texts, List.forall_mem_cons, ← not_blank_iff]
  constructor
  · rintro ⟨hsource, hclaim, hwhy, hmethod⟩
    exact ⟨hsource, hclaim, hwhy, hmethod, by simp⟩
  · rintro ⟨hsource, hclaim, hwhy, hmethod, -⟩
    exact ⟨hsource, hclaim, hwhy, hmethod⟩

theorem tightDemand_iff : TightDemand source demand ↔
    Terminated.Tight '\x00' isWhiteSpace (source.toList :: demand.texts) := by
  constructor
  · rintro ⟨hsource, ⟨hclaim, hclaim'⟩, ⟨hwhy, hwhy'⟩, hmethod⟩
    exact ⟨hsource, hclaim, hclaim', hwhy, hwhy', hmethod⟩
  · rintro ⟨hsource, hclaim, hclaim', hwhy, hwhy', hmethod⟩
    exact ⟨hsource, ⟨hclaim, hclaim'⟩, ⟨hwhy, hwhy'⟩, hmethod⟩

theorem tightTexts_iff : TightTexts demand ↔
    Terminated.Tight '\x00' isWhiteSpace demand.texts := by
  constructor
  · rintro ⟨hclaim, ⟨hwhy, hwhy'⟩, hmethod⟩
    exact ⟨hclaim, hwhy, hwhy', hmethod⟩
  · rintro ⟨hclaim, hwhy, hwhy', hmethod⟩
    exact ⟨hclaim, ⟨hwhy, hwhy'⟩, hmethod⟩

/-- Three texts are those of a Demand. -/
theorem exists_texts {fields : List (List Char)} (h : fields.length = 3) :
    ∃ demand : BenchmarkDemand, demand.texts = fields := by
  match fields, h with
  | [claim, why, method], _ =>
    exact ⟨⟨.ofList claim, .ofList why, .ofList method⟩, by simp [BenchmarkDemand.texts]⟩

/-- **One preimage, one Demand**, exactly for the tight ones. -/
theorem demandPreimage_unique_iff (hvalid : ValidDemand source demand) :
    (∀ source' demand', ValidDemand source' demand' →
      demandPreimage source' demand' = demandPreimage source demand →
      source' = source ∧ demand' = demand) ↔ TightDemand source demand := by
  rw [tightDemand_iff, ← Terminated.terminated_unique_iff (by decide) (validDemand_iff.mp hvalid)]
  constructor
  · intro hunique ys hlength hys heq
    match ys, hlength with
    | f :: fields, hlength =>
      obtain ⟨demand', rfl⟩ := exists_texts (Nat.succ_inj.mp hlength)
      obtain ⟨rfl, rfl⟩ := hunique (.ofList f) demand'
        (validDemand_iff.mpr (by simpa using hys)) (demandPreimage_eq_iff.mpr (by simpa using heq))
      simp
  · intro hunique source' demand' hvalid' heq
    have hfields := hunique (source'.toList :: demand'.texts) rfl (validDemand_iff.mp hvalid')
      (demandPreimage_eq_iff.mp heq)
    obtain ⟨hsource, htexts⟩ := List.cons_eq_cons.mp hfields
    exact ⟨String.toList_inj.mp hsource, texts_inj htexts⟩

/-- Among sources without zero characters, the source is read off first. -/
theorem demandPreimage_unique_iff_of_source (hvalid : ValidDemand source demand)
    (hsource : '\x00' ∉ source.toList) :
    (∀ source' demand', '\x00' ∉ source'.toList → ValidDemand source' demand' →
      demandPreimage source' demand' = demandPreimage source demand →
      source' = source ∧ demand' = demand) ↔ TightTexts demand := by
  have htexts := (List.forall_mem_cons.mp (validDemand_iff.mp hvalid)).2
  rw [tightTexts_iff, ← Terminated.terminated_unique_iff (by decide) htexts]
  constructor
  · intro hunique ys hlength hys heq
    obtain ⟨demand', rfl⟩ := exists_texts hlength
    obtain ⟨-, rfl⟩ := hunique source demand' hsource
      (validDemand_iff.mpr (List.forall_mem_cons.mpr ⟨not_blank_iff.mp hvalid.source, hys⟩))
      (demandPreimage_eq_iff.mpr (by rw [Terminated.terminated_cons, heq,
        Terminated.terminated_cons]))
    rfl
  · intro hunique source' demand' hsource' hvalid' heq
    have hjoined := demandPreimage_eq_iff.mp heq
    rw [Terminated.terminated_cons, Terminated.terminated_cons] at hjoined
    have hcut := Terminated.split_first hsource' hjoined
    have hothers := (List.forall_mem_cons.mp (validDemand_iff.mp hvalid')).2
    rcases hcut with ⟨hsame, htail⟩ | ⟨p, hlonger, -⟩
    · exact ⟨String.toList_inj.mp hsame.symm, texts_inj (hunique _ rfl hothers htail)⟩
    · exact absurd (hlonger ▸ by simp) hsource

end Preimages

/-! ## What reductions record -/

/-- The obligation of a recorded Demand. -/
def Demand.content (demand : Demand) : BenchmarkDemand :=
  ⟨demand.claim, demand.why, demand.suggestedMethod⟩

/-- Every Demand stands under its own identity, and passed its checks. -/
def Ledger.DemandsNamed (ids : ReviewIds) (L : Ledger) : Prop :=
  ∀ id demand, L.demandOf id = some demand →
    id = ids.demandId demand.source demand.content ∧ ValidDemand demand.source demand.content

/-- **The Ledgers whose Demands came through reductions**: from an empty one, by reductions and by
any other accepted input that records no Demand. -/
inductive DemandsReduced (ids : ReviewIds) (viewId : Finding → Option String) : Ledger → Prop
  | start (policy : String) (round : ℕ) : DemandsReduced ids viewId (Ledger.start policy round)
  | step {L L' : Ledger} (input : LedgerInput) (h : DemandsReduced ids viewId L)
    (hdemand : input.recordKind ≠ some .demandRecorded)
    (hstep : L.step viewId input = some L') : DemandsReduced ids viewId L'
  | reduce {L : Ledger} (store : ReviewStore ids) (runId : String) (stages : List PreparedStage)
    (s : Reduction ids) (h : DemandsReduced ids viewId L)
    (hdone : prepareReviewOutputs viewId store runId L stages = .ok s) :
    DemandsReduced ids viewId s.projected

section Reductions

variable {ids : ReviewIds} {viewId : Finding → Option String} {prior : Ledger}
  {s s' : Reduction ids} {event : ReviewEvent} {stage : PreparedStage} {demand : BenchmarkDemand}

/-- What is known of Demands while a reduction goes on: those from before and the pending ones are
recorded, each under its identity. -/
structure DemandBooks (prior : Ledger) (s : Reduction ids) : Prop where
  prior : ∀ id, prior.demands.contains id = true → (s.projected.demandOf id).isSome
  pending : ∀ id ∈ s.pendingDemands, (s.projected.demandOf id).isSome
  named : s.projected.DemandsNamed ids

/-- An identity that a reduction takes for recorded. -/
def KnownDemand (prior : Ledger) (s : Reduction ids) (id : String) : Prop :=
  prior.demands.contains id = true ∨ id ∈ s.pendingDemands

/-- What writes no Demand. -/
structure LeavesDemands (s s' : Reduction ids) : Prop where
  pending : s'.pendingDemands = s.pendingDemands
  content : ∀ id, s'.projected.demandOf id = s.projected.demandOf id

theorem LeavesDemands.refl (s : Reduction ids) : LeavesDemands s s := ⟨rfl, fun _ => rfl⟩

theorem LeavesDemands.trans {s'' : Reduction ids} (h : LeavesDemands s s')
    (h' : LeavesDemands s' s'') : LeavesDemands s s'' :=
  ⟨h'.pending.trans h.pending, fun id => (h'.content id).trans (h.content id)⟩

theorem LeavesDemands.books (h : LeavesDemands s s') (hbooks : DemandBooks prior s) :
    DemandBooks prior s' where
  prior id hid := by
    rw [h.content]
    exact hbooks.prior id hid
  pending id hid := by
    rw [h.content]
    exact hbooks.pending id (h.pending ▸ hid)
  named id demand hid := hbooks.named id demand (h.content id ▸ hid)

theorem LeavesDemands.known (h : LeavesDemands s s') {id : String} (hid : KnownDemand prior s id) :
    KnownDemand prior s' id := hid.imp_right fun hpending => h.pending ▸ hpending

/-- An event that records no Demand. -/
theorem emit_leavesDemands (h : s.emit viewId event = .ok s')
    (hkind : ∀ id, event.event ≠ .recorded .demandRecorded id) : LeavesDemands s s' := by
  obtain ⟨L, happly, rfl⟩ := Reduction.emit_eq_ok h
  refine ⟨rfl, fun id => ?_⟩
  have hstep : s.projected.step viewId (.event s.store.contentStore event.event
      event.artifactRefs) = some L := by
    simp only [Ledger.step, Ledger.reply, happly]
  refine Ledger.step_demandOf hstep (fun hrecorded => ?_) id
  obtain ⟨event, source, correlation, refs⟩ := event
  cases event with
  | recorded kind artifactId => exact hkind artifactId (by cases hrecorded; rfl)
  | _ => cases hrecorded

theorem challengeResolution_leavesDemands {runId key reportId : String}
    {kind : ResolutionChallengeKind} {resolution : RecordedResolution}
    (h : challengeResolution viewId runId key reportId kind resolution s = .ok s') :
    LeavesDemands s s' := by
  rw [challengeResolution] at h
  split at h
  · cases h
  · split at h
    · cases h
    · obtain ⟨-, -, h⟩ := bind_eq_ok.mp h
      obtain ⟨⟨store, recordId⟩, -, h⟩ := bind_eq_ok.mp h
      have hstored : LeavesDemands s { s with store := store } := ⟨rfl, fun _ => rfl⟩
      exact hstored.trans (emit_leavesDemands h (by simp))

theorem reportUnder_leavesDemands {runId : String} {p : (FindingReport × String) × String}
    (h : reportUnder viewId runId prior stage s p = .ok s') : LeavesDemands s s' := by
  obtain ⟨⟨report, reportId⟩, key⟩ := p
  rw [reportUnder] at h
  dsimp only at h
  split_ifs at h
  · cases h
    exact ⟨rfl, fun _ => rfl⟩
  · obtain ⟨s₁, hemit, h⟩ := bind_eq_ok.mp h
    have hbooked : LeavesDemands s { s.select stage.source report reportId key with
        pendingReports := ⟨key, stage.source, prior.round, reportId⟩ :: s.pendingReports } :=
      ⟨rfl, fun _ => rfl⟩
    have hreported := hbooked.trans (emit_leavesDemands hemit (by simp))
    split at h
    · split_ifs at h
      · exact hreported.trans (challengeResolution_leavesDemands h)
      · cases h
        exact hreported
    · cases h
      exact hreported

theorem disposeOf_leavesDemands {d : ReviewerDisposition}
    (h : disposeOf viewId prior stage s d = .ok s') : LeavesDemands s s' := by
  rw [disposeOf] at h
  dsimp only at h
  split at h
  · cases h
  · obtain ⟨-, -, h⟩ := bind_eq_ok.mp h
    obtain ⟨⟨store, recordId⟩, -, h⟩ := bind_eq_ok.mp h
    split_ifs at h
    · cases h
      exact ⟨rfl, fun _ => rfl⟩
    · have hlast := emit_leavesDemands h (by simp)
      exact ⟨hlast.pending, hlast.content⟩

/-- **One Demand**: it is known, or it is recorded under its identity. -/
theorem recordStageDemand_books (hbooks : DemandBooks prior s)
    (h : recordStageDemand viewId prior stage s demand = .ok s') : DemandBooks prior s' := by
  rw [recordStageDemand] at h
  dsimp only at h
  split_ifs at h with hknown
  · cases h
    exact hbooks
  · obtain ⟨⟨⟩, hvalid, h⟩ := bind_eq_ok.mp h
    obtain ⟨⟨store, recordId⟩, hput, h⟩ := bind_eq_ok.mp h
    obtain ⟨s₁, hemit, h⟩ := bind_eq_ok.mp h
    cases h
    obtain ⟨L, happly, rfl⟩ := Reduction.emit_eq_ok hemit
    obtain ⟨artifact, recorded, hread, hpayload, hrecord⟩ := Ledger.apply_demandRecorded happly
    obtain ⟨-, hfiled, -⟩ := putArtifact_eq_ok hput
    obtain rfl := Except.ok.inj ((ReviewStore.read_contentStore hfiled).symm.trans hread)
    cases hpayload
    obtain ⟨hcontent, -⟩ := Ledger.recordDemand_demandOf hrecord
    rw [validateDemand] at hvalid
    split_ifs at hvalid with hrefused
    simp only [Bool.or_eq_true, not_or, Bool.not_eq_true] at hrefused
    obtain ⟨⟨⟨⟨⟨⟨-, hclaim⟩, hwhy⟩, hmethod⟩, hsource⟩, -⟩, -⟩ := hrefused
    have hgrows : ∀ id, (s.projected.demandOf id).isSome → (L.demandOf id).isSome := by
      intro id hid
      rw [hcontent]
      split_ifs
      · obtain ⟨d, hd⟩ := Option.isSome_iff_exists.mp hid
        simp [hd]
      · exact hid
    refine ⟨fun id hid => hgrows id (hbooks.prior id hid), fun id hid => ?_, fun id d hd => ?_⟩
    · rcases List.mem_cons.mp hid with rfl | hid
      · rw [hcontent, if_pos rfl]
        cases s.projected.demandOf _ <;> rfl
      · exact hgrows id (hbooks.pending id hid)
    · rw [hcontent] at hd
      split_ifs at hd with hid
      · cases hold : s.projected.demandOf id with
        | some d' =>
          rw [hold] at hd
          cases hd
          exact hbooks.named id d hold
        | none =>
          rw [hold] at hd
          cases hd
          exact ⟨hid, ⟨hsource, hclaim, hwhy, hmethod⟩⟩
      · exact hbooks.named id d hd

theorem recordStageDemand_known (h : recordStageDemand viewId prior stage s demand = .ok s') :
    KnownDemand prior s' (ids.demandId stage.source demand) ∧
      ∀ id, KnownDemand prior s id → KnownDemand prior s' id := by
  rw [recordStageDemand] at h
  dsimp only at h
  split_ifs at h with hknown
  · cases h
    rw [Bool.or_eq_true, List.contains_iff_mem] at hknown
    exact ⟨hknown, fun _ hid => hid⟩
  · obtain ⟨⟨⟩, -, h⟩ := bind_eq_ok.mp h
    obtain ⟨⟨store, recordId⟩, -, h⟩ := bind_eq_ok.mp h
    obtain ⟨s₁, hemit, h⟩ := bind_eq_ok.mp h
    cases h
    obtain ⟨L, -, rfl⟩ := Reduction.emit_eq_ok hemit
    exact ⟨.inr List.mem_cons_self, fun id hid => hid.imp_right (List.mem_cons_of_mem _)⟩

/-- **One stage** keeps the books, and knows its Demands afterwards. -/
theorem reduceStage_demands {runId : String}
    (h : reduceStage viewId runId prior s stage = .ok s') :
    (DemandBooks prior s → DemandBooks prior s') ∧
      (∀ demand ∈ stage.demands, KnownDemand prior s' (ids.demandId stage.source demand)) ∧
      ∀ id, KnownDemand prior s id → KnownDemand prior s' id := by
  rw [reduceStage] at h
  obtain ⟨s₁, hdemands, h⟩ := bind_eq_ok.mp h
  obtain ⟨reports, -, h⟩ := bind_eq_ok.mp h
  obtain ⟨⟨store, published⟩, -, h⟩ := bind_eq_ok.mp h
  obtain ⟨keys, -, h⟩ := bind_eq_ok.mp h
  obtain ⟨s₂, hreports, h⟩ := bind_eq_ok.mp h
  have hrest : LeavesDemands s₁ s' := by
    have hstored : LeavesDemands s₁ { s₁ with store := store } := ⟨rfl, fun _ => rfl⟩
    have hreported : LeavesDemands s₁ s₂ :=
      foldlM_invariant (P := fun t => LeavesDemands s₁ t)
        (fun t p t' _ ht hp => ht.trans (reportUnder_leavesDemands hp)) hstored hreports
    exact foldlM_invariant (P := fun t => LeavesDemands s₁ t)
      (fun t d t' _ ht hd => ht.trans (disposeOf_leavesDemands hd)) hreported h
  refine ⟨fun hbooks => hrest.books ?_, fun demand hdemand => hrest.known ?_,
    fun id hid => hrest.known ?_⟩
  · exact foldlM_invariant (fun t d t' _ ht hd => recordStageDemand_books ht hd) hbooks hdemands
  · exact foldlM_each (P := fun d t => KnownDemand prior t (ids.demandId stage.source d))
      (fun t d t' hd => (recordStageDemand_known hd).1)
      (fun e t d t' he hd => (recordStageDemand_known hd).2 _ he) hdemands demand hdemand
  · exact foldlM_invariant (P := fun t => KnownDemand prior t id)
      (fun t d t' _ ht hd => (recordStageDemand_known hd).2 _ ht) hid hdemands

/-- **One reduction**: every Demand of its stages has a record under its identity, and every
record stands under its own. -/
theorem prepareReviewOutputs_demands {store : ReviewStore ids} {runId : String}
    {stages : List PreparedStage} (hprior : prior.DemandsNamed ids)
    (h : prepareReviewOutputs viewId store runId prior stages = .ok s) :
    s.projected.DemandsNamed ids ∧ ∀ stage ∈ stages, ∀ demand ∈ stage.demands,
      (s.projected.demandOf (ids.demandId stage.source demand)).isSome := by
  have hstart : DemandBooks prior ({ store := store, projected := prior } : Reduction ids) := by
    refine ⟨fun id hid => ?_, nofun, hprior⟩
    obtain ⟨record, hrecord⟩ := OrdMap.contains_iff.mp hid
    simp [Ledger.demandOf, hrecord]
  have hbooks : DemandBooks prior s :=
    foldlM_invariant (fun t stage t' _ ht hstage => (reduceStage_demands hstage).1 ht) hstart h
  refine ⟨hbooks.named, fun stage hstage demand hdemand => ?_⟩
  have hknown := foldlM_each (P := fun stage t => ∀ demand ∈ PreparedStage.demands stage,
      KnownDemand prior t (ids.demandId stage.source demand))
    (fun t stage t' hstage => (reduceStage_demands hstage).2.1)
    (fun e t stage t' he hstage d hd => (reduceStage_demands hstage).2.2 _ (he d hd)) h
    stage hstage demand hdemand
  rcases hknown with hprior | hpending
  · exact hbooks.prior _ hprior
  · exact hbooks.pending _ hpending

/-- Demands that came through reductions stand under their identities. -/
theorem DemandsReduced.named {L : Ledger} (h : DemandsReduced ids viewId L) :
    L.DemandsNamed ids := by
  induction h with
  | start policy round =>
    intro id demand hid
    cases hid
  | step input _ hdemand hstep ih =>
    intro id demand hid
    exact ih id demand (Ledger.step_demandOf hstep hdemand id ▸ hid)
  | reduce store runId stages s _ hdone ih => exact (prepareReviewOutputs_demands ih hdone).1

end Reductions

/-! ## A run whose digest is of no help -/

/-- A digest that tells nothing apart. -/
def zeroDigest (_ : List UInt8) : List UInt8 := List.replicate 32 0

/-- The identity under it. -/
def zeroId : String := "sha256:" ++ String.ofList (hexEncode (List.replicate 32 0))

def zeroIds : ReviewIds where
  artifactId _ := zeroId
  findingId reportId := reportId
  demandId := canonicalDemandId zeroDigest
  admits _ := .ok ()

def zeroStore : ReviewStore zeroIds where
  filed := .empty
  unfiled _ := .absent
  verify _ := .ok ()
  resolveSubjectScope _ := .ok ⟨⟨.wholeTree, none, "head"⟩, none⟩
  manifestPolicy _ := .ok canonicalFindingIdentityPolicy
  named _ _ h := by cases h

def zeroStage (source : String) (demand : BenchmarkDemand) : PreparedStage where
  source := source
  demandRequirement := .required
  reports := []
  demands := [demand]
  dispositions := []
  provenance := ⟨.attempt "run" source "1", [], "head", zeroId⟩

theorem isDigest_zeroId : isDigest zeroId = true := by decide

/-- The reduction after its first Demand. -/
def zeroRecorded (source : String) (demand : BenchmarkDemand) : Reduction zeroIds :=
  let payload : Demand := ⟨zeroId, demand.claim, demand.why, demand.suggestedMethod, source,
    .required, zeroId⟩
  { store := zeroStore.file ((zeroStage source demand).provenance.envelope (.demand payload 1))
    projected := { Ledger.start "policy" 1 with
      demandOrder := [zeroId]
      demands := .insert .empty zeroId { demand := payload, records := [⟨zeroId, zeroId⟩] } }
    events := [⟨.recorded .demandRecorded zeroId, none, zeroId, [zeroId]⟩]
    pendingDemands := [zeroId]
    reduction := { selectedDemandArtifactIds := [zeroId], demandInputArtifactIds := [zeroId] } }

theorem recordStageDemand_zero {source : String} {demand : BenchmarkDemand}
    (hvalid : ValidDemand source demand) :
    recordStageDemand sampleViewId (Ledger.start "policy" 1) (zeroStage source demand)
      { store := zeroStore, projected := Ledger.start "policy" 1 } demand =
        .ok (zeroRecorded source demand) := by
  obtain ⟨hsource, hclaim, hwhy, hmethod⟩ := hvalid
  have hcheck : validateDemand ⟨zeroId, demand.claim, demand.why, demand.suggestedMethod, source,
      .required, zeroId⟩ 1 = .ok () := by
    simp [validateDemand, isDigest_zeroId, hclaim, hwhy, hmethod, hsource]
  rw [recordStageDemand]
  dsimp only
  refine (if_neg (show ¬ ((Ledger.start "policy" 1).demands.contains zeroId ||
    ([] : List String).contains zeroId) = true from Bool.false_ne_true)).trans ?_
  change (validateDemand ⟨zeroId, demand.claim, demand.why, demand.suggestedMethod, source,
      .required, zeroId⟩ 1 >>= _) = _
  rw [hcheck]
  rfl

/-- A second Demand of the same identity is left out. -/
theorem recordStageDemand_known_zero (source source' : String) (demand demand' : BenchmarkDemand) :
    recordStageDemand sampleViewId (Ledger.start "policy" 1) (zeroStage source' demand')
      (zeroRecorded source demand) demand' = .ok (zeroRecorded source demand) := by
  rw [recordStageDemand]
  dsimp only
  exact if_pos (show ((Ledger.start "policy" 1).demands.contains zeroId ||
    [zeroId].contains zeroId) = true by simp)

theorem reduceStage_zero {source : String} {demand : BenchmarkDemand} {s s' : Reduction zeroIds}
    (h : recordStageDemand sampleViewId (Ledger.start "policy" 1) (zeroStage source demand) s
      demand = .ok s') :
    reduceStage sampleViewId "run" (Ledger.start "policy" 1) s (zeroStage source demand) =
      .ok s' := by
  have hdemands : (zeroStage source demand).demands.foldlM (recordStageDemand sampleViewId
      (Ledger.start "policy" 1) (zeroStage source demand)) s = .ok s' := by
    change ([demand].foldlM _ s) = _
    rw [List.foldlM_cons, h]
    rfl
  rw [reduceStage, hdemands]
  rfl

theorem prepareReviewOutputs_zero {source source' : String} {demand demand' : BenchmarkDemand}
    (hvalid : ValidDemand source demand) :
    prepareReviewOutputs sampleViewId zeroStore "run" (Ledger.start "policy" 1)
      [zeroStage source demand, zeroStage source' demand'] = .ok (zeroRecorded source demand) := by
  rw [prepareReviewOutputs, List.foldlM_cons, reduceStage_zero (recordStageDemand_zero hvalid),
    ok_bind, List.foldlM_cons, reduceStage_zero (recordStageDemand_known_zero ..)]
  rfl

theorem demandOf_zeroRecorded (source : String) (demand : BenchmarkDemand) (id : String) :
    (zeroRecorded source demand).projected.demandOf id = if id = zeroId then
      some ⟨zeroId, demand.claim, demand.why, demand.suggestedMethod, source, .required, zeroId⟩
    else none := by
  simp only [zeroRecorded, Ledger.demandOf, OrdMap.get_insert]
  split_ifs <;> rfl

/-! ## The identity of a Demand -/

/-- **A Demand is recorded as it is**: in every reduction that is handed it, from any Ledger whose
Demands came through reductions, by any digest that does not confuse its preimage with that of a
recorded Demand. -/
def RecordedAsIs (source : String) (demand : BenchmarkDemand) : Prop :=
  ∀ (sha256 : List UInt8 → List UInt8) (ids : ReviewIds) (viewId : Finding → Option String)
    (L : Ledger) (store : ReviewStore ids) (runId : String) (stages : List PreparedStage)
    (s : Reduction ids), ids.demandId = canonicalDemandId sha256 → DemandsReduced ids viewId L →
    prepareReviewOutputs viewId store runId L stages = .ok s →
    (∀ id recorded, s.projected.demandOf id = some recorded →
      canonicalDemandId sha256 recorded.source recorded.content =
        canonicalDemandId sha256 source demand →
      demandPreimage recorded.source recorded.content = demandPreimage source demand) →
    ∀ stage ∈ stages, stage.source = source → demand ∈ stage.demands →
      ∃ recorded, s.projected.demandOf (canonicalDemandId sha256 source demand) = some recorded ∧
        recorded.source = source ∧ recorded.content = demand

theorem recordedAsIs_iff {source : String} {demand : BenchmarkDemand}
    (hvalid : ValidDemand source demand) :
    RecordedAsIs source demand ↔ TightDemand source demand := by
  rw [← demandPreimage_unique_iff hvalid]
  constructor
  · intro hrecorded source' demand' hvalid' hsame
    -- the other Demand comes first, and is recorded for both
    have hrun := @prepareReviewOutputs_zero source' source demand' demand hvalid'
    obtain ⟨recorded, hrecord, hsource, hcontent⟩ := hrecorded zeroDigest zeroIds sampleViewId _
      zeroStore "run" _ _ rfl (.start "policy" 1) hrun
      (fun id recorded hrecord _ => by
        rw [demandOf_zeroRecorded] at hrecord
        split_ifs at hrecord
        cases hrecord
        exact hsame)
      (zeroStage source demand) (by simp) rfl (by simp [zeroStage])
    have hid : canonicalDemandId zeroDigest source demand = zeroId := rfl
    rw [demandOf_zeroRecorded, if_pos hid] at hrecord
    cases hrecord
    exact ⟨hsource, hcontent⟩
  · intro hunique sha256 ids viewId L store runId stages s hids hL hdone hdigest stage hstage
      hsource hdemand
    obtain ⟨hnamed, hall⟩ := prepareReviewOutputs_demands hL.named hdone
    obtain ⟨recorded, hrecord⟩ := Option.isSome_iff_exists.mp (hall stage hstage demand hdemand)
    obtain ⟨hid, hrecordedValid⟩ := hnamed _ recorded hrecord
    rw [hids, hsource] at hrecord hid
    obtain ⟨hsame, hcontent⟩ := hunique recorded.source recorded.content hrecordedValid
      (hdigest _ recorded hrecord hid.symm)
    exact ⟨recorded, hrecord, hsame, hcontent⟩

/-- **The identity of a Demand.** Of the validated Demands of any sources, one alone has its
preimage, and reductions record it as it is, exactly when it is tight. Where no source holds a zero
character, its source need not be asked, nor what its claim has behind one. -/
theorem demand_identity (source : String) (demand : BenchmarkDemand)
    (hvalid : ValidDemand source demand) :
    ((∀ source' demand', ValidDemand source' demand' →
        demandPreimage source' demand' = demandPreimage source demand →
        source' = source ∧ demand' = demand) ↔ TightDemand source demand) ∧
      (RecordedAsIs source demand ↔ TightDemand source demand) ∧
      ('\x00' ∉ source.toList →
        ((∀ source' demand', '\x00' ∉ source'.toList → ValidDemand source' demand' →
          demandPreimage source' demand' = demandPreimage source demand →
          source' = source ∧ demand' = demand) ↔ TightTexts demand)) :=
  ⟨demandPreimage_unique_iff hvalid, recordedAsIs_iff hvalid,
    demandPreimage_unique_iff_of_source hvalid⟩

/-- A Demand with a zero character in its claim. -/
def sampleObligation : BenchmarkDemand := ⟨"p99\x00tail", "load", "wrk"⟩

/-- The same bytes, cut elsewhere. -/
def sampleObligationTwin : BenchmarkDemand := ⟨"p99", "tail\x00load", "wrk"⟩

theorem validDemand_sampleObligation : ValidDemand "perf" sampleObligation :=
  ⟨by decide, by decide, by decide, by decide⟩

theorem demand_identity_sample : ¬ RecordedAsIs "perf" sampleObligation := by
  rw [(demand_identity "perf" sampleObligation validDemand_sampleObligation).2.1]
  intro htight
  have hblank := htight.claim.1 "p99".toList "tail".toList (by decide) 'p' (by decide)
  exact absurd hblank (by decide)

/-- Two Demands of one preimage: the later one is left out. -/
theorem demands_collide : ValidDemand "perf" sampleObligation ∧
    ValidDemand "perf" sampleObligationTwin ∧ sampleObligation ≠ sampleObligationTwin ∧
      demandPreimage "perf" sampleObligation = demandPreimage "perf" sampleObligationTwin ∧
      ∃ s, prepareReviewOutputs sampleViewId zeroStore "run" (Ledger.start "policy" 1)
          [zeroStage "perf" sampleObligation, zeroStage "perf" sampleObligationTwin] = .ok s ∧
        ∀ id recorded, s.projected.demandOf id = some recorded →
          recorded.content = sampleObligation := by
  refine ⟨validDemand_sampleObligation, ?_, by decide, by decide, _,
    prepareReviewOutputs_zero validDemand_sampleObligation, fun id recorded hrecord => ?_⟩
  · exact ⟨by decide, by decide, by decide, by decide⟩
  · rw [demandOf_zeroRecorded] at hrecord
    split_ifs at hrecord
    cases hrecord
    rfl

end Afactory
