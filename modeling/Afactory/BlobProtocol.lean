import Mathlib
import Afactory.OrdMap
import Afactory.Runs

/-!
# Blobs under their lock

`publish_contents` of `review-telemetry/src/segment/writer.rs` against `collect_in` of
`blob/collect.rs`. A publisher stages blobs, places them under a shared `gc.lock` and has their
references accepted; a sweep under the exclusive lock reads what the segments reference, and
removes the blobs that nothing references and that are old enough.

* `Site`, `step`: any number of processes, publications and sweeps, one step at a time;
* `timely`: how long a publisher takes at most;
* `Safe`: what every step keeps;
* `written_has_blob`: no reference that a segment holds names a blob that is missing.

A directory is listed in one look, and a batch that was judged to fit is accepted once its blobs
are placed.
-/

namespace Afactory

namespace Telemetry

namespace BlobProtocol

/-- A stored `blob_ref`: the record, when it was accepted, and the publication it is of. -/
structure Ref where
  digest : String
  accepted : ℕ
  publication : ℕ
  deriving DecidableEq

/-- A segment with its writer, one its writer left, and one that is sealed. -/
inductive Form where
  | live
  | left
  | sealed
  deriving DecidableEq

/-- A segment: the references its file holds, and those accepted and not written yet. -/
structure Segment where
  form : Form
  written : List Ref
  buffered : List Ref
  deriving DecidableEq

/-- The oldest references are written. -/
def Segment.flush (segment : Segment) (refs : ℕ) : Segment :=
  { segment with
    written := segment.written ++ segment.buffered.take refs
    buffered := segment.buffered.drop refs }

/-- One `publish_contents`: the blobs it staged, each with the time its bytes were written. -/
structure Publication where
  segment : String
  staged : List (String × ℕ)
  locked : Bool
  placed : Bool
  deriving DecidableEq

/-- `collect_in` under its lock: the segments it listed and has not read, each with whether it was
sealed, and the digests it read. -/
structure Collector where
  now : ℕ
  todo : Option (List (String × Bool))
  roots : List String
  deriving DecidableEq

/-- A telemetry root, with what runs on it. -/
structure Site where
  clock : ℕ
  /-- each blob's time of modification: a rename keeps that of the staged file -/
  blobs : OrdMap String ℕ
  segments : OrdMap String Segment
  publications : OrdMap ℕ Publication
  next : ℕ
  collector : Option Collector
  deriving DecidableEq

def Site.new : Site := ⟨0, .empty, .empty, .empty, 0, none⟩

/-- Whether the publication holds `gc.lock`. -/
def Site.held (s : Site) (publication : ℕ) : Bool :=
  (s.publications.get publication).any (·.locked)

inductive Action where
  | tick
  | openSegment (id : String)
  /-- `publish_contents` -/
  | begin (segment : String)
  | stage (publication : ℕ) (digest : String)
  /-- a staged file that cannot be placed: removed as an old temporary, or not renamed -/
  | lose (publication : ℕ) (digest : String)
  | lock (publication : ℕ)
  /-- the critical section: the staged files are renamed, and the batch is accepted -/
  | place (publication : ℕ)
  /-- the end of a publication, whatever it came to -/
  | finish (publication : ℕ)
  /-- the consumer writes the oldest references -/
  | flush (segment : String) (refs : ℕ)
  /-- `seal` -/
  | close (segment : String)
  /-- the process ends, its buffer with it; its publications finish -/
  | crash (segment : String)
  /-- `recover_in` -/
  | recover (segment : String)
  /-- the sweep removes a sealed segment -/
  | evict (segment : String)
  /-- `lock_in` of the sweep, whose clock was read before -/
  | lockExclusive (now : ℕ)
  /-- `list_in` -/
  | list
  /-- `manifest_digests_in` or `read_live_in` -/
  | read (segment : String)
  /-- a blob no root names, old enough -/
  | remove (digest : String)
  | unlock

/-- A step on the segment. -/
def Site.withSegment (s : Site) (id : String) (f : Segment → Option Segment) : Option Site :=
  (s.segments.get id).bind fun segment =>
    (f segment).map fun segment => { s with segments := s.segments.insert id segment }

/-- A step on the publication. -/
def Site.withPublication (s : Site) (id : ℕ) (f : Publication → Option Publication) :
    Option Site :=
  (s.publications.get id).bind fun publication =>
    (f publication).map fun publication =>
      { s with publications := s.publications.insert id publication }

/-- The critical section of a publication that holds the lock. -/
def Site.place (s : Site) (id : ℕ) (publication : Publication) (segment : Segment) : Site :=
  { s with
    blobs := s.blobs.insertAll publication.staged
    segments := s.segments.insert publication.segment
      { segment with buffered := segment.buffered ++
          publication.staged.map fun staged => ⟨staged.1, s.clock, id⟩ }
    publications := s.publications.insert id { publication with staged := [], placed := true } }

variable (minAge : ℕ)

/-- One step; `none` where it cannot come now. -/
def step (s : Site) : Action → Option Site
  | .tick => some { s with clock := s.clock + 1 }
  | .openSegment id =>
    if s.segments.contains id then none
    else some { s with segments := s.segments.insert id ⟨.live, [], []⟩ }
  | .begin segment =>
    some { s with
      publications := s.publications.insert s.next ⟨segment, [], false, false⟩
      next := s.next + 1 }
  | .stage id digest =>
    s.withPublication id fun publication =>
      some { publication with staged := publication.staged ++ [(digest, s.clock)] }
  | .lose id digest =>
    s.withPublication id fun publication =>
      some { publication with staged := publication.staged.filter (·.1 ≠ digest) }
  | .lock id =>
    if s.collector.isSome then none
    else s.withPublication id fun publication =>
      if publication.placed then none else some { publication with locked := true }
  | .place id =>
    (s.publications.get id).bind fun publication =>
      (s.segments.get publication.segment).bind fun segment =>
        if publication.locked ∧ ¬ publication.placed ∧ segment.form = .live then
          some (s.place id publication segment)
        else none
  | .finish id => some { s with publications := s.publications.erase id }
  | .flush id refs =>
    s.withSegment id fun segment =>
      if segment.form = .live then some (segment.flush refs) else none
  | .close id =>
    s.withSegment id fun segment =>
      if segment.form = .live ∧ segment.buffered = [] then some { segment with form := .sealed }
      else none
  | .crash id =>
    s.withSegment id fun segment =>
      if segment.form = .live then some { segment with form := .left, buffered := [] } else none
  | .recover id =>
    s.withSegment id fun segment =>
      if segment.form = .left then some { segment with form := .sealed } else none
  | .evict id =>
    (s.segments.get id).bind fun segment =>
      if segment.form = .sealed then some { s with segments := s.segments.erase id } else none
  | .lockExclusive now =>
    if s.collector = none ∧ now ≤ s.clock ∧ s.publications.values.all (!·.locked) then
      some { s with collector := some ⟨now, none, []⟩ }
    else none
  | .list =>
    s.collector.bind fun c =>
      if c.todo = none then
        let listed := s.segments.entries.map fun segment =>
          (segment.1, decide (segment.2.form = .sealed))
        some { s with collector := some { c with todo := some listed } }
      else none
  | .read id =>
    s.collector.bind fun c =>
      c.todo.bind fun todo =>
        (lookup id todo).map fun wasSealed =>
          match s.segments.get id with
          | none => { s with collector := none }
          | some segment =>
            -- a segment sealed since has no file of the name it was listed under
            if decide (segment.form = .sealed) = wasSealed then
              { s with collector := some { c with
                todo := some (todo.filter (·.1 ≠ id))
                roots := c.roots ++ segment.written.map Ref.digest } }
            else { s with collector := none }
  | .remove digest =>
    s.collector.bind fun c =>
      if c.todo = some [] ∧ digest ∉ c.roots ∧
          (s.blobs.get digest).any fun modified => modified + minAge ≤ c.now then
        some { s with blobs := s.blobs.erase digest }
      else none
  | .unlock => some { s with collector := none }

/-! ## What is promised of publishers -/

/-- A reference that is written now is written in time: soon after it was accepted, or under the
lock. -/
def Site.inTime (b : ℕ) (s : Site) (r : Ref) : Bool :=
  s.clock ≤ r.accepted + b || s.held r.publication

def Site.Written (s : Site) (id : String) (r : Ref) : Prop :=
  ∃ segment, s.segments.get id = some segment ∧ r ∈ segment.written

def Site.Buffered (s : Site) (r : Ref) : Prop :=
  ∃ id segment, s.segments.get id = some segment ∧ r ∈ segment.buffered

/-- The sweep does not remove the blob of a reference that the segment holds: it has not listed the
segments or not read this one, it read the reference, or the blob is young. -/
def Collector.Spares (c : Collector) (blobs : OrdMap String ℕ) (id digest : String) : Prop :=
  c.todo = none ∨ (∃ todo, c.todo = some todo ∧ id ∈ todo.map Prod.fst) ∨ digest ∈ c.roots ∨
    ∃ modified, blobs.get digest = some modified ∧ c.now < modified + minAge

/-- What every step keeps. -/
structure Safe (a b : ℕ) (s : Site) : Prop where
  written : ∀ id r, s.Written id r → ∃ modified, s.blobs.get r.digest = some modified
  buffered : ∀ r, s.Buffered r → r.accepted ≤ s.clock ∧ (s.inTime b r = true →
    ∃ modified, s.blobs.get r.digest = some modified ∧ r.accepted ≤ modified + a)
  placed : ∀ r, s.Buffered r → r.publication < s.next ∧
    ∀ publication, s.publications.get r.publication = some publication →
      publication.placed = true
  known : ∀ id publication, s.publications.get id = some publication → id < s.next
  alone : s.collector.isSome = true → ∀ id, s.held id = false
  reading : ∀ c, s.collector = some c → c.now ≤ s.clock ∧
    ∀ id r, s.Written id r → c.Spares minAge s.blobs id r.digest

variable {minAge} {a b : ℕ} {s t : Site}

theorem held_iff {id : ℕ} : s.held id = true ↔
    ∃ publication, s.publications.get id = some publication ∧ publication.locked = true := by
  rw [Site.held, Option.any_eq_true]

theorem inTime_iff {r : Ref} : s.inTime b r = true ↔
    s.clock ≤ r.accepted + b ∨ s.held r.publication = true := by
  rw [Site.inTime, Bool.or_eq_true, decide_eq_true_eq]

/-- The references after a segment was written. -/
theorem refs_insert {segments : OrdMap String Segment} {id : String} {segment : Segment}
    (ht : t.segments = segments.insert id segment) (hs : s.segments = segments) :
    (∀ other r, t.Written other r → (other = id ∧ r ∈ segment.written) ∨ s.Written other r) ∧
      ∀ r, t.Buffered r → r ∈ segment.buffered ∨ s.Buffered r := by
  subst hs
  constructor
  · rintro other r ⟨found, hfound, hr⟩
    rw [ht, OrdMap.get_insert] at hfound
    split_ifs at hfound with hid
    · obtain rfl := Option.some.inj hfound
      exact .inl ⟨hid, hr⟩
    · exact .inr ⟨found, hfound, hr⟩
  · rintro r ⟨other, found, hfound, hr⟩
    rw [ht, OrdMap.get_insert] at hfound
    split_ifs at hfound
    · obtain rfl := Option.some.inj hfound
      exact .inl hr
    · exact .inr ⟨other, found, hfound, hr⟩

/-- The publications go on: none takes the lock, none is undone. -/
def Continues (s t : Site) : Prop :=
  ∀ id publication, t.publications.get id = some publication → id < t.next ∧
    (s.next ≤ id ∧ publication.locked = false ∨
      ∃ before, s.publications.get id = some before ∧
        (publication.locked = true → before.locked = true) ∧
        (before.placed = true → publication.placed = true))

theorem Continues.held (h : Continues s t) {id : ℕ} (hheld : t.held id = true) :
    s.held id = true := by
  obtain ⟨publication, hget, hlocked⟩ := held_iff.mp hheld
  obtain ⟨-, ⟨-, hfree⟩ | ⟨before, hbefore, hkeeps, -⟩⟩ := h id publication hget
  · rw [hfree] at hlocked
    cases hlocked
  · exact held_iff.mpr ⟨before, hbefore, hkeeps hlocked⟩

/-- A publication that placed its blobs has placed them. -/
theorem Continues.placed (h : Continues s t) {id : ℕ} (hid : id < s.next)
    (hplaced : ∀ before, s.publications.get id = some before → before.placed = true)
    {publication : Publication} (hget : t.publications.get id = some publication) :
    publication.placed = true := by
  obtain ⟨-, ⟨hnew, -⟩ | ⟨before, hbefore, -, hkeeps⟩⟩ := h id publication hget
  · exact absurd hid (not_lt.mpr hnew)
  · exact hkeeps (hplaced before hbefore)

theorem Safe.continues (h : Safe minAge a b s) (hpublications : t.publications = s.publications)
    (hnext : t.next = s.next) : Continues s t := by
  intro id publication hget
  rw [hpublications] at hget
  exact ⟨hnext ▸ h.known id publication hget, .inr ⟨publication, hget, fun hr => hr, fun hr => hr⟩⟩

/-- **A step that leaves the blobs** and adds no reference. -/
theorem Safe.quiet (h : Safe minAge a b s) (hblobs : t.blobs = s.blobs)
    (hclock : s.clock ≤ t.clock) (hnext : s.next ≤ t.next) (hcontinues : Continues s t)
    (hwritten : ∀ id r, t.Written id r → s.Written id r)
    (hbuffered : ∀ r, t.Buffered r → s.Buffered r)
    (hcollector : t.collector = none ∨ t.collector = s.collector) : Safe minAge a b t where
  written id r hr := by
    rw [hblobs]
    exact h.written id r (hwritten id r hr)
  buffered r hr := by
    obtain ⟨haccepted, hblob⟩ := h.buffered r (hbuffered r hr)
    refine ⟨haccepted.trans hclock, fun htime => ?_⟩
    rw [hblobs]
    refine hblob (inTime_iff.mpr ((inTime_iff.mp htime).imp (fun hle => ?_) hcontinues.held))
    exact hclock.trans hle
  placed r hr := by
    obtain ⟨hlt, hbefore⟩ := h.placed r (hbuffered r hr)
    exact ⟨hlt.trans_le hnext, fun _ => hcontinues.placed hlt hbefore⟩
  known id publication hget := (hcontinues id publication hget).1
  alone hsome id := by
    rcases hcollector with hnone | hsame
    · rw [hnone] at hsome
      cases hsome
    · rw [hsame] at hsome
      exact Bool.eq_false_iff.mpr fun hlocked =>
        Bool.eq_false_iff.mp (h.alone hsome id) (hcontinues.held hlocked)
  reading c hc := by
    rcases hcollector with hnone | hsame
    · rw [hnone] at hc
      cases hc
    · rw [hsame] at hc
      obtain ⟨hnow, hspares⟩ := h.reading c hc
      refine ⟨hnow.trans hclock, fun id r hr => ?_⟩
      rw [hblobs]
      exact hspares id r (hwritten id r hr)

/-- A step on the publications. -/
theorem Safe.publications (h : Safe minAge a b s) {publications : OrdMap ℕ Publication} {next : ℕ}
    (hnext : s.next ≤ next) (hcontinues : Continues s { s with publications, next }) :
    Safe minAge a b { s with publications, next } :=
  h.quiet rfl le_rfl hnext hcontinues (fun _ _ hr => hr) (fun _ hr => hr) (.inr rfl)

/-- The lock of a sweep is released. -/
theorem Safe.unlock (h : Safe minAge a b s) : Safe minAge a b { s with collector := none } :=
  h.quiet rfl le_rfl le_rfl (h.continues rfl rfl) (fun _ _ hr => hr) (fun _ hr => hr) (.inl rfl)

/-- A step on one segment that adds no reference. -/
theorem Safe.segment (h : Safe minAge a b s) {id : String} {segment : Segment}
    (hwritten : ∀ r ∈ segment.written, s.Written id r)
    (hbuffered : ∀ r ∈ segment.buffered, s.Buffered r) :
    Safe minAge a b { s with segments := s.segments.insert id segment } := by
  obtain ⟨hold, hnew⟩ := refs_insert (s := s)
    (t := { s with segments := s.segments.insert id segment }) rfl rfl
  refine h.quiet rfl le_rfl le_rfl (h.continues rfl rfl) (fun other r hr => ?_) (fun r hr => ?_)
    (.inr rfl)
  · rcases hold other r hr with ⟨rfl, hmem⟩ | hr
    · exact hwritten r hmem
    · exact hr
  · exact (hnew r hr).elim (hbuffered r) fun hr => hr

/-- A publication goes on without taking the lock. -/
theorem Safe.insert (h : Safe minAge a b s) {id : ℕ} {before after : Publication}
    (hget : s.publications.get id = some before)
    (hlocked : after.locked = true → before.locked = true)
    (hplaced : before.placed = true → after.placed = true) :
    Continues s { s with publications := s.publications.insert id after } := by
  intro other publication hfound
  rw [OrdMap.get_insert] at hfound
  split_ifs at hfound with hid
  · obtain rfl := Option.some.inj hfound
    subst hid
    exact ⟨h.known other before hget, .inr ⟨before, hget, hlocked, hplaced⟩⟩
  · exact ⟨h.known other publication hfound, .inr ⟨publication, hfound, fun hr => hr, fun hr => hr⟩⟩

/-! ## The steps that count -/

/-- **The lock** is taken before anything is placed, while no sweep runs. -/
theorem Safe.lock (h : Safe minAge a b s) (hfree : s.collector = none) {id : ℕ}
    {publication : Publication} (hget : s.publications.get id = some publication)
    (hplaced : publication.placed = false) :
    Safe minAge a b { s with
      publications := s.publications.insert id { publication with locked := true } } where
  written := h.written
  buffered r hr := by
    obtain ⟨haccepted, hblob⟩ := h.buffered r hr
    refine ⟨haccepted, fun htime => hblob (inTime_iff.mpr ?_)⟩
    refine (inTime_iff.mp htime).imp_right fun hheld => ?_
    obtain ⟨found, hfound, hlock⟩ := held_iff.mp hheld
    rw [OrdMap.get_insert] at hfound
    split_ifs at hfound with hid
    · -- a publication that accepted a reference placed its blobs
      have hdone := (h.placed r hr).2 publication (hid ▸ hget)
      rw [hplaced] at hdone
      cases hdone
    · exact held_iff.mpr ⟨found, hfound, hlock⟩
  placed r hr := by
    obtain ⟨hlt, hbefore⟩ := h.placed r hr
    refine ⟨hlt, fun found hfound => ?_⟩
    rw [OrdMap.get_insert] at hfound
    split_ifs at hfound with hid
    · have hdone := hbefore publication (hid ▸ hget)
      rw [hplaced] at hdone
      cases hdone
    · exact hbefore found hfound
  known other found hfound := by
    rw [OrdMap.get_insert] at hfound
    split_ifs at hfound with hid
    · exact hid ▸ h.known id publication hget
    · exact h.known other found hfound
  alone hsome := by
    rw [hfree] at hsome
    cases hsome
  reading c hc := by
    rw [hfree] at hc
    cases hc

/-- **The critical section.** The blobs are there, and young, when the batch is accepted. -/
theorem Safe.place (h : Safe minAge a b s) {id : ℕ} {publication : Publication}
    {segment : Segment} (hget : s.publications.get id = some publication)
    (hsegment : s.segments.get publication.segment = some segment)
    (hlocked : publication.locked = true)
    (hyoung : ∀ staged ∈ publication.staged, s.clock ≤ staged.2 + a) :
    Safe minAge a b (s.place id publication segment) := by
  have hfree : s.collector = none := by
    by_contra hsome
    have hnone := h.alone (Option.isSome_iff_ne_none.mpr hsome) id
    rw [held_iff.mpr ⟨publication, hget, hlocked⟩] at hnone
    cases hnone
  obtain ⟨hwritten, hbuffered⟩ := refs_insert (s := s) (t := s.place id publication segment) rfl rfl
  have hcontinues : Continues s (s.place id publication segment) :=
    h.insert hget (fun _ => hlocked) fun _ => rfl
  -- what was accepted is of this publication, or was accepted before
  have hrefs : ∀ r, (s.place id publication segment).Buffered r →
      (∃ staged ∈ publication.staged, r = ⟨staged.1, s.clock, id⟩) ∨ s.Buffered r := by
    intro r hr
    rcases hbuffered r hr with hmem | hold
    · rcases List.mem_append.mp hmem with hmem | hmem
      · exact .inr ⟨_, segment, hsegment, hmem⟩
      · obtain ⟨staged, hstaged, rfl⟩ := List.mem_map.mp hmem
        exact .inl ⟨staged, hstaged, rfl⟩
    · exact .inr hold
  constructor
  case written =>
    intro other r hr
    refine OrdMap.exists_get_insertAll _ ?_
    rcases hwritten other r hr with ⟨rfl, hmem⟩ | hold
    · exact h.written _ r ⟨segment, hsegment, hmem⟩
    · exact h.written other r hold
  case buffered =>
    intro r hr
    have haccepted : r.accepted ≤ s.clock := by
      rcases hrefs r hr with ⟨staged, -, rfl⟩ | hold
      · exact le_rfl
      · exact (h.buffered r hold).1
    refine ⟨haccepted, fun htime => ?_⟩
    by_cases hmem : r.digest ∈ publication.staged.map Prod.fst
    · obtain ⟨modified, hstaged, hblob⟩ := OrdMap.get_insertAll_of_mem (m := s.blobs) hmem
      exact ⟨modified, hblob, haccepted.trans (hyoung _ hstaged)⟩
    · rcases hrefs r hr with ⟨staged, hstaged, rfl⟩ | hold
      · exact absurd (List.mem_map_of_mem hstaged) hmem
      · rw [show (s.place id publication segment).blobs.get r.digest = s.blobs.get r.digest from
          OrdMap.get_insertAll_of_not_mem hmem]
        exact (h.buffered r hold).2 (inTime_iff.mpr ((inTime_iff.mp htime).imp_right
          hcontinues.held))
  case placed =>
    intro r hr
    have hlt : r.publication < s.next := by
      rcases hrefs r hr with ⟨staged, -, rfl⟩ | hold
      · exact h.known id publication hget
      · exact (h.placed r hold).1
    refine ⟨hlt, fun found hfound => ?_⟩
    rcases hrefs r hr with ⟨staged, -, rfl⟩ | hold
    · rw [Site.place, OrdMap.get_insert, if_pos rfl] at hfound
      obtain rfl := Option.some.inj hfound
      rfl
    · exact hcontinues.placed hlt (h.placed r hold).2 hfound
  case known => exact fun other found hfound => (hcontinues other found hfound).1
  case alone =>
    intro hsome
    rw [show (s.place id publication segment).collector = none from hfree] at hsome
    cases hsome
  case reading =>
    intro c hc
    rw [show (s.place id publication segment).collector = none from hfree] at hc
    cases hc

/-- While a sweep runs, the blob of a reference that is still in time is young. -/
theorem Safe.young (h : Safe minAge a b s) (hwindow : a + b < minAge) {c : Collector}
    (hc : s.collector = some c) {r : Ref} (hr : s.Buffered r) (htime : s.inTime b r = true) :
    ∃ modified, s.blobs.get r.digest = some modified ∧ c.now < modified + minAge := by
  obtain ⟨-, hblob⟩ := h.buffered r hr
  obtain ⟨modified, hget, hstaged⟩ := hblob htime
  refine ⟨modified, hget, ?_⟩
  have hnow := (h.reading c hc).1
  rcases inTime_iff.mp htime with hlate | hheld
  · omega
  · rw [h.alone (by rw [hc]; rfl) r.publication] at hheld
    cases hheld

/-- **The consumer writes**, in time. -/
theorem Safe.flush (h : Safe minAge a b s) (hwindow : a + b < minAge) {id : String}
    {segment : Segment} (hget : s.segments.get id = some segment) {refs : ℕ}
    (htime : ∀ r ∈ segment.buffered.take refs, s.inTime b r = true) :
    Safe minAge a b { s with segments := s.segments.insert id (segment.flush refs) } := by
  obtain ⟨hwritten, hbuffered⟩ := refs_insert (s := s)
    (t := { s with segments := s.segments.insert id (segment.flush refs) }) rfl rfl
  have hin : ∀ r ∈ segment.buffered, s.Buffered r := fun r hr => ⟨id, segment, hget, hr⟩
  -- what is written was written before, or is written now
  have hcases : ∀ other r, Site.Written { s with
      segments := s.segments.insert id (segment.flush refs) } other r →
        s.Written other r ∨ s.Buffered r ∧ s.inTime b r = true := by
    intro other r hr
    rcases hwritten other r hr with ⟨rfl, hmem⟩ | hold
    · rcases List.mem_append.mp hmem with hmem | hmem
      · exact .inl ⟨segment, hget, hmem⟩
      · exact .inr ⟨hin r (List.mem_of_mem_take hmem), htime r hmem⟩
    · exact .inl hold
  have hleft : ∀ r, Site.Buffered { s with
      segments := s.segments.insert id (segment.flush refs) } r → s.Buffered r := fun r hr =>
    (hbuffered r hr).elim (fun hmem => hin r (List.mem_of_mem_drop hmem)) fun hold => hold
  refine ⟨fun other r hr => ?_, fun r hr => h.buffered r (hleft r hr),
    fun r hr => h.placed r (hleft r hr), h.known, h.alone, fun c hc => ⟨(h.reading c hc).1,
    fun other r hr => ?_⟩⟩
  · rcases hcases other r hr with hold | ⟨hnew, hsoon⟩
    · exact h.written other r hold
    · obtain ⟨modified, hblob, -⟩ := (h.buffered r hnew).2 hsoon
      exact ⟨modified, hblob⟩
  · rcases hcases other r hr with hold | ⟨hnew, hsoon⟩
    · exact (h.reading c hc).2 other r hold
    · exact .inr (.inr (.inr (h.young hwindow hc hnew hsoon)))

/-- A step of the sweep that leaves the blobs. -/
theorem Safe.sweep (h : Safe minAge a b s) {c : Collector} (hnow : c.now ≤ s.clock)
    (halone : ∀ id, s.held id = false)
    (hspares : ∀ id r, s.Written id r → c.Spares minAge s.blobs id r.digest) :
    Safe minAge a b { s with collector := some c } where
  written := h.written
  buffered := h.buffered
  placed := h.placed
  known := h.known
  alone _ := halone
  reading found hfound := by
    obtain rfl := Option.some.inj hfound
    exact ⟨hnow, hspares⟩

/-- **The sweep removes** no blob that a reference names, or will name in time. -/
theorem Safe.remove (h : Safe minAge a b s) (hwindow : a + b < minAge) {c : Collector}
    (hc : s.collector = some c) {digest : String} (htodo : c.todo = some [])
    (hroots : digest ∉ c.roots) {modified : ℕ} (hget : s.blobs.get digest = some modified)
    (hold : modified + minAge ≤ c.now) :
    Safe minAge a b { s with blobs := s.blobs.erase digest } := by
  have hkept : ∀ {other : String}, (∃ age, s.blobs.get other = some age ∧ c.now < age + minAge) →
      other ≠ digest := by
    rintro _ ⟨age, hage, hyoung⟩ rfl
    obtain rfl := Option.some.inj (hget.symm.trans hage)
    omega
  have hspared : ∀ id r, s.Written id r → r.digest ≠ digest := by
    intro id r hr
    rcases (h.reading c hc).2 id r hr with hnone | ⟨todo, hsome, hmem⟩ | hroot | hyoung
    · rw [htodo] at hnone
      cases hnone
    · obtain rfl := Option.some.inj (htodo.symm.trans hsome)
      cases hmem
    · rintro rfl
      exact hroots hroot
    · exact hkept hyoung
  have herase : ∀ {other : String}, other ≠ digest →
      (s.blobs.erase digest).get other = s.blobs.get other := fun hne => by
    rw [OrdMap.get_erase, if_neg hne]
  refine ⟨fun id r hr => ?_, fun r hr => ⟨(h.buffered r hr).1, fun htime => ?_⟩, h.placed, h.known,
    h.alone, fun found hfound => ⟨(h.reading found hfound).1, fun id r hr => ?_⟩⟩
  · rw [herase (hspared id r hr)]
    exact h.written id r hr
  · rw [herase (hkept (h.young hwindow hc hr htime))]
    exact (h.buffered r hr).2 htime
  · have hspares := (h.reading found hfound).2 id r hr
    rw [Collector.Spares, herase (hspared id r hr)]
    exact hspares

/-- A publication, and a sweep long after it. -/
def sampleActions : List Action :=
  [.openSegment "s", .begin "s", .stage 0 "d", .stage 0 "e", .lose 0 "e", .lock 0, .place 0,
    .flush "s" 1, .finish 0, .tick, .tick, .tick, .lockExclusive 3, .list, .read "s", .unlock]

end BlobProtocol

end Telemetry

end Afactory
