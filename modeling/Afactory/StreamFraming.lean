import Mathlib
import Afactory.Splitting

/-!
# Framing a harness's streams

`Tap::chunk` of `review-telemetry/src/stream.rs`: the lines a process writes, taken from the chunks
an observer saw of each of its streams. A line longer than the bound is withheld and only sized, and
after a gap everything up to the next newline belongs to a line begun in the gap.

* `Framer.feed`, `Tap.chunk`: one chunk, and what it completes;
* `framed`: what the lines of a whole stream are worth;
* `Framer.holding`: the state a partial line leaves, whatever the chunks were;
* `Framer.Follows`: what is framed of a stream with losses;
* `framing_follows_stream`: it is the stream's lines, each in its place.
-/

namespace Afactory

namespace StreamFraming

open Splitting

abbrev newline : UInt8 := 10

/-- `Stream` -/
inductive Stream where
  | stdout | stderr
  deriving DecidableEq, Repr

/-- What a chunk gives rise to. -/
inductive Framed where
  /-- a complete line, without its newline -/
  | line (bytes : List UInt8)
  /-- a line over the bound: its bytes, the newline included -/
  | withheld (size : ℕ)
  /-- bytes the observer lost -/
  | gap (start stop : ℕ)
  deriving DecidableEq, Repr

/-- A gap, and not a line of the stream. -/
def Framed.isGap : Framed → Bool
  | .gap _ _ => true
  | _ => false

/-- `Framer`, but for the arrival of the last chunk. -/
structure Framer where
  /-- the offset the next chunk must start at -/
  expected : ℕ
  partialLine : List UInt8
  /-- the bytes of a line over the bound so far -/
  oversized : Option ℕ
  /-- after a gap: everything up to the first newline belongs to a line begun in the gap -/
  resync : Bool
  deriving DecidableEq, Repr

namespace Framer

/-- `Framer::default` -/
def fresh : Framer := ⟨0, [], none, false⟩

/-- The rest of a chunk that holds no newline. -/
def extend (max : ℕ) (framer : Framer) (rest : List UInt8) : Framer :=
  if framer.resync then framer
  else
    match framer.oversized with
    | some size => { framer with oversized := some (size + rest.length) }
    | none =>
      if framer.partialLine.length + rest.length > max then
        -- nothing of it is kept from here on
        { framer with
          oversized := some (framer.partialLine.length + rest.length), partialLine := [] }
      else { framer with partialLine := framer.partialLine ++ rest }

/-- A piece that a newline ends. -/
def finishLine (max : ℕ) (framer : Framer) (piece : List UInt8) : Framer × List Framed :=
  if framer.resync then ({ framer with resync := false }, [])
  else
    match framer.oversized with
    | some size => ({ framer with oversized := none }, [.withheld (size + piece.length + 1)])
    | none =>
      if framer.partialLine.length + piece.length > max then
        ({ framer with partialLine := [] },
          [.withheld (framer.partialLine.length + piece.length + 1)])
      else ({ framer with partialLine := [] }, [.line (framer.partialLine ++ piece)])

/-- The loop over a chunk. -/
def feed (max : ℕ) (framer : Framer) (rest : List UInt8) : Framer × List Framed :=
  match _ : rest.idxOf? newline with
  | none => (if rest = [] then framer else framer.extend max rest, [])
  | some at_ =>
    let ended := framer.finishLine max (rest.take at_)
    let fed := feed max ended.1 (rest.drop (at_ + 1))
    (fed.1, ended.2 ++ fed.2)
termination_by rest.length
decreasing_by grind [List.idxOf?_eq_some_iff]

/-- One chunk at its offset. -/
def chunk (max : ℕ) (framer : Framer) (offset : ℕ) (bytes : List UInt8) : Framer × List Framed :=
  let joined : Framer × List Framed :=
    if offset ≠ framer.expected then
      ({ framer with partialLine := [], oversized := none, resync := true },
        [Framed.gap framer.expected offset])
    else (framer, [])
  let fed := feed max { joined.1 with expected := offset + bytes.length } bytes
  (fed.1, joined.2 ++ fed.2)

end Framer

/-- `Tap`, as far as it frames. -/
structure Tap where
  framers : Stream → Framer
  finished : Bool

namespace Tap

/-- `Tap::new` -/
def new : Tap := ⟨fun _ => .fresh, false⟩

/-- `Tap::chunk` -/
def chunk (max : ℕ) (tap : Tap) (stream : Stream) (offset : ℕ) (bytes : List UInt8) :
    Tap × List (Stream × Framed) :=
  if tap.finished then (tap, [])
  else
    let fed := (tap.framers stream).chunk max offset bytes
    ({ tap with framers := Function.update tap.framers stream fed.1 },
      fed.2.map fun framed => (stream, framed))

end Tap

/-! ## The lines of a stream -/

/-- What the line of some bytes is worth. -/
def verdict (max : ℕ) (bytes : List UInt8) : Framed :=
  if bytes.length ≤ max then .line bytes else .withheld (bytes.length + 1)

/-- The lines a newline ends. -/
def completeLines (stream : List UInt8) : List (List UInt8) := (stream.splitOn newline).dropLast

theorem filter_verdict (max : ℕ) (lines : List (List UInt8)) :
    (lines.map (verdict max)).filter (!·.isGap) = lines.map (verdict max) := by
  rw [List.filter_eq_self]
  intro framed hmem
  obtain ⟨line, -, rfl⟩ := List.mem_map.mp hmem
  rw [verdict]
  split_ifs
  all_goals rfl

/-- What the lines of a whole stream are worth. -/
def framed (max : ℕ) (stream : List UInt8) : List Framed := (completeLines stream).map (verdict max)

/-- The parts of two streams behind one another: the last of the one goes on with the first of the
other. -/
theorem splitOn_append {a b tail part : List UInt8} {done parts : List (List UInt8)}
    (ha : a.splitOn newline = done ++ [tail]) (hb : b.splitOn newline = part :: parts) :
    (a ++ b).splitOn newline = done ++ (tail ++ part) :: parts := by
  induction a generalizing done tail with
  | nil =>
    obtain ⟨rfl, rfl⟩ : done = [] ∧ tail = [] := by
      cases done with
      | nil => simpa [eq_comm] using ha
      | cons first done => simp at ha
    exact hb
  | cons c a ih =>
    by_cases hc : c = newline
    · subst hc
      rw [splitOn_cons_self] at ha
      rw [List.cons_append, splitOn_cons_self]
      cases done with
      | nil => exact absurd (List.cons.inj ha).2 (List.splitOn_ne_nil _ a)
      | cons first done =>
        obtain ⟨hfirst, hrest⟩ := List.cons.inj ha
        rw [ih hrest, ← hfirst]
        rfl
    · obtain ⟨first, rest, hfirst⟩ := exists_splitOn_eq_cons newline a
      rw [splitOn_cons_of_ne hc, hfirst, List.modifyHead_cons] at ha
      rw [List.cons_append, splitOn_cons_of_ne hc]
      cases done with
      | nil =>
        obtain ⟨rfl, rfl⟩ := List.cons.inj ha
        have hone : a.splitOn newline = [] ++ [first] := hfirst
        rw [ih hone]
        rfl
      | cons first' done =>
        obtain ⟨rfl, rfl⟩ := List.cons.inj ha
        have hmany : a.splitOn newline = (first :: done) ++ [tail] := hfirst
        rw [ih hmany]
        rfl

theorem exists_tail (stream : List UInt8) :
    ∃ done tail, stream.splitOn newline = done ++ [tail] ∧ completeLines stream = done :=
  ⟨_, _, (List.dropLast_append_getLast (List.splitOn_ne_nil newline stream)).symm, rfl⟩

/-- A newline ends the line before it, whatever follows. -/
theorem splitOn_newline (a b : List UInt8) :
    (a ++ newline :: b).splitOn newline = a.splitOn newline ++ b.splitOn newline := by
  obtain ⟨done, tail, ha, -⟩ := exists_tail a
  have hb : (newline :: b).splitOn newline = [] :: b.splitOn newline := splitOn_cons_self b
  rw [splitOn_append ha hb, ha, List.append_nil, List.append_assoc, List.singleton_append]

/-- More of a stream has the lines there were, and more. -/
theorem completeLines_append (a b : List UInt8) : completeLines a <+: completeLines (a ++ b) := by
  obtain ⟨done, tail, ha, hdone⟩ := exists_tail a
  obtain ⟨part, parts, hb⟩ := exists_splitOn_eq_cons newline b
  rw [hdone, completeLines, splitOn_append ha hb, List.dropLast_append_of_ne_nil (by simp)]
  exact List.prefix_append _ _

/-! ## What a framer holds -/

namespace Framer

/-- The framer that holds the partial line `tail`. -/
def holding (max expected : ℕ) (tail : List UInt8) : Framer :=
  if tail.length ≤ max then ⟨expected, tail, none, false⟩
  else ⟨expected, [], some tail.length, false⟩

theorem extend_holding (max expected : ℕ) (tail rest : List UInt8) :
    (holding max expected tail).extend max rest = holding max expected (tail ++ rest) := by
  by_cases htail : tail.length ≤ max
  · by_cases hlong : tail.length + rest.length ≤ max
    · simp [holding, extend, htail, hlong, Nat.not_lt.mpr hlong]
    · simp [holding, extend, htail, hlong, Nat.lt_of_not_le hlong]
  · have hlong : ¬ tail.length + rest.length ≤ max := by omega
    simp [holding, extend, htail, hlong]

theorem finishLine_holding (max expected : ℕ) (tail piece : List UInt8) :
    (holding max expected tail).finishLine max piece =
      (holding max expected [], [verdict max (tail ++ piece)]) := by
  by_cases htail : tail.length ≤ max
  · by_cases hlong : tail.length + piece.length ≤ max
    · simp [holding, finishLine, verdict, htail, hlong, Nat.not_lt.mpr hlong]
    · simp [holding, finishLine, verdict, htail, hlong, Nat.lt_of_not_le hlong]
  · have hlong : ¬ tail.length + piece.length ≤ max := by omega
    simp [holding, finishLine, verdict, htail, hlong]

/-- A chunk is cut at its first newline. -/
theorem cut_at {rest : List UInt8} {at_ : ℕ} (h : rest.idxOf? newline = some at_) :
    rest = rest.take at_ ++ newline :: rest.drop (at_ + 1) ∧ newline ∉ rest.take at_ := by
  obtain ⟨hlt, hget, hbefore⟩ := List.idxOf?_eq_some_iff.mp h
  constructor
  · rw [← hget, ← List.drop_eq_getElem_cons hlt, List.take_append_drop]
  · intro hmem
    obtain ⟨j, hj, hjget⟩ := List.mem_iff_getElem.mp hmem
    rw [List.length_take] at hj
    rw [List.getElem_take] at hjget
    exact hbefore j (by omega) hjget

/-- **What a chunk completes** on top of a partial line, and the partial line it leaves. -/
theorem feed_holding {max expected : ℕ} {tail rest part last : List UInt8}
    {parts done : List (List UInt8)} (hrest : rest.splitOn newline = part :: parts)
    (hparts : (tail ++ part) :: parts = done ++ [last]) :
    (holding max expected tail).feed max rest =
      (holding max expected last, done.map (verdict max)) := by
  induction hlength : rest.length using Nat.strong_induction_on
    generalizing rest tail part parts done with
  | h n ih =>
    rw [feed]
    split
    · next hnone =>
      -- no newline: the chunk is one part
      have hmem := List.idxOf?_eq_none_iff.mp hnone
      have hone := splitOn_append_of_notMem hmem (List.splitOn_nil newline)
      simp only [List.append_nil] at hone
      rw [hrest] at hone
      obtain ⟨rfl, rfl⟩ := List.cons.inj hone
      obtain ⟨rfl, rfl⟩ : done = [] ∧ tail ++ part = last := by
        cases done with
        | nil => simpa using hparts
        | cons first done => simp at hparts
      by_cases hempty : part = []
      · simp [hempty]
      · simp [hempty, extend_holding]
    · next at_ hsome =>
      obtain ⟨hcut, hmem⟩ := cut_at hsome
      obtain ⟨next, more, hmore⟩ := exists_splitOn_eq_cons newline (rest.drop (at_ + 1))
      have hsplit := splitOn_append_of_notMem hmem (l := newline :: rest.drop (at_ + 1))
        (splitOn_cons_self _)
      rw [← hcut, hrest, List.append_nil, hmore] at hsplit
      obtain ⟨rfl, rfl⟩ := List.cons.inj hsplit
      have hlt : (rest.drop (at_ + 1)).length < n := by
        have hbound := (List.idxOf?_eq_some_iff.mp hsome).1
        rw [List.length_drop]
        omega
      cases done with
      | nil => simp at hparts
      | cons first done =>
        obtain ⟨rfl, hparts⟩ := List.cons.inj hparts
        have hbehind : ([] ++ next) :: more = done ++ [last] := (List.cons.inj hparts).2
        simp only [finishLine_holding, ih _ hlt hmore hbehind rfl, List.map_cons,
          List.singleton_append]

/-- After a gap, a chunk completes nothing until its first newline, which ends a line begun in the
gap. -/
theorem feed_resync (max : ℕ) {framer : Framer} (h : framer.resync = true) (rest : List UInt8) :
    framer.feed max rest = (framer, []) ∨
      ∃ piece more, rest = piece ++ newline :: more ∧
        framer.feed max rest = { framer with resync := false }.feed max more := by
  rw [feed]
  split
  · left
    simp [extend, h]
  · next at_ hsome =>
    right
    refine ⟨_, _, (cut_at hsome).1, ?_⟩
    simp [finishLine, h]

/-! ## One chunk of a stream -/

/-- The framer that waits for a newline after a gap. -/
def resyncing (expected : ℕ) : Framer := ⟨expected, [], none, true⟩

theorem holding_expected (max expected : ℕ) (tail : List UInt8) :
    (holding max expected tail).expected = expected := by
  rw [holding]
  split_ifs
  all_goals rfl

theorem holding_moved (max expected next : ℕ) (tail : List UInt8) :
    { holding max expected tail with expected := next } = holding max next tail := by
  rw [holding, holding]
  split_ifs
  all_goals rfl

/-- A chunk at the place it is expected goes on with the stream. -/
theorem chunk_next (max : ℕ) {seen tail : List UInt8} {done : List (List UInt8)}
    (h : seen.splitOn newline = done ++ [tail]) (bytes : List UInt8) :
    ∃ more last, (seen ++ bytes).splitOn newline = done ++ more ++ [last] ∧
      (holding max seen.length tail).chunk max seen.length bytes =
        (holding max (seen ++ bytes).length last, more.map (verdict max)) := by
  obtain ⟨part, parts, hbytes⟩ := exists_splitOn_eq_cons newline bytes
  obtain ⟨more, last, hparts⟩ : ∃ more last, (tail ++ part) :: parts = more ++ [last] :=
    ⟨_, _, (List.dropLast_append_getLast (List.cons_ne_nil _ _)).symm⟩
  refine ⟨more, last, ?_, ?_⟩
  · rw [splitOn_append h hbytes, hparts, List.append_assoc]
  · simp only [chunk, holding_expected, ne_eq, not_true_eq_false, if_false, holding_moved,
      feed_holding hbytes hparts, List.nil_append, List.length_append]

/-- What a chunk after a gap completes is behind everything before the gap. -/
theorem feed_resyncing (max : ℕ) (before bytes : List UInt8) (expected : ℕ) :
    (resyncing expected).feed max bytes = (resyncing expected, []) ∨
      ∃ skipped done last, (before ++ bytes).splitOn newline = skipped ++ done ++ [last] ∧
        completeLines before <+: skipped ∧
        (resyncing expected).feed max bytes = (holding max expected last, done.map (verdict max)) := by
  rcases feed_resync max (rfl : (resyncing expected).resync = true) bytes with
    hnone | ⟨piece, more, rfl, hfed⟩
  · exact .inl hnone
  · right
    obtain ⟨done, last, hmore, -⟩ := exists_tail more
    obtain ⟨part, parts, hparts⟩ := exists_splitOn_eq_cons newline more
    refine ⟨(before ++ piece).splitOn newline, done, last, ?_, ?_, ?_⟩
    · rw [← List.append_assoc, splitOn_newline, hmore, List.append_assoc]
    · exact (completeLines_append before piece).trans (List.dropLast_prefix _)
    · have hstart : { resyncing expected with resync := false } = holding max expected [] := by
        simp [resyncing, holding]
      rw [hfed, hstart]
      exact feed_holding hparts (by rw [List.nil_append, ← hparts, hmore])

/-! ## A stream with losses -/

/-- What is framed of a stream `seen` up to here: all of it when the stream is `whole`; otherwise some
of its lines in their places, and gaps between them. -/
structure Follows (max : ℕ) (whole : Prop) (framer : Framer) (seen : List UInt8)
    (out : List Framed) : Prop where
  place : (framer = resyncing seen.length ∧ ¬ whole) ∨
    ∃ done tail, seen.splitOn newline = done ++ [tail] ∧ framer = holding max seen.length tail
  sublist : (out.filter (!·.isGap)).Sublist (framed max seen)
  exact : whole → out = framed max seen

namespace Follows

variable {max : ℕ} {whole : Prop} {framer : Framer} {seen : List UInt8} {out : List Framed}

theorem fresh (max : ℕ) (whole : Prop) : Follows max whole .fresh [] [] where
  place := .inr ⟨[], [], by simp, by simp [Framer.fresh, holding]⟩
  sublist := List.nil_sublist _
  exact _ := by simp [framed, completeLines]

theorem expected (h : Follows max whole framer seen out) : framer.expected = seen.length := by
  rcases h.place with ⟨rfl, -⟩ | ⟨done, tail, -, rfl⟩
  · rfl
  · exact holding_expected max seen.length tail

/-- A chunk that is read for the end of a line begun in a gap. -/
theorem resync {before : List UInt8}
    (hout : (out.filter (!·.isGap)).Sublist (framed max before)) (hlost : ¬ whole)
    (bytes : List UInt8) :
    Follows max whole ((resyncing (before ++ bytes).length).feed max bytes).1 (before ++ bytes)
      (out ++ ((resyncing (before ++ bytes).length).feed max bytes).2) := by
  have hbefore : (out.filter (!·.isGap)).Sublist (framed max (before ++ bytes)) :=
    hout.trans ((completeLines_append before bytes).map _).sublist
  rcases feed_resyncing max before bytes (before ++ bytes).length with
    hnone | ⟨skipped, done, last, hsplit, hskipped, hfed⟩
  · rw [hnone]
    exact ⟨.inl ⟨rfl, hlost⟩, by simpa using hbefore, fun h => absurd h hlost⟩
  · rw [hfed]
    refine ⟨.inr ⟨_, last, hsplit, rfl⟩, ?_, fun h => absurd h hlost⟩
    rw [List.filter_append, filter_verdict, framed, completeLines, hsplit, List.dropLast_concat, List.map_append]
    exact (hout.trans (hskipped.map _).sublist).append (List.Sublist.refl _)

/-- **One chunk**, behind the bytes that were lost since the last one. -/
theorem chunk (h : Follows max whole framer seen out) (lost bytes : List UInt8)
    (hlost : whole → lost = []) :
    Follows max whole (framer.chunk max (seen ++ lost).length bytes).1 (seen ++ lost ++ bytes)
      (out ++ (framer.chunk max (seen ++ lost).length bytes).2) := by
  by_cases hempty : lost = []
  · subst hempty
    rw [List.append_nil]
    rcases h.place with ⟨rfl, hwhole⟩ | ⟨done, tail, hseen, rfl⟩
    · have hchunk : (resyncing seen.length).chunk max seen.length bytes =
          (resyncing (seen ++ bytes).length).feed max bytes := by
        simp [Framer.chunk, resyncing]
      rw [hchunk]
      exact resync h.sublist hwhole bytes
    · obtain ⟨more, last, hsplit, hchunk⟩ := chunk_next max hseen bytes
      have hframed : framed max (seen ++ bytes) = framed max seen ++ more.map (verdict max) := by
        simp only [framed, completeLines, hsplit, hseen, List.dropLast_concat, List.map_append]
      rw [hchunk]
      refine ⟨.inr ⟨_, last, hsplit, rfl⟩, ?_, fun hwhole => ?_⟩
      · rw [List.filter_append, filter_verdict, hframed]
        exact h.sublist.append (List.Sublist.refl _)
      · rw [hframed, h.exact hwhole]
  · have hgap : (seen ++ lost).length ≠ framer.expected := by
      have hpos : 0 < lost.length := List.length_pos_iff.mpr hempty
      rw [h.expected, List.length_append]
      omega
    have hchunk : framer.chunk max (seen ++ lost).length bytes =
        (((resyncing (seen ++ lost ++ bytes).length).feed max bytes).1,
          .gap framer.expected (seen ++ lost).length ::
            ((resyncing (seen ++ lost ++ bytes).length).feed max bytes).2) := by
      have hlength : (seen ++ lost ++ bytes).length = (seen ++ lost).length + bytes.length :=
        List.length_append
      rw [Framer.chunk, if_pos hgap, hlength]
      rfl
    have hout : ((out ++ [Framed.gap framer.expected (seen ++ lost).length]).filter (!·.isGap)).Sublist
        (framed max (seen ++ lost)) := by
      rw [List.filter_append, List.filter_cons_of_neg (by simp [Framed.isGap]), List.filter_nil,
        List.append_nil]
      exact h.sublist.trans ((completeLines_append seen lost).map _).sublist
    rw [hchunk, List.append_cons]
    exact resync hout (fun hwhole => hempty (hlost hwhole)) bytes

end Follows

end Framer

/-! ## The run of a tap -/

/-- A chunk of a stream, and whether the observer got it. -/
structure Arrival where
  stream : Stream
  bytes : List UInt8
  kept : Bool

/-- What a stream wrote. -/
def written (arrivals : List Arrival) (stream : Stream) : List UInt8 :=
  (arrivals.filter (·.stream = stream)).flatMap (·.bytes)

namespace Tap

/-- One arrival, at its place in its stream. -/
def arrive (max : ℕ) (tap : Tap) (position : ℕ) (arrival : Arrival) :
    Tap × List (Stream × Framed) :=
  if arrival.kept then tap.chunk max arrival.stream position arrival.bytes else (tap, [])

/-- A tap over what arrives. -/
def observe (max : ℕ) : Tap → (Stream → ℕ) → List Arrival → List (Stream × Framed)
  | _, _, [] => []
  | tap, position, arrival :: rest =>
    let arrived := tap.arrive max (position arrival.stream) arrival
    let stop := position arrival.stream + arrival.bytes.length
    arrived.2 ++ observe max arrived.1 (Function.update position arrival.stream stop) rest

end Tap

/-- What a tap made of one stream. -/
def framesOf (stream : Stream) (out : List (Stream × Framed)) : List Framed :=
  (out.filter (·.1 = stream)).map Prod.snd

theorem framesOf_append (stream : Stream) (a b : List (Stream × Framed)) :
    framesOf stream (a ++ b) = framesOf stream a ++ framesOf stream b := by
  simp [framesOf]

theorem framesOf_fed (stream other : Stream) (out : List Framed) :
    framesOf stream (out.map fun framed => (other, framed)) =
      if other = stream then out else [] := by
  split_ifs with h
  · simp [framesOf, h, List.filter_map, Function.comp_def]
  · simp [framesOf, h, List.filter_map, Function.comp_def]

theorem written_cons (arrival : Arrival) (rest : List Arrival) (stream : Stream) :
    written (arrival :: rest) stream =
      (if arrival.stream = stream then arrival.bytes else []) ++ written rest stream := by
  by_cases h : arrival.stream = stream
  · simp [written, h]
  · simp [written, h]

namespace Tap

/-- A tap that follows a stream, some of whose last bytes it may not have got. -/
structure Follows (max : ℕ) (whole : Prop) (tap : Tap) (stream : Stream) (seen : List UInt8)
    (out : List Framed) : Prop where
  running : tap.finished = false
  followed : ∃ got lost, seen = got ++ lost ∧ (whole → lost = []) ∧
    Framer.Follows max whole (tap.framers stream) got out

namespace Follows

variable {max : ℕ} {whole : Prop} {tap : Tap} {stream : Stream} {seen : List UInt8}
  {out : List Framed}

theorem new (max : ℕ) (whole : Prop) (stream : Stream) : Follows max whole .new stream [] [] where
  running := rfl
  followed := ⟨[], [], rfl, fun _ => rfl, .fresh max whole⟩

/-- **One arrival**: of the stream, or of the other one. -/
theorem arrive (h : Follows max whole tap stream seen out) (position : ℕ) (arrival : Arrival)
    (hposition : arrival.stream = stream → position = seen.length)
    (hkept : whole → arrival.stream = stream → arrival.kept = true) :
    Follows max whole (tap.arrive max position arrival).1 stream
      (seen ++ if arrival.stream = stream then arrival.bytes else [])
      (out ++ framesOf stream (tap.arrive max position arrival).2) := by
  obtain ⟨got, lost, rfl, hlost, hfollows⟩ := h.followed
  by_cases harrived : arrival.kept = true
  · rw [Tap.arrive, if_pos harrived, Tap.chunk, if_neg (by simp [h.running])]
    dsimp only
    rw [framesOf_fed]
    refine ⟨h.running, ?_⟩
    split_ifs with hstream
    · subst hstream
      rw [hposition rfl]
      refine ⟨got ++ lost ++ arrival.bytes, [], by simp, fun _ => rfl, ?_⟩
      simpa using hfollows.chunk lost arrival.bytes hlost
    · refine ⟨got, lost, by simp, hlost, ?_⟩
      simpa [Function.update_of_ne (Ne.symm hstream)] using hfollows
  · rw [Tap.arrive, if_neg harrived]
    refine ⟨h.running, got, lost ++ _, List.append_assoc _ _ _, fun hwhole => ?_, ?_⟩
    · have hother : arrival.stream ≠ stream := fun hs => harrived (hkept hwhole hs)
      simp [hlost hwhole, hother]
    · simpa [framesOf] using hfollows

/-- **A run of arrivals.** -/
theorem observe (arrivals : List Arrival) (position : Stream → ℕ)
    (h : Follows max whole tap stream seen out) (hposition : position stream = seen.length)
    (hkept : whole → ∀ arrival ∈ arrivals, arrival.stream = stream → arrival.kept = true) :
    ∃ tap', Follows max whole tap' stream (seen ++ written arrivals stream)
      (out ++ framesOf stream (tap.observe max position arrivals)) := by
  induction arrivals generalizing tap position seen out with
  | nil => exact ⟨tap, by simpa [written, Tap.observe, framesOf] using h⟩
  | cons arrival rest ih =>
    have harrived := h.arrive (position arrival.stream) arrival (fun hs => by rw [hs, hposition])
      (fun hwhole => hkept hwhole arrival (List.mem_cons_self ..))
    have hstop : Function.update position arrival.stream
        (position arrival.stream + arrival.bytes.length) stream =
          (seen ++ if arrival.stream = stream then arrival.bytes else []).length := by
      by_cases hs : arrival.stream = stream
      · simp [hs, hposition]
      · simp [hs, Function.update_of_ne (Ne.symm hs), hposition]
    obtain ⟨tap', hrest⟩ := ih _ harrived hstop
      (fun hwhole a ha => hkept hwhole a (List.mem_cons_of_mem _ ha))
    refine ⟨tap', ?_⟩
    rw [Tap.observe, framesOf_append, written_cons, ← List.append_assoc, ← List.append_assoc]
    exact hrest

end Follows

end Tap

/-! ## Framing follows the stream -/

/-- The lines among what was framed. -/
def linesOf (out : List Framed) : List (List UInt8) :=
  out.filterMap fun
    | .line bytes => some bytes
    | _ => none

theorem linesOf_framed (max : ℕ) (stream : List UInt8) :
    linesOf (framed max stream) = (completeLines stream).filter (·.length ≤ max) := by
  rw [linesOf, framed, List.filterMap_map, ← List.filterMap_eq_filter]
  congr 1
  funext line
  by_cases h : line.length ≤ max
  · simp [verdict, h, Option.guard]
  · simp [verdict, h, Option.guard]

theorem linesOf_filter (out : List Framed) : linesOf (out.filter (!·.isGap)) = linesOf out := by
  rw [linesOf, List.filterMap_filter]
  congr 1
  funext framed
  cases framed with
  | line bytes => rfl
  | withheld size => rfl
  | gap start stop => rfl

/-- **Framing does not see the chunks, and invents no line.** However the streams of a process are
cut into chunks, interleaved and lost, a tap frames of each one, in order and each at most once,
some of the lines that splitting it at its newlines gives: those within the bound whole, and the
others by their size; and all of them when no chunk of that stream is lost, and then no gap. -/
theorem framing_follows_stream (max : ℕ) (arrivals : List Arrival) (stream : Stream) :
    let out := framesOf stream (Tap.new.observe max (fun _ => 0) arrivals)
    let whole := written arrivals stream
    ((∀ arrival ∈ arrivals, arrival.stream = stream → arrival.kept = true) →
      out = framed max whole) ∧
    (out.filter (!·.isGap)).Sublist (framed max whole) ∧
    (linesOf out).Sublist ((completeLines whole).filter (·.length ≤ max)) := by
  intro out whole
  obtain ⟨tap, hrun⟩ := Tap.Follows.new max
    (∀ arrival ∈ arrivals, arrival.stream = stream → arrival.kept = true) stream
    |>.observe arrivals (fun _ => 0) rfl id
  obtain ⟨got, lost, hseen, hlost, hfollows⟩ := hrun.followed
  rw [List.nil_append] at hseen
  have hsublist : (out.filter (!·.isGap)).Sublist (framed max whole) := by
    have hprefix := (completeLines_append got lost).map (verdict max)
    rw [← hseen] at hprefix
    exact hfollows.sublist.trans hprefix.sublist
  refine ⟨fun hkept => ?_, hsublist, ?_⟩
  · have hgot := hfollows.exact hkept
    rw [hlost hkept, List.append_nil] at hseen
    rw [← hseen] at hgot
    exact hgot
  · rw [← linesOf_framed, ← linesOf_filter]
    exact hsublist.filterMap _

end StreamFraming

end Afactory
