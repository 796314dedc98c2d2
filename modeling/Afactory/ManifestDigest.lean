import Mathlib
import Afactory.Fencing
import Afactory.Framing
import Afactory.SourceManifest

/-!
# The digest of a manifest

`ManifestDigest` of `review-source-git/src/manifest.rs`: what a hasher is fed of a manifest, at once
or entry by entry.

* `Manifest.framed`: the bytes a manifest is digested as;
* `frame_delimits`, `framed_inj`: they are read back entry by entry;
* `content_digest_framing`: no two manifests have one digest unless the hash confuses their bytes.
-/

namespace Afactory

open Framing

/-! ## Feeding the hasher -/

/-- The git mode of a kind. -/
def EntryKind.mode : EntryKind → String
  | .file => "100644"
  | .executable => "100755"
  | .symlink => "120000"

theorem EntryKind.mode_injective : Function.Injective EntryKind.mode := by
  intro a b h
  cases a <;> cases b <;> first | rfl | exact absurd h (by decide)

/-- `ManifestDigest`: the hasher, as the bytes it was fed. -/
structure ManifestDigest where
  hasher : List UInt8
  deriving DecidableEq, Repr

namespace ManifestDigest

def new (entries : ℕ) : ManifestDigest :=
  ⟨pathBytes "review.kernel/source-manifest/v1\x00" ++ beBytes entries⟩

/-- A field behind its length. -/
def field (fed bytes : List UInt8) : List UInt8 := fed ++ beBytes bytes.length ++ bytes

/-- The next entry. -/
def entry (D : ManifestDigest) (path : String) (kind : EntryKind) (content : String) (size : ℕ) :
    ManifestDigest :=
  ⟨[pathBytes path, pathBytes kind.mode, pathBytes content].foldl field D.hasher ++ beBytes size⟩

def finish (sha256 : List UInt8 → List UInt8) (D : ManifestDigest) : String :=
  "sha256:" ++ String.ofList (hexEncode (sha256 D.hasher))

/-- One entry of a list handed over. -/
def feed (D : ManifestDigest) (e : Entry) : ManifestDigest := D.entry e.path e.kind e.content e.size

end ManifestDigest

namespace Manifest

variable (M : Manifest)

/-- The hasher `content_digest` finishes. -/
def digested : ManifestDigest := M.entries.foldl ManifestDigest.feed (.new M.entries.length)

/-- `content_digest`. -/
def contentDigest (sha256 : List UInt8 → List UInt8) : String := M.digested.finish sha256

end Manifest

/-! ## The bytes of a manifest -/

/-- What an entry holds, as it is written. -/
def Entry.parts (e : Entry) : List UInt8 × List UInt8 × List UInt8 × ℕ :=
  (pathBytes e.path, pathBytes e.kind.mode, pathBytes e.content, e.size)

/-- Three fields behind their lengths, and a number. -/
def frame (p : List UInt8 × List UInt8 × List UInt8 × ℕ) : List UInt8 :=
  (beBytes p.1.length ++ p.1) ++ ((beBytes p.2.1.length ++ p.2.1) ++
    ((beBytes p.2.2.1.length ++ p.2.2.1) ++ beBytes p.2.2.2))

/-- The bytes a manifest is digested as. -/
def Manifest.framed (M : Manifest) : List UInt8 :=
  pathBytes "review.kernel/source-manifest/v1\x00" ++
    (beBytes M.entries.length ++ M.entries.flatMap fun e => frame e.parts)

/-- Lengths and sizes are `u64` values. -/
def Entry.Fits (e : Entry) : Prop :=
  (pathBytes e.path).length < u64Bound ∧ (pathBytes e.content).length < u64Bound ∧
    e.size < u64Bound

/-- A manifest a machine can hold: what is counted is counted by a `u64`. -/
def Manifest.Fits (M : Manifest) : Prop :=
  M.entries.length < u64Bound ∧ ∀ e ∈ M.entries, e.Fits

theorem ManifestDigest.feed_hasher (D : ManifestDigest) (e : Entry) :
    (D.feed e).hasher = D.hasher ++ frame e.parts := by
  simp [feed, entry, field, frame, Entry.parts]

theorem ManifestDigest.foldl_feed (D : ManifestDigest) (entries : List Entry) :
    (entries.foldl feed D).hasher = D.hasher ++ entries.flatMap fun e => frame e.parts := by
  induction entries generalizing D with
  | nil => simp
  | cons e entries ih => rw [List.foldl_cons, ih, feed_hasher, List.flatMap_cons, List.append_assoc]

theorem Manifest.digested_hasher (M : Manifest) : M.digested.hasher = M.framed := by
  rw [digested, ManifestDigest.foldl_feed, ManifestDigest.new, List.append_assoc]
  rfl

/-! ## Reading them back -/

theorem beBytes_delimits : Delimits (· < u64Bound) beBytes :=
  .fixed length_beBytes fun _ hm _ hn => beBytes_inj hm hn

theorem frame_delimits : Delimits (fun p : List UInt8 × List UInt8 × List UInt8 × ℕ =>
    p.1.length < u64Bound ∧ p.2.1.length < u64Bound ∧ p.2.2.1.length < u64Bound ∧
      p.2.2.2 < u64Bound) frame :=
  beBytes_delimits.framed.pair (beBytes_delimits.framed.pair (beBytes_delimits.framed.pair
    beBytes_delimits))

theorem Entry.parts_injective : Function.Injective Entry.parts := by
  rintro ⟨path, kind, content, size⟩ ⟨path', kind', content', size'⟩ h
  simp only [parts, Prod.mk.injEq] at h
  obtain ⟨hpath, hkind, hcontent, rfl⟩ := h
  obtain rfl := pathBytes_inj hpath
  obtain rfl := pathBytes_inj hcontent
  obtain rfl := EntryKind.mode_injective (pathBytes_inj hkind)
  rfl

theorem EntryKind.length_mode (kind : EntryKind) : (pathBytes kind.mode).length = 6 := by
  cases kind <;> decide

/-- **Entries are read back**, each from its own frame. -/
theorem entry_delimits : Delimits Entry.Fits fun e => frame e.parts := by
  refine frame_delimits.comap (fun e he => ⟨he.1, ?_, he.2⟩) Entry.parts_injective
  change (pathBytes e.kind.mode).length < u64Bound
  rw [EntryKind.length_mode]
  decide

/-- **A manifest is read back** from the bytes it is digested as. -/
theorem Manifest.framed_inj {M N : Manifest} (hM : M.Fits) (hN : N.Fits)
    (h : M.framed = N.framed) : M = N := by
  have hbytes := List.append_cancel_left h
  have hentries := (entry_delimits.counted beBytes_delimits).inj hM hN hbytes
  exact congrArg Manifest.mk hentries

/-! ## The digest -/

theorem hexDigit_inj : ∀ m < 16, ∀ n < 16, hexDigit m = hexDigit n → m = n := by decide

theorem hexEncode_inj {a b : List UInt8} (h : hexEncode a = hexEncode b) : a = b := by
  have hcode : Delimits (fun _ : UInt8 => True) fun b : UInt8 =>
      [hexDigit (b.toNat / 16), hexDigit (b.toNat % 16)] := by
    have hwidth : ∀ b : UInt8, [hexDigit (b.toNat / 16), hexDigit (b.toNat % 16)].length = 2 :=
      fun _ => rfl
    refine .fixed hwidth fun a _ b _ hab => ?_
    simp only [List.cons.injEq, and_true] at hab
    have ha := a.toNat_lt
    have hb := b.toNat_lt
    have hhigh := hexDigit_inj _ (by omega) _ (by omega) hab.1
    have hlow := hexDigit_inj _ (by omega) _ (by omega) hab.2
    exact UInt8.toNat_inj.mp (by omega)
  have hlength : a.length = b.length := by
    have htotal := congrArg List.length h
    simp only [hexEncode, List.length_flatMap, List.length_cons, List.length_nil,
      List.map_const', List.sum_replicate, smul_eq_mul] at htotal
    omega
  exact (hcode.each (fun _ _ => trivial) (fun _ _ => trivial) hlength [] [] (by
    rw [List.append_nil, List.append_nil]
    exact h)).1

theorem ManifestDigest.finish_inj {sha256 : List UInt8 → List UInt8} {D D' : ManifestDigest}
    (h : D.finish sha256 = D'.finish sha256) : sha256 D.hasher = sha256 D'.hasher := by
  have hchars := congrArg String.toList h
  simp only [finish, String.toList_append, String.toList_ofList,
    List.append_cancel_left_eq] at hchars
  exact hexEncode_inj hchars

/-- **Snapshot identity has no collisions of framing**: two manifests feed the hasher one byte
string only if they are equal, feeding the entries one at a time feeds that string, and where the
hash does not confuse the two strings equal digests mean equal manifests. -/
theorem content_digest_framing :
    (∀ M N : Manifest, M.Fits → N.Fits → M.digested.hasher = N.digested.hasher → M = N) ∧
    (∀ M : Manifest,
      (M.entries.foldl (fun D e => D.entry e.path e.kind e.content e.size)
        (ManifestDigest.new M.entries.length)).hasher = M.framed ∧ M.digested.hasher = M.framed) ∧
    ∀ (sha256 : List UInt8 → List UInt8) (M N : Manifest), M.Fits → N.Fits →
      (sha256 M.framed = sha256 N.framed → M.framed = N.framed) →
      M.contentDigest sha256 = N.contentDigest sha256 → M = N := by
  refine ⟨fun M N hM hN h => ?_, fun M => ⟨M.digested_hasher, M.digested_hasher⟩,
    fun sha256 M N hM hN hhash h => ?_⟩
  · rw [M.digested_hasher, N.digested_hasher] at h
    exact Manifest.framed_inj hM hN h
  · have hsame := ManifestDigest.finish_inj h
    rw [M.digested_hasher, N.digested_hasher] at hsame
    exact Manifest.framed_inj hM hN (hhash hsame)

/-- Two files in one order and the other: neither bytes nor digests agree. -/
theorem content_digest_framing_swapped :
    let a : Entry := ⟨"a", .file, "ab", 1⟩
    let b : Entry := ⟨"b", .symlink, "c", 2⟩
    Manifest.digested ⟨[a, b]⟩ ≠ Manifest.digested ⟨[b, a]⟩ ∧
      Manifest.contentDigest ⟨[a, b]⟩ id ≠ Manifest.contentDigest ⟨[b, a]⟩ id := by
  intro a b
  have hfits : Manifest.Fits ⟨[a, b]⟩ ∧ Manifest.Fits ⟨[b, a]⟩ := by
    simp only [Manifest.Fits, Entry.Fits]
    decide
  have hne : (⟨[a, b]⟩ : Manifest) ≠ ⟨[b, a]⟩ := by decide
  refine ⟨fun h => hne ?_, fun h => hne ?_⟩
  · exact content_digest_framing.1 _ _ hfits.1 hfits.2 (congrArg ManifestDigest.hasher h)
  · exact content_digest_framing.2.2 id _ _ hfits.1 hfits.2 (fun h => h) h

end Afactory
