/-!
# Placements

A counter that can move lives at one of two places: hosted by a registry, where many threads may
update it, or in place, inside its owner.
-/

namespace Abacus

/-- Where a movable counter lives. -/
inductive Placement
  | hosted
  | inPlace
  deriving DecidableEq

namespace Placement

/-- The placement that a flag asks for. -/
def ofHosted (hosted : Bool) : Placement := if hosted then .hosted else .inPlace

/-- Whether the counter lives in a registry. -/
def isHosted : Placement → Bool
  | hosted => true
  | inPlace => false

/-- The other placement. -/
def flip : Placement → Placement
  | hosted => .inPlace
  | inPlace => .hosted

/-- The name shown for a placement. -/
def name : Placement → String
  | hosted => "Parallel"
  | inPlace => "Sequential"

@[simp]
theorem isHosted_ofHosted (b : Bool) : (ofHosted b).isHosted = b := by cases b <;> rfl

@[simp]
theorem ofHosted_isHosted (p : Placement) : ofHosted p.isHosted = p := by cases p <;> rfl

@[simp]
theorem flip_flip (p : Placement) : p.flip.flip = p := by cases p <;> rfl

@[simp]
theorem isHosted_flip (p : Placement) : p.flip.isHosted = !p.isHosted := by cases p <;> rfl

end Placement

end Abacus
