import StepMotion.Register

/-! Steps of every axis, as a position or as a distance. The axis with the most steps defines the
speed of a straight motion. -/
namespace StepMotion

abbrev Steps := Register Int

namespace Steps

def zero : Steps := .fill 0

def add (s t : Steps) : Steps := s.zipWith (· + ·) t

def sub (s t : Steps) : Steps := s.zipWith (· - ·) t

def isZero (s : Steps) : Bool := Axis.all.all fun axis => s axis = 0

/-- The axis with the most steps, the first of several in register order. -/
def definingAxis (s : Steps) : Axis :=
  Axis.all.foldl (fun most axis => if (s most).natAbs < (s axis).natAbs then axis else most) .x

def count (s : Steps) : Nat := (s s.definingAxis).natAbs

def moving (s : Steps) : List Axis := Axis.all.filter fun axis => s axis ≠ 0

@[simp] theorem get_zero (axis : Axis) : zero axis = 0 := by simp [zero]

@[simp] theorem get_add (s t : Steps) (axis : Axis) : (s.add t) axis = s axis + t axis := by
  simp [add, Register.zipWith]

@[simp] theorem get_sub (s t : Steps) (axis : Axis) : (s.sub t) axis = s axis - t axis := by
  simp [sub, Register.zipWith]

theorem isZero_iff (s : Steps) : s.isZero = true ↔ s = zero := by
  simp only [isZero, List.all_eq_true, decide_eq_true_eq]
  exact ⟨fun h => Register.ext fun axis => by simp [h axis], fun h axis _ => by simp [h]⟩

end Steps
end StepMotion
