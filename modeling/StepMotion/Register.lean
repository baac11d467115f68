import StepMotion.Axis

/-! A register holds one value for each axis. It is read as a function of the axis; `get_ofFn`
and `ext` say that a register is nothing more than that function. -/
namespace StepMotion

structure Register (α : Type) where
  x : α
  y : α
  z : α
  e : α
  a : α
  b : α
  c : α
  u : α
  v : α
  w : α
  deriving DecidableEq, Repr

namespace Register

variable {α β γ : Type}

def get (r : Register α) : Axis → α
  | .x => r.x | .y => r.y | .z => r.z | .e => r.e | .a => r.a
  | .b => r.b | .c => r.c | .u => r.u | .v => r.v | .w => r.w

instance : CoeFun (Register α) fun _ => Axis → α := ⟨get⟩

def ofFn (f : Axis → α) : Register α :=
  ⟨f .x, f .y, f .z, f .e, f .a, f .b, f .c, f .u, f .v, f .w⟩

@[simp] theorem get_ofFn (f : Axis → α) (axis : Axis) : ofFn f axis = f axis := by
  cases axis <;> rfl

@[ext] theorem ext {r s : Register α} (h : ∀ axis, r axis = s axis) : r = s := by
  cases r; cases s
  simp only [mk.injEq]
  exact ⟨h .x, h .y, h .z, h .e, h .a, h .b, h .c, h .u, h .v, h .w⟩

def fill (value : α) : Register α := ofFn fun _ => value

@[simp] theorem get_fill (value : α) (axis : Axis) : fill value axis = value := by
  simp [fill]

instance [Inhabited α] : Inhabited (Register α) := ⟨fill default⟩

def set (r : Register α) (axis : Axis) (value : α) : Register α :=
  ofFn fun other => if other = axis then value else r other

@[simp] theorem get_set (r : Register α) (axis other : Axis) (value : α) :
    r.set axis value other = if other = axis then value else r other := by
  simp [set]

def map (f : α → β) (r : Register α) : Register β := ofFn fun axis => f (r axis)

@[simp] theorem get_map (f : α → β) (r : Register α) (axis : Axis) : r.map f axis = f (r axis) := by
  simp [map]

def zipWith (f : α → β → γ) (r : Register α) (s : Register β) : Register γ :=
  ofFn fun axis => f (r axis) (s axis)

def all? (r : Register (Option α)) : Option (Register α) := do
  return ⟨← r.x, ← r.y, ← r.z, ← r.e, ← r.a, ← r.b, ← r.c, ← r.u, ← r.v, ← r.w⟩

def toList (r : Register α) : List α := Axis.all.map r.get

/-- Writes a list of values over a register, a later value for an axis over an earlier one. -/
def override (r : Register α) (values : List (Axis × α)) : Register α :=
  values.foldl (fun r entry => r.set entry.1 entry.2) r

end Register
end StepMotion
