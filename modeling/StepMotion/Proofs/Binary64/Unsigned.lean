import StepMotion.Proofs.Binary64.Arithmetic

/-! Doubles without a minus sign. Products, quotients, sums and roots of them have none either, so
that a zero among them is never the negative one, by which a quotient would change its sign. -/
namespace StepMotion.Binary64

open Float.Model UnpackedFloat

inductive NoMinus : UnpackedFloat → Prop where
  | notANumber : NoMinus .notANumber
  | infinity : NoMinus (.infinity .positive)
  | zero : NoMinus (.zero .positive)
  | finite (m : Nat) (e : Int) (hm : 0 < m) : NoMinus (.finite .positive m e hm)

/-- No minus sign, which what is not a number does not have either. -/
def Unsigned (x : Float) : Prop := NoMinus (unpack x)

namespace NoMinus

variable {u v : UnpackedFloat}

theorem ofFields (e : BitVec 11) (m : BitVec 52) : NoMinus (ofFields .positive e m) := by
  unfold Binary64.ofFields
  split
  · split <;> constructor
  · split
    · split <;> constructor
    · constructor

theorem packComponents (e : BitVec 11) (m : BitVec 52) :
    NoMinus (UnpackedFloat.unpack Format.binary64
      (packComponents Format.binary64 .positive e m)) := by
  rw [unpack_packComponents]
  exact ofFields e m

theorem unsigned_pack (h : NoMinus u) : Unsigned (pack u) := by
  change NoMinus (UnpackedFloat.unpack Format.binary64 (UnpackedFloat.pack Format.binary64 u))
  cases h with
  | finite m e hm =>
    unfold UnpackedFloat.pack
    dsimp only
    split
    · exact packComponents _ _
    · split <;> exact packComponents _ _
  | _ => exact packComponents _ _

theorem roundWithAccuracy (m : Nat) (e : Int) (accuracy : Accuracy) :
    NoMinus (roundWithAccuracy Format.binary64 .positive m e accuracy) := by
  unfold UnpackedFloat.roundWithAccuracy
  dsimp only
  split <;> constructor

theorem normalize {n : Int} (h : 0 ≤ n) (e : Int) :
    NoMinus (normalize Format.binary64 n e .positive) := by
  unfold UnpackedFloat.normalize
  split
  · next hlt =>
    rw [compare_lt_iff_lt] at hlt
    omega
  · exact .zero
  · exact roundWithAccuracy _ _ _

theorem mul (hu : NoMinus u) (hv : NoMinus v) : NoMinus (mul Format.binary64 u v) := by
  cases hu with
  | finite m e hm =>
    cases hv with
    | finite n d hn => exact roundWithAccuracy _ _ _
    | _ => constructor
  | _ => cases hv <;> constructor

theorem mul_self (u : UnpackedFloat) : NoMinus (UnpackedFloat.mul Format.binary64 u u) := by
  cases u with
  | notANumber => constructor
  | infinity s => cases s <;> constructor
  | zero s => cases s <;> constructor
  | finite s m e hm => cases s <;> exact roundWithAccuracy _ _ _

theorem div (hu : NoMinus u) (hv : NoMinus v) : NoMinus (div Format.binary64 u v) := by
  cases hu with
  | finite m e hm =>
    cases hv with
    | finite n d hn => exact roundWithAccuracy _ _ _
    | _ => constructor
  | _ => cases hv <;> constructor

theorem add (hu : NoMinus u) (hv : NoMinus v) : NoMinus (add Format.binary64 u v) := by
  cases hu with
  | finite m e hm =>
    cases hv with
    | finite n d hn =>
      exact normalize (add_nonneg (Int.natCast_nonneg _) (Int.natCast_nonneg _)) _
    | _ => constructor
  | _ => cases hv <;> constructor

theorem zero_add (hv : NoMinus v) :
    NoMinus (UnpackedFloat.add Format.binary64 (.zero .negative) v) := by
  cases hv <;> constructor

theorem sqrt (hu : NoMinus u) : NoMinus (sqrt Format.binary64 u) := by
  cases hu with
  | finite m e hm => exact roundWithAccuracy _ _ _
  | _ => constructor

theorem abs (u : UnpackedFloat) : NoMinus u.abs := by
  cases u <;> constructor

theorem realOf_nonneg (h : NoMinus u) : 0 ≤ realOf u := by
  cases h with
  | notANumber => exact le_refl _
  | zero => exact le_refl _
  | infinity =>
    rw [realOf, sign_positive, one_mul]
    exact limit_pos.le
  | finite m e hm =>
    rw [realOf, sign_positive, one_mul]
    exact (finite_pos hm e).le

theorem of_pos (h : 0 < realOf u) : NoMinus u := by
  cases u with
  | notANumber => constructor
  | zero s => exact absurd h (lt_irrefl 0)
  | infinity s =>
    obtain rfl := infinity_of_nonneg h.le
    constructor
  | finite s m e hm =>
    obtain rfl := finite_of_nonneg h.le
    constructor

end NoMinus

variable {x y : Float}

theorem Unsigned.mul (hx : Unsigned x) (hy : Unsigned y) : Unsigned (x * y) :=
  (NoMinus.mul hx hy).unsigned_pack

theorem unsigned_mul_self (x : Float) : Unsigned (x * x) :=
  (NoMinus.mul_self (unpack x)).unsigned_pack

theorem Unsigned.div (hx : Unsigned x) (hy : Unsigned y) : Unsigned (x / y) :=
  (NoMinus.div hx hy).unsigned_pack

theorem Unsigned.add (hx : Unsigned x) (hy : Unsigned y) : Unsigned (x + y) :=
  (NoMinus.add hx hy).unsigned_pack

theorem Unsigned.sqrt (hx : Unsigned x) : Unsigned x.sqrt := (NoMinus.sqrt hx).unsigned_pack

theorem unsigned_abs (x : Float) : Unsigned x.abs := (NoMinus.abs (unpack x)).unsigned_pack

theorem Unsigned.nonneg (hx : Unsigned x) : 0 ≤ value x := NoMinus.realOf_nonneg hx

theorem unsigned_of_pos (hx : 0 < value x) : Unsigned x := NoMinus.of_pos hx

theorem unsigned_of_zero_lt (hx : 0.0 < x) : Unsigned x := by
  rw [lt_iff, value_zero] at hx
  exact unsigned_of_pos hx.2.2

theorem unsigned_zero : Unsigned 0.0 := NoMinus.zero

theorem Unsigned.lesser (hx : Unsigned x) (hy : Unsigned y) : Unsigned (lesser x y) := by
  rcases lesser_cases x y with ⟨heq, -⟩ | ⟨heq, -⟩ <;> rw [heq] <;> assumption

/-- The sum starts with a negative zero, which the first summand takes away. -/
theorem unsigned_sum {xs : List Float} (hne : xs ≠ []) (h : ∀ x ∈ xs, Unsigned x) :
    Unsigned (sum xs) := by
  have hfold : ∀ (ys : List Float) (start : Float), Unsigned start → (∀ y ∈ ys, Unsigned y) →
      Unsigned (ys.foldl (· + ·) start) := by
    intro ys
    induction ys with
    | nil => exact fun _ hstart _ => hstart
    | cons y rest ih =>
      intro start hstart hys
      rw [List.forall_mem_cons] at hys
      exact ih _ (hstart.add hys.1) hys.2
  cases xs with
  | nil => contradiction
  | cons first rest =>
    rw [List.forall_mem_cons] at h
    exact hfold rest _ (NoMinus.zero_add h.1).unsigned_pack h.2

end StepMotion.Binary64
