import StepMotion.Proofs.Motion.Shares
import StepMotion.Proofs.Planner.Plan

/-! What a valid configuration makes of targets and of moves: the steps of a target are in the range
of an axis if the target is, and no quantity of a planned move has a minus sign. -/
namespace StepMotion

open Binary64

theorem Register.get_of_all? {α : Type} {r : Register (Option α)} {s : Register α}
    (h : r.all? = some s) (axis : Axis) : r axis = some (s axis) := by
  unfold Register.all? at h
  simp only [Option.bind_eq_bind, Option.bind_eq_some_iff, Option.pure_def, Option.some.injEq] at h
  obtain ⟨x, hx, y, hy, z, hz, e, he, a, ha, b, hb, c, hc, u, hu, v, hv, w, hw, rfl⟩ := h
  cases axis <;> assumption

theorem Register.all?_eq_some {α : Type} {r : Register (Option α)} {s : Register α}
    (h : ∀ axis, r axis = some (s axis)) : r.all? = some s := by
  have hr : r = s.map some := by
    ext1 axis
    rw [h, Register.get_map]
  rw [hr]
  rfl

structure AxisLimits.Usable (limits : AxisLimits) : Prop where
  stepsPerMm_isFinite : limits.stepsPerMm.isFinite = true
  stepsPerMm_pos : 0.0 < limits.stepsPerMm
  maxFeedrate_pos : 0.0 < limits.maxFeedrate
  acceleration_pos : 0.0 < limits.acceleration
  range_isNaN : limits.range.isNaN = false

theorem AxisLimits.usable_of_firstOffence? {axis : Axis} {limits : AxisLimits}
    (h : limits.firstOffence? axis = none) (hconfigured : limits.isConfigured = true) :
    limits.Usable := by
  have hpos : 0.0 < limits.stepsPerMm := of_decide_eq_true hconfigured
  unfold firstOffence? at h
  split at h
  · contradiction
  · next hsteps =>
    split at h
    · next hzero =>
      have hvalue := (beq_iff.mp hzero).2.2
      rw [lt_iff, hvalue] at hpos
      exact absurd hpos.2.2 (lt_irrefl _)
    · split at h
      · contradiction
      · next hfeedrate =>
        split at h
        · contradiction
        · next hacceleration =>
          split at h
          · contradiction
          · next hrange =>
            simp only [Bool.or_eq_true, Bool.not_eq_true', not_or, Bool.not_eq_false] at hsteps
            simp only [Bool.not_eq_true', Bool.not_eq_false, Bool.and_eq_true,
              decide_eq_true_iff] at hfeedrate hacceleration
            exact ⟨(value_of_isFinite _ hsteps.1).1, hpos, hfeedrate.2, hacceleration.2,
              by simpa using hrange⟩

structure MachineConfig.Usable (config : MachineConfig) : Prop where
  speedFactor_pos : 0.0 < config.speedFactor
  axes : ∀ axis, config.isConfigured axis = true → (config.axes axis).Usable

theorem MachineConfig.usable_of_firstOffence? {config : MachineConfig}
    (h : config.firstOffence? = none) : config.Usable := by
  unfold firstOffence? at h
  split at h
  · contradiction
  · next hfactor =>
    split at h
    · contradiction
    · simp only [Bool.not_eq_true', Bool.not_eq_false, Bool.and_eq_true,
        decide_eq_true_iff] at hfactor
      refine ⟨hfactor.2, fun axis hconfigured => ?_⟩
      have haxis := List.findSome?_eq_none_iff.mp h axis (Axis.mem_all axis)
      exact AxisLimits.usable_of_firstOffence? haxis hconfigured

theorem Planner.usable_of_make {β : Type} {config : MachineConfig} {wiring : Wiring} {backend : β}
    {lookahead : Nat} {planner : Planner β}
    (h : Planner.make config wiring backend lookahead = .ok planner) : config.Usable := by
  apply MachineConfig.usable_of_firstOffence?
  unfold Planner.make MachineConfig.validate at h
  cases hoffence : config.firstOffence? with
  | none => rfl
  | some offence => simp [hoffence, Except.mapError, bind, Except.bind] at h

section Steps

variable {config : MachineConfig} {wiring : Wiring} {position : Register Float} {steps : Steps}
  (h : stepsOf? config wiring position = some steps)

include h

theorem stepsOf?_inactive {axis : Axis} (hinactive : isActive config wiring axis = false) :
    steps axis = 0 := by
  have haxis := Register.get_of_all? h axis
  rw [Register.get_ofFn, hinactive, if_neg Bool.false_ne_true] at haxis
  exact (Option.some.inj haxis).symm

theorem stepsOf?_active {axis : Axis} (hactive : isActive config wiring axis = true) :
    nearest? (position axis * (config.axes axis).stepsPerMm) = some (steps axis) ∧
      (steps axis).natAbs ≤ 2 ^ 53 := by
  have haxis := Register.get_of_all? h axis
  rw [Register.get_ofFn, if_pos hactive, Option.filter_eq_some_iff, decide_eq_true_iff] at haxis
  exact haxis

end Steps

theorem stepsOf?_origin {config : MachineConfig} (wiring : Wiring) (h : config.Usable) :
    stepsOf? config wiring (.fill 0.0) = some .zero := by
  apply Register.all?_eq_some
  intro axis
  rw [Register.get_ofFn, Register.get_fill, Steps.get_zero]
  split
  · next hactive =>
    have hlimits := h.axes axis (Bool.and_eq_true_iff.mp hactive).1
    have hproduct := nearest_mul (x := 0.0) rfl hlimits.stepsPerMm_isFinite
    have hvalue : value (0.0 * (config.axes axis).stepsPerMm) = 0 := by
      rw [hproduct.value, value_zero, zero_mul, rounded_zero,
        saturated_of_abs_le (by rw [abs_zero]; exact limit_pos.le)]
    have hfinite : isFinite (0.0 * (config.axes axis).stepsPerMm) = true := by
      rw [isFinite_eq, isFinite_iff, hvalue, abs_zero]
      exact ⟨hproduct.isNaN, limit_pos⟩
    rw [nearest?_eq hfinite, hvalue, roundAway_zero]
    rfl
  · rfl

def AxisLimits.lastStep (limits : AxisLimits) : Int :=
  nearestInt64 (limits.range * limits.stepsPerMm)

/-- The last step of the range that is counted. -/
def AxisLimits.farthest (limits : AxisLimits) : Int := min limits.lastStep (2 ^ 53)

/-- An axis of which the targets are checked. -/
structure Ranged (config : MachineConfig) (wiring : Wiring) (axis : Axis) : Prop where
  usable : config.Usable
  rangeCheck : config.rangeCheck = true
  active : isActive config wiring axis = true
  range : 0.0 ≤ (config.axes axis).range

namespace Ranged

variable {config : MachineConfig} {wiring : Wiring} {axis : Axis} (h : Ranged config wiring axis)

include h

theorem configured : config.isConfigured axis = true := (Bool.and_eq_true_iff.mp h.active).1

theorem stepsPerMm_pos : (config.axes axis).stepsPerMm.isFinite = true ∧
    0 < value (config.axes axis).stepsPerMm := by
  have hlimits := h.usable.axes axis h.configured
  exact ⟨hlimits.stepsPerMm_isFinite, (value_pos_iff.mp hlimits.stepsPerMm_pos).2⟩

theorem farthest_nonneg : 0 ≤ (config.axes axis).farthest := by
  obtain ⟨hfinite, hpos⟩ := h.stepsPerMm_pos
  have hrange := value_mul_nonneg hfinite hpos h.range
  rw [← value_zero] at hrange
  have hlast := nearestInt64_mono hrange
  rw [show nearestInt64 0.0 = 0 by decide +kernel] at hlast
  exact le_min hlast (by decide)

theorem mem_of_stepsOf? {position : Register Float} {steps : Steps}
    (hsteps : stepsOf? config wiring position = some steps) (hlow : 0.0 ≤ position axis)
    (hhigh : position axis ≤ (config.axes axis).range) :
    steps axis ∈ Set.Icc 0 (config.axes axis).farthest := by
  obtain ⟨hnearest, hexact⟩ := stepsOf?_active hsteps h.active
  obtain ⟨hfinite, hpos⟩ := h.stepsPerMm_pos
  obtain ⟨hstart, hend⟩ := nearest?_mem hnearest hexact (value_mul_nonneg hfinite hpos hlow)
    (value_mul_mono hfinite hpos hlow hhigh)
  exact ⟨hstart, le_min hend (by omega)⟩

end Ranged

namespace Move

section Limits

theorem unsigned_leastLimit {direction : Register Float} {limit : Axis → Float} {start : Float}
    (hstart : Unsigned start)
    (hlimit : ∀ axis, 0.0 < (direction axis).abs → Unsigned (limit axis)) :
    Unsigned (leastLimit direction limit start) := by
  unfold leastLimit
  generalize Axis.all = axes
  induction axes generalizing start with
  | nil => exact hstart
  | cons axis rest ih =>
    rw [List.foldl_cons]
    apply ih
    dsimp only
    split
    · next hpart => exact hstart.lesser ((hlimit axis hpart).div (unsigned_abs _))
    · exact hstart

theorem not_part_of_zero {delta : Register Float} {axis : Axis} (h : delta axis = 0.0) :
    ¬ 0.0 < (Corner.unitVector delta axis).abs := by
  have hzero : value (Corner.unitVector delta axis) = 0 := by
    unfold Corner.unitVector
    split
    · rw [Register.get_map, h]
      exact value_zero_div _
    · rw [Register.get_fill]
      exact value_zero
  rw [value_pos_iff, value_abs, hzero, abs_zero]
  exact fun hpos => lt_irrefl 0 hpos.2

theorem unsigned_length (delta : Register Float) : Unsigned (Corner.length delta) := by
  apply Unsigned.sqrt
  apply unsigned_sum (by simp [Axis.all])
  rw [List.forall_mem_map]
  exact fun axis _ => unsigned_mul_self _

end Limits

theorem steady_of_plan? {config : MachineConfig} {steps : Steps} {feedrate : Float} {move : Move}
    (h : plan? config steps feedrate = some move) (husable : config.Usable)
    (hsteps : ∀ axis, config.isConfigured axis = false → steps axis = 0)
    (hfeedrate : 0.0 < feedrate) : move.Steady := by
  have hparts : ∀ axis, 0.0 < (Corner.unitVector (millimetres config steps) axis).abs →
      (config.axes axis).Usable := by
    intro axis hpart
    apply husable.axes
    by_contra hidle
    have hzero := hsteps axis (by simpa using hidle)
    refine not_part_of_zero ?_ hpart
    rw [millimetres, Register.get_ofFn, if_pos hzero]
  have hone : Unsigned 1.0 := NoMinus.finite _ _ _
  have hscale := (unsigned_ofNat steps.count).div (unsigned_length (millimetres config steps))
  unfold plan? at h
  split at h
  · contradiction
  · obtain rfl := Option.some.inj h
    refine ⟨rfl, ?_, ?_, unsigned_zero, unsigned_zero⟩
    · refine (unsigned_leastLimit (hone.div unsigned_zero) fun axis hpart => ?_).mul hscale
      exact unsigned_of_zero_lt (hparts axis hpart).acceleration_pos
    · refine (Unsigned.mul (unsigned_leastLimit (unsigned_of_zero_lt hfeedrate)
        fun axis hpart => ?_) (unsigned_of_zero_lt husable.speedFactor_pos)).mul hscale
      exact unsigned_of_zero_lt (hparts axis hpart).maxFeedrate_pos

end Move

end StepMotion
