import StepMotion.Proofs.Motion.Moving

/-! What moderate limits make of a move. Its direction, its length and its limits are chains of
products and quotients of the limits of the axes, the feedrate and numbers of steps, none of which
comes near the ends of the double range. -/
namespace StepMotion

open Binary64

/-- Every limit that speeds are made from is far from both ends of the double range. -/
structure AxisLimits.Moderate (limits : AxisLimits) : Prop where
  stepsPerMm : Binary64.Moderate limits.stepsPerMm
  maxFeedrate : Binary64.Moderate limits.maxFeedrate
  acceleration : Binary64.Moderate limits.acceleration

/-- What is not configured may be anything. -/
structure MachineConfig.Moderate (config : MachineConfig) : Prop where
  speedFactor : Binary64.Moderate config.speedFactor
  axes : ∀ axis, config.isConfigured axis = true → (config.axes axis).Moderate

structure Stretch (x : Float) : Prop where
  isNaN : x.isNaN = false
  between : Between (-100) 154 x.abs

namespace Corner

variable {delta : Register Float} (h : ∀ axis, delta axis = 0.0 ∨ Stretch (delta axis))
  {moving : Axis} (hmoving : Stretch (delta moving))

include h hmoving

theorem between_length : Between (-100) 159 (length delta) := by
  have hsquares : ∀ x ∈ Axis.all.map fun axis => delta axis * delta axis, Below 308 x := by
    rw [List.forall_mem_map]
    intro axis _
    rcases h axis with hzero | hstretch
    · rw [hzero]
      exact (within_zero (a := 0) (b := 154)).below.mul_self (by norm_num) (by norm_num)
        (by norm_num)
    · exact (between_mul_self hstretch.isNaN hstretch.between (by norm_num) (by norm_num)
        (by norm_num)).below
  have hlarge : Between (-200) 308 (delta moving * delta moving) :=
    between_mul_self hmoving.isNaN hmoving.between (by norm_num) (by norm_num) (by norm_num)
  have hsum := between_sum hsquares (List.mem_map_of_mem (Axis.mem_all moving)) hlarge
    (by norm_num) (by rw [List.length_map]; decide)
  rw [List.length_map] at hsum
  exact hsum.sqrt (by decide) (by norm_num) (by decide) (by norm_num) (by norm_num)

theorem between_component {axis : Axis} (haxis : Stretch (delta axis)) :
    Between (-259) 254 (unitVector delta axis).abs := by
  have hlength := between_length h hmoving
  have hpos : 0.0 < length delta := value_pos_iff.mpr ⟨hlength.isNaN, hlength.pos⟩
  rw [unitVector, if_pos hpos, Register.get_map]
  exact between_abs_div haxis.isNaN haxis.between hlength (by norm_num) (by norm_num) (by norm_num)

end Corner

namespace Move

theorem between_leastLimit {direction : Register Float} {limit : Axis → Float} {start : Float}
    {a b c : ℤ} (hstart : Between a c start)
    (hlimit : ∀ axis, 0.0 < (direction axis).abs →
      Between a b (limit axis / (direction axis).abs)) :
    Between a c (leastLimit direction limit start) ∧
      ∀ axis, 0.0 < (direction axis).abs → Between a b (leastLimit direction limit start) := by
  have hfold : ∀ (axes : List Axis) (c : ℤ) (start : Float), Between a c start →
      let least := axes.foldl (fun least axis =>
        let part := (direction axis).abs
        if 0.0 < part then Binary64.lesser least (limit axis / part) else least) start
      Between a c least ∧ ∀ axis ∈ axes, 0.0 < (direction axis).abs → Between a b least := by
    intro axes
    induction axes with
    | nil => exact fun c start hstart => ⟨hstart, List.forall_mem_nil _⟩
    | cons axis rest ih =>
      intro c start hstart
      dsimp only
      rw [List.foldl_cons, List.forall_mem_cons]
      by_cases hpart : 0.0 < (direction axis).abs
      · obtain ⟨hleft, hright⟩ := hstart.lesser (hlimit axis hpart)
        rw [if_pos hpart]
        exact ⟨(ih c _ hleft).1, fun _ => (ih b _ hright).1, (ih c _ hleft).2⟩
      · rw [if_neg hpart]
        exact ⟨(ih c _ hstart).1, fun habsurd => absurd habsurd hpart, (ih c _ hstart).2⟩
  obtain ⟨hleast, hparts⟩ := hfold Axis.all c start hstart
  exact ⟨hleast, fun axis hpart => hparts axis (Axis.mem_all axis) hpart⟩

section Plan

variable {config : MachineConfig} (hconfig : config.Moderate) {steps : Steps}
  (hsteps : ∀ axis, (steps axis).natAbs ≤ 2 ^ 54)
  (hidle : ∀ axis, config.isConfigured axis = false → steps axis = 0)

include hconfig hsteps hidle

theorem stretch_millimetres {axis : Axis} (hmoves : steps axis ≠ 0) :
    Stretch (millimetres config steps axis) := by
  have hconfigured : config.isConfigured axis = true := by
    by_contra hnot
    exact hmoves (hidle axis (by simpa using hnot))
  have hscale := (hconfig.axes axis hconfigured).stepsPerMm.between
  have hcount : Between 0 54 (Float.ofInt (steps axis)).abs :=
    between_abs_ofInt (by rw [zpow_zero]; exact_mod_cast Int.natAbs_pos.mpr hmoves)
      (by exact_mod_cast hsteps axis) (by norm_num) (by norm_num)
  obtain ⟨hfinite, -⟩ := ofInt_word (hsteps axis)
  rw [millimetres, Register.get_ofFn, if_neg hmoves]
  exact ⟨(nearest_div hfinite (hscale.isFinite (by norm_num)) hscale.pos.ne').isNaN,
    between_abs_div (isFinite_iff.mp hfinite).1 hcount hscale (by norm_num) (by norm_num)
      (by norm_num)⟩

theorem stretches_millimetres (axis : Axis) :
    millimetres config steps axis = 0.0 ∨ Stretch (millimetres config steps axis) := by
  by_cases haxis : steps axis = 0
  · exact .inl (by rw [millimetres, Register.get_ofFn, if_pos haxis])
  · exact .inr (stretch_millimetres hconfig hsteps hidle haxis)

theorem between_part {moving axis : Axis} (hmoving : steps moving ≠ 0)
    (hpart : 0.0 < (Corner.unitVector (millimetres config steps) axis).abs) :
    config.isConfigured axis = true ∧
      Between (-259) 254 (Corner.unitVector (millimetres config steps) axis).abs := by
  have haxis : steps axis ≠ 0 := by
    intro hzero
    refine not_part_of_zero ?_ hpart
    rw [millimetres, Register.get_ofFn, if_pos hzero]
  refine ⟨?_, Corner.between_component (stretches_millimetres hconfig hsteps hidle)
    (stretch_millimetres hconfig hsteps hidle hmoving)
    (stretch_millimetres hconfig hsteps hidle haxis)⟩
  by_contra hnot
  exact haxis (hidle axis (by simpa using hnot))

theorem between_limit {moving axis : Axis} (hmoving : steps moving ≠ 0) {limit : Float}
    (hlimit : (config.axes axis).Moderate → Binary64.Moderate limit)
    (hpart : 0.0 < (Corner.unitVector (millimetres config steps) axis).abs) :
    Between (-354) 359 (limit / (Corner.unitVector (millimetres config steps) axis).abs) := by
  obtain ⟨hconfigured, hbetween⟩ := between_part hconfig hsteps hidle hmoving hpart
  exact ((hlimit (hconfig.axes axis hconfigured)).between.div hbetween (by norm_num) (by norm_num) (by norm_num)).mono
    (by norm_num) (by norm_num)

theorem moderate_of_plan? {feedrate : Float} (hfeedrate : Binary64.Moderate feedrate) {move : Move}
    (h : plan? config steps feedrate = some move) : move.Moderate := by
  obtain ⟨-, hleast, -⟩ := plan?_eq_some h
  have hcount : 0 < steps.count := Nat.lt_of_lt_of_le (by decide) hleast
  have hmoving : steps steps.definingAxis ≠ 0 := Int.natAbs_pos.mp hcount
  have hstretch := stretch_millimetres hconfig hsteps hidle hmoving
  have hdistance : Between 0 54 (Float.ofNat steps.count) :=
    between_ofNat hcount (by exact_mod_cast hsteps steps.definingAxis) (by norm_num)
  have hscale : Between (-159) 154
      (Float.ofNat steps.count / Corner.length (millimetres config steps)) :=
    (hdistance.div (Corner.between_length (stretches_millimetres hconfig hsteps hidle) hstretch)
      (by norm_num) (by norm_num) (by norm_num)).mono (by norm_num) (by norm_num)
  have hpart : 0.0 < (Corner.unitVector (millimetres config steps) steps.definingAxis).abs := by
    have hcomponent := Corner.between_component (stretches_millimetres hconfig hsteps hidle)
      hstretch hstretch
    exact value_pos_iff.mpr ⟨hcomponent.isNaN, hcomponent.pos⟩
  -- The acceleration starts from infinity, which the part of the defining axis bounds.
  have hcruise := (between_leastLimit (hfeedrate.between.mono (show -354 ≤ -100 by norm_num) le_rfl)
    fun axis => between_limit hconfig hsteps hidle hmoving AxisLimits.Moderate.maxFeedrate).1
  have hacceleration := (between_leastLimit (between_infinity (show -354 ≤ 1024 by norm_num))
    fun axis => between_limit hconfig hsteps hidle hmoving AxisLimits.Moderate.acceleration).2 _ hpart
  unfold plan? at h
  split at h
  · contradiction
  obtain rfl := Option.some.inj h
  exact {
    distance := hdistance
    cruise := ((hcruise.mul hconfig.speedFactor.between (by norm_num) (by norm_num)
      (by norm_num)).mul hscale (by norm_num) (by norm_num) (by norm_num)).mono (by norm_num)
      (by norm_num)
    acceleration := (hacceleration.mul hscale (by norm_num) (by norm_num) (by norm_num)).mono
      (by norm_num) (by norm_num)
    entryCap := within_zero
    entry := within_zero }

end Plan

end Move
end StepMotion
