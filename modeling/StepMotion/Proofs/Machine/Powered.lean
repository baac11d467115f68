import StepMotion.Proofs.Machine.Operations

/-! A machine switches its motors on before it queues a move, and off only once it holds none. So
what holds of a backend from the one to the other holds whenever a move waits. -/
namespace StepMotion.Machine

open MotorBackend

variable {β : Type}

/-- What holds while moves wait. -/
structure Powered (On : β → Prop) (machine : Machine β) : Prop where
  lookahead : 0 < machine.planner.lookahead
  on : machine.motorsOn = true → On machine.planner.backend
  moves : machine.planner.window ≠ [] → machine.motorsOn = true

theorem powered_of_make {γ : Type} {config : MachineConfig} {wiring : Wiring} {backend : β}
    {sink : Option Sink} {machine : Machine β} (f : β → γ) (On : γ → Prop)
    (hmake : make config wiring backend sink = .ok machine) : Powered On (machine.map f) := by
  obtain ⟨planner, hplanner, rfl⟩ := make_eq_ok hmake
  obtain ⟨hlookahead, rfl⟩ := Planner.make_eq_ok hplanner
  exact ⟨hlookahead, fun hon => absurd hon Bool.false_ne_true, fun hwindow => absurd rfl hwindow⟩

variable [MotorBackend β]

/-- What a backend keeps as long as it is not switched off. -/
structure Lasts (P : β → Prop) : Prop where
  kept : Kept P
  enable : ∀ backend, P backend → P (enable true backend)
  wait : ∀ backend, P backend → P (MotorBackend.waitEmpty backend).state

theorem Deed.backend {P : β → Prop} (hP : Lasts P) {first second : Machine β}
    {jumps : List (Register Float)} (h : Deed first jumps second)
    (hlookahead : 0 < first.planner.lookahead) (hfirst : P first.planner.backend) :
    P second.planner.backend := by
  cases h with
  | note feedrate sink homed => exact hfirst
  | switchOn => exact hP.enable _ hfirst
  | move feedrate hon hallowed =>
    obtain ⟨out, hchanges⟩ := first.planner.enqueue_changes hlookahead _ feedrate
    exact hchanges.backend hP.kept hfirst
  | halt =>
    obtain ⟨out, hchanges, -⟩ := first.planner.halt_changes
    exact hchanges.backend hP.kept hfirst
  | wait => exact hP.wait _ hfirst
  | jump hempty hsteps => exact hfirst

theorem Deed.lookahead {first second : Machine β} {jumps : List (Register Float)}
    (h : Deed first jumps second) (hfirst : 0 < first.planner.lookahead) :
    0 < second.planner.lookahead := by
  cases h with
  | move feedrate hon hallowed =>
    obtain ⟨out, hchanges⟩ := first.planner.enqueue_changes hfirst _ feedrate
    rwa [hchanges.lookahead.2]
  | halt =>
    obtain ⟨out, hchanges, -⟩ := first.planner.halt_changes
    rwa [hchanges.lookahead.2]
  | _ => exact hfirst

section Powered

variable {On : β → Prop} (hOn : Lasts On) (hswitch : ∀ backend : β, On (enable true backend))

include hOn hswitch

theorem Powered.deed {first second : Machine β} {jumps : List (Register Float)}
    (hdeed : Deed first jumps second) (h : Powered On first) : Powered On second := by
  have hbackend := fun hfirst => hdeed.backend hOn h.lookahead hfirst
  refine ⟨hdeed.lookahead h.lookahead, ?_, ?_⟩
  · cases hdeed with
    | switchOn => exact fun _ => hswitch _
    | _ => exact fun hon => hbackend (h.on hon)
  · cases hdeed with
    | switchOn => exact fun _ => rfl
    | move feedrate hon hallowed => exact fun _ => hon
    | halt =>
      intro hwindow
      apply h.moves
      intro hempty
      apply hwindow
      change first.planner.halt.state.window = []
      rw [Planner.halt_of_idle hempty]
      exact first.planner.settle_window.trans hempty
    | jump hempty hsteps => exact fun hwindow => absurd hempty hwindow
    | _ => exact h.moves

theorem Powered.deeds {first second : Machine β} {jumps : List (Register Float)}
    (hdeeds : Deeds first jumps second) (h : Powered On first) : Powered On second :=
  hdeeds.preserves (fun hdeed => Powered.deed hOn hswitch hdeed) h

theorem Powered.switchOff {machine : Machine β} (h : Powered On machine)
    (hfinish : machine.finish.Succeeds) : Powered On (machine.finish.state.setMotors false) where
  lookahead := (h.deeds hOn hswitch machine.deeds_finish).lookahead
  on := fun hon => absurd hon Bool.false_ne_true
  moves := fun hwindow => absurd (window_finish hfinish) hwindow

theorem Powered.operate {machine : Machine β} (h : Powered On machine) (operation : Operation) :
    Powered On (machine.operate operation).state := by
  rcases machine.operate_deeds operation with hdeeds | ⟨-, hfinish, hoff⟩
  · exact h.deeds hOn hswitch hdeeds
  · rw [hoff]
    exact h.switchOff hOn hswitch hfinish

theorem Powered.run {machine : Machine β} (h : Powered On machine) (operations : List Operation) :
    Powered On (machine.run operations) := by
  induction operations generalizing machine with
  | nil => exact h
  | cons operation rest ih => exact ih (h.operate hOn hswitch operation)

end Powered

end StepMotion.Machine
