import Mathlib
import StepMotion.Proofs.Wiring.Reading

/-! Wirings from strings. The strings of a configuration are read one after the other, each into the
tables that those before it left. A wiring comes of the strings that spell one, it is the one that
they spell, and other strings fail with the first thing that is wrong with them. -/
namespace StepMotion.Wiring

section Whole

variable {wiring start : Wiring}

theorem elim_toList (wiring : Wiring) (text : Option String)
    (step : List Char → Except WiringError Wiring) (h : step [] = .ok wiring) :
    (text.elim (.ok wiring) fun s => step s.toList) = step (text.getD "").toList := by
  cases text with
  | none => exact h.symm
  | some s => rfl

theorem axisAt?_of_frame (h : wiring = { start with switches := wiring.switches }) (number : Nat) :
    wiring.axisAt? number = start.axisAt? number := by
  rw [h]
  cases number <;> rfl

theorem MotorsRead.switchAt? {letters : List Char} (h : MotorsRead letters wiring)
    (position : Nat) : wiring.switchAt? position = none := by
  by_cases hposition : position < switchConnectors <;>
    simp [Wiring.switchAt?, h.switches, hposition]

theorem reads_ofSettings (settings : Settings) :
    Reads settings.SpellsConnectors settings.offences (ofSettings settings) := by
  unfold ofSettings Settings.offences
  refine (reads_addMotors settings.motorLetters).bind fun motors hmotors => ?_
  -- The string for the far end is read after the one for the near end, which has none before it.
  have hmin : Reads _ _ (motors.addSwitches .min (settings.switchLetters .min)) :=
    reads_addSwitches [] (fun position switch => by simp [hmotors.switchAt?, switchIn?]) _
  rw [elim_toList motors settings.minEndswitch (addSwitches .min motors) rfl]
  refine hmin.bind fun mins hmins => ?_
  have hmax : Reads _ _ (mins.addSwitches .max (settings.switchLetters .max)) :=
    reads_addSwitches (settings.switchLetters .min)
      (fun position switch => by simp [hmins.slots, switchIn?, SwitchSide.other]) _
  rw [elim_toList mins settings.maxEndswitch (addSwitches .max mins) rfl]
  refine hmax.bind fun ends hends => ?_
  rw [elim_toList ends settings.endswitchPolarity (setPolarities ends) rfl]
  refine (reads_setPolarities hends.hasSwitches settings.levelLetters).bind fun last hlast => ?_
  rw [← List.append_nil (letterOffences _ _)]
  refine (reads_addHomeLetters settings.homeLetters).bind fun axes haxes =>
    reads_ok ⟨fun position => ?_, hlast.switchAt?_eq_some hends.hasSwitches, haxes⟩
  calc
    _ = last.axisAt? (position + 1) := rfl
    _ = ends.axisAt? (position + 1) := axisAt?_of_frame hlast.frame _
    _ = mins.axisAt? (position + 1) := axisAt?_of_frame hends.frame _
    _ = motors.axisAt? (position + 1) := axisAt?_of_frame hmins.frame _
    _ = axisIn? settings.motorLetters position := hmotors.axisAt position

end Whole

section Homing

variable {settings : Settings} {wiring : Wiring} {axis : Axis} {switch other : EndSwitch}
  {position place : Nat}

theorem eq_of_nodup_filter {α : Type} {p : α → Bool} {entries : List α} {entry : α}
    (h : (entries.filter p).Nodup) (hentry : p entry) (hposition : entries[position]? = some entry)
    (hplace : entries[place]? = some entry) : position = place := by
  have hbefore : ∀ first second : Nat, entries[first]? = some entry →
      entries[second]? = some entry → ¬ first < second := by
    intro first second hfirst hsecond hless
    have htaken : (entries.take second)[first]? = some entry := by
      rw [List.getElem?_take_of_lt hless, hfirst]
    exact nodup_filter_iff.mp h second entry hsecond hentry (List.mem_of_getElem? htaken)
  exact le_antisymm (not_lt.mp (hbefore place position hplace hposition))
    (not_lt.mp (hbefore position place hposition hplace))

/-- Where a character of a switch string stands in the two strings, the one behind the other. -/
theorem getElem?_append_switchLetters {side : SwitchSide} {letter : Char}
    (h : (settings.switchLetters side)[position]? = some letter) :
    (settings.switchLetters .min ++ settings.switchLetters .max)[match side with
      | .min => position
      | .max => (settings.switchLetters .min).length + position]? = some letter := by
  cases side with
  | min => rw [List.getElem?_append_left (List.getElem?_eq_some_iff.mp h).1, h]
  | max => rw [List.getElem?_append_right (Nat.le_add_right ..), Nat.add_sub_cancel_left, h]

/-- An axis has one switch for homing, for its capital stands once in the two strings. -/
theorem homing_unique (hspelled : settings.WellSpelled) (hspells : settings.SpellsConnectors wiring)
    (hswitch : wiring.switchAt? position = some switch) (hhoming : switch.homing = true)
    (hother : wiring.switchAt? place = some other) (hothers : other.homing = true)
    (haxis : switch.axis = other.axis) : position = place := by
  obtain ⟨⟨letter, hletter, hof, hupper⟩, -⟩ := (hspells.switches position switch).mp hswitch
  obtain ⟨⟨capital, hcapital, hofOther, hupperOther⟩, -⟩ := (hspells.switches place other).mp hother
  rw [hhoming] at hupper
  obtain rfl := Axis.ofLetter?_eq_some_and_isUpper.mp ⟨hof, hupper.symm⟩
  obtain rfl := Axis.ofLetter?_eq_some_and_isUpper.mp ⟨hofOther, (hothers ▸ hupperOther).symm⟩
  rw [← haxis] at hcapital
  -- Both are the one capital of the axis, which stands once in the two strings together.
  have hsame := eq_of_nodup_filter hspelled.capitals hupper.symm
    (getElem?_append_switchLetters hletter) (getElem?_append_switchLetters hcapital)
  have hposition := (List.getElem?_eq_some_iff.mp hletter).1
  have hplace := (List.getElem?_eq_some_iff.mp hcapital).1
  cases hside : switch.side <;> cases hotherSide : other.side <;>
    simp only [hside, hotherSide] at hsame hposition hplace <;> omega

theorem homeSwitch?_iff (hspelled : settings.WellSpelled)
    (hspells : settings.SpellsConnectors wiring) (axis : Axis) (switch : EndSwitch) :
    wiring.homeSwitch? axis = some switch ↔ switch.axis = axis ∧ switch.homing = true ∧
      ∃! position, wiring.switchAt? position = some switch := by
  constructor
  · intro h
    obtain ⟨position, hswitch, haxis, hhoming⟩ := homeSwitch?_eq_some h
    exact ⟨haxis, hhoming, position, hswitch, fun place hplace =>
      homing_unique hspelled hspells hplace hhoming hswitch hhoming rfl⟩
  · rintro ⟨haxis, hhoming, position, hswitch, -⟩
    obtain ⟨other, hother⟩ := Option.isSome_iff_exists.mp
      (isSome_homeSwitch?.mpr ⟨position, switch, hswitch, haxis, hhoming⟩)
    obtain ⟨place, hplace, hotherAxis, hotherHoming⟩ := homeSwitch?_eq_some hother
    obtain rfl := homing_unique hspelled hspells hswitch hhoming hplace hotherHoming
      (haxis.trans hotherAxis.symm)
    rw [hother, ← hplace, hswitch]

end Homing

section MotorLists

variable {settings : Settings} {wiring other : Wiring}

theorem spelled?_eq_some {letter : Char} {position : Nat} {assignment : Assignment} :
    spelled? (letter, position) = some assignment ↔
      Axis.ofLetter? letter = some assignment.axis ∧ assignment.number = position + 1 ∧
        assignment.mirrored = letter.isLower := by
  have hblank : Axis.ofLetter? '_' = none := by decide
  obtain ⟨axis, number, mirrored⟩ := assignment
  unfold spelled?
  split
  · simp_all
  · simp only [Option.map_eq_some_iff, Assignment.mk.injEq]
    grind

theorem mem_spelled {letters : List Char} {assignment : Assignment} :
    assignment ∈ spelled letters ↔ ∃ position letter, letters[position]? = some letter ∧
      Axis.ofLetter? letter = some assignment.axis ∧ assignment.number = position + 1 ∧
      assignment.mirrored = letter.isLower := by
  simp only [spelled, List.mem_filterMap, Prod.exists, List.mem_zipIdx_iff_getElem?,
    spelled?_eq_some]
  exact exists_comm

theorem pairwise_spelled (letters : List Char) :
    (spelled letters).Pairwise fun assignment next => assignment.number < next.number := by
  have hplaces : letters.zipIdx.Pairwise fun entry next => entry.2 < next.2 := by
    rw [← List.pairwise_map (f := Prod.snd) (R := (· < ·)), List.zipIdx_map_snd]
    exact List.pairwise_lt_range'
  refine List.pairwise_filterMap.mpr (hplaces.imp fun hless assignment hfirst next hnext => ?_)
  rw [(spelled?_eq_some.mp hfirst).2.1, (spelled?_eq_some.mp hnext).2.1]
  exact Nat.add_lt_add_right hless 1

theorem spells_of_ofSettings (hspells : settings.SpellsConnectors wiring)
    (h : ofSettings settings = .ok wiring) : settings.Spells wiring := by
  have hlists := (lists_of_ofSettings h).motorsOf
  refine { hspells with motors := fun axis motor => ?_, motorOrder := fun axis => ?_ }
  · have hinjective : Function.Injective fun motor : Motor => motor.assigned axis := by
      rintro ⟨connector, mirrored⟩ ⟨place, other⟩ hsame
      simpa [Motor.assigned, Motor.number, Fin.ext_iff] using hsame
    rw [← List.mem_map_of_injective hinjective, hlists, List.mem_filter, mem_spelled]
    constructor
    · rintro ⟨⟨position, letter, hletter, haxis, hnumber, hmirrored⟩, -⟩
      obtain rfl : (motor.connector : Nat) = position := Nat.succ_injective hnumber
      exact ⟨letter, hletter, haxis, hmirrored⟩
    · rintro ⟨letter, hletter, haxis, hmirrored⟩
      exact ⟨⟨motor.connector, letter, hletter, haxis, rfl, hmirrored⟩, by simp [Motor.assigned]⟩
  · have hassigned : ((wiring.motorsOf axis).map (·.assigned axis)).Pairwise
        fun assignment next => assignment.number < next.number := by
      rw [hlists]
      exact (pairwise_spelled settings.motorLetters).sublist List.filter_sublist
    refine (List.pairwise_map.mp hassigned).imp fun hless => ?_
    exact Nat.lt_of_add_lt_add_right hless

theorem spells_unique (h : settings.Spells wiring) (hother : settings.Spells other) :
    wiring = other := by
  have hmotors : wiring.motorsOf = other.motorsOf := by
    have : Std.Irrefl fun motor next : Motor => motor.connector < next.connector :=
      ⟨fun _ => lt_irrefl _⟩
    have : Std.Antisymm fun motor next : Motor => motor.connector < next.connector :=
      ⟨fun _ _ hless hmore => absurd hless (lt_asymm hmore)⟩
    refine Register.ext fun axis => (h.motorOrder axis).eq_of_mem_iff (hother.motorOrder axis) ?_
    exact fun motor => (h.motors axis motor).trans (hother.motors axis motor).symm
  have hdrives : wiring.drives = other.drives := by
    refine Vector.ext fun position hposition => ?_
    have hsame := (h.axisAt position).trans (hother.axisAt position).symm
    simpa [axisAt?, hposition] using hsame
  have hswitches : wiring.switches = other.switches := by
    refine Vector.ext fun position hposition => ?_
    have hsame : wiring.switchAt? position = other.switchAt? position := Option.ext fun switch =>
      (h.switches position switch).trans (hother.switches position switch).symm
    simpa [switchAt?, hposition] using hsame
  have horder : wiring.homeOrder = other.homeOrder := by
    have hsame := h.homeOrder.trans hother.homeOrder.symm
    exact List.map_injective_iff.mpr (Option.some_injective Axis) hsame
  cases wiring
  cases other
  simp_all

end MotorLists

/-- Strings are read as a wiring exactly if they spell one, and then as the one that they spell; an
axis homes to its one switch for homing. Other strings fail with the first of the offences: those of
the motors come first, then those of either end, the levels and the home order, a string that is too
long before its characters, and these from left to right. -/
theorem wiring_of_strings (settings : Settings) :
    ((∃ wiring, ofSettings settings = .ok wiring) ↔ settings.WellSpelled) ∧
    (∀ wiring, ofSettings settings = .ok wiring ↔
      settings.WellSpelled ∧ settings.Spells wiring) ∧
    (∀ wiring, ofSettings settings = .ok wiring → ∀ axis switch,
      wiring.homeSwitch? axis = some switch ↔ switch.axis = axis ∧ switch.homing = true ∧
        ∃! position, wiring.switchAt? position = some switch) ∧
    ∀ error, ofSettings settings = .error error ↔ settings.offences.head? = some error := by
  have hreads := reads_ofSettings settings
  have hread : ∀ wiring, ofSettings settings = .ok wiring →
      settings.WellSpelled ∧ settings.Spells wiring := by
    intro wiring hwiring
    obtain ⟨hnone, hspells⟩ := hreads.of_ok hwiring
    exact ⟨Settings.offences_eq_nil.mp hnone, spells_of_ofSettings hspells hwiring⟩
  have hexists : settings.WellSpelled → ∃ wiring, ofSettings settings = .ok wiring := by
    intro hspelled
    rw [Settings.offences_eq_nil.mpr hspelled] at hreads
    obtain ⟨wiring, hwiring, -⟩ := hreads
    exact ⟨wiring, hwiring⟩
  refine ⟨⟨fun ⟨wiring, hwiring⟩ => (hread wiring hwiring).1, hexists⟩,
    fun wiring => ⟨hread wiring, fun ⟨hspelled, hspells⟩ => ?_⟩,
    fun wiring hwiring => ?_, hreads.error_iff⟩
  · obtain ⟨other, hother⟩ := hexists hspelled
    rw [hother, spells_unique hspells (hread other hother).2]
  · obtain ⟨hspelled, hspells⟩ := hread wiring hwiring
    exact homeSwitch?_iff hspelled hspells.toSpellsConnectors

def endedSample : Settings where
  axisMapping := some "Xy_z"
  minEndswitch := some "XY"
  maxEndswitch := some "__zx"
  endswitchPolarity := some "H0_-"
  homeOrder := some "yX"

def endedWiring : Wiring where
  motorsOf := (((Register.fill []).set .x [⟨0, false⟩]).set .y [⟨1, true⟩]).set .z [⟨3, true⟩]
  drives := #v[some .x, some .y, none, some .z, none, none, none, none]
  switches := #v[some ⟨.x, .min, true, .high⟩, some ⟨.y, .min, true, .low⟩,
    some ⟨.z, .max, false, .high⟩, some ⟨.x, .max, false, .low⟩, none, none]
  homeOrder := [.y, .x]

/-- A letter that is none comes before a switch at both ends. -/
def crossedSample : Settings where
  minEndswitch := some "XQ"
  maxEndswitch := some "y"

theorem wiring_of_strings_sample :
    ofSettings endedSample = .ok endedWiring ∧
    endedSample.WellSpelled ∧ endedSample.Spells endedWiring ∧
    (∃! position, endedWiring.switchAt? position = some ⟨.y, .min, true, .low⟩) ∧
    ofSettings crossedSample = .error (.invalidAxisLetter .minEndswitch 1 'Q') := by
  obtain ⟨-, hread, hhome, -⟩ := wiring_of_strings endedSample
  obtain ⟨-, -, -, herror⟩ := wiring_of_strings crossedSample
  have hended : ofSettings endedSample = .ok endedWiring := by decide +kernel
  have hswitch := (hhome endedWiring hended .y ⟨.y, .min, true, .low⟩).mp (by decide +kernel)
  obtain ⟨hspelled, hspells⟩ := (hread endedWiring).mp hended
  exact ⟨hended, hspelled, hspells, hswitch.2.2, (herror _).mpr (by decide +kernel)⟩

end StepMotion.Wiring
