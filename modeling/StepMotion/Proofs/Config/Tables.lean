import Mathlib
import StepMotion.Config.File
import StepMotion.Proofs.Axis

/-! What a configuration holds of the tables of its file. A file whose names are not all letters of
axes is refused with the first that is none, whatever the values are; else the values of the last
table for each axis are checked and kept. In the order of the names the small letter of an axis
comes after its capital, so that of two tables for an axis the one under the capital is dropped. -/
namespace StepMotion

namespace Axis

def smallName (axis : Axis) : String := axis.letter.toLower.toString

theorem name_lt_smallName (axis : Axis) : axis.name < axis.smallName := by
  cases axis <;> decide

end Axis

theorem AxisLimits.firstOffence?_ne_unknownAxis (limits : AxisLimits) (axis : Axis)
    (name : String) : limits.firstOffence? axis ≠ some (.unknownAxis name) := by
  unfold firstOffence?
  repeat' split
  all_goals simp

theorem MachineConfig.validate_ne_unknownAxis (config : MachineConfig) (name : String) :
    config.validate ≠ .error (.unknownAxis name) := by
  have haxes : (Axis.all.findSome? fun axis => (config.axes axis).firstOffence? axis) ≠
      some (.unknownAxis name) := by
    intro h
    obtain ⟨axis, -, haxis⟩ := List.exists_of_findSome?_eq_some h
    exact (config.axes axis).firstOffence?_ne_unknownAxis axis name haxis
  have hfirst : config.firstOffence? ≠ some (.unknownAxis name) := by
    unfold firstOffence?
    split
    · simp
    · split
      · simp
      · exact haxes
  unfold validate
  cases hoffence : config.firstOffence? with
  | none => simp
  | some offence => simpa [hoffence] using hfirst

namespace ConfigFile

section Names

theorem axisOfName?_eq_some_iff {name : String} {axis : Axis} :
    axisOfName? name = some axis ↔ name = axis.name ∨ name = axis.smallName := by
  have hsingle : ∀ letter : Char, name = letter.toString ↔ name.toList = [letter] := by
    intro letter
    rw [← String.toList_inj, Char.toString_eq_singleton, String.toList_singleton]
  rw [Axis.name, Axis.smallName, hsingle, hsingle, axisOfName?]
  split
  · next letter hname => simp [hname, Axis.ofLetter?_eq_some_iff]
  · next hname => exact iff_of_false (by simp) (by rintro (h | h) <;> exact hname _ h)

/-- The first name of a table that is no letter of an axis. -/
def unknownName? (file : ConfigFile) : Option String :=
  (file.axisTables.map Prod.fst).find? fun name => (axisOfName? name).isNone

theorem unknownName?_eq_none {file : ConfigFile} :
    file.unknownName? = none ↔
      ∀ table ∈ file.axisTables, ∃ axis : Axis, table.1 = axis.name ∨ table.1 = axis.smallName := by
  simp [unknownName?, Option.ne_none_iff_exists', axisOfName?_eq_some_iff]

theorem namedAxes_eq (tables : List (String × AxisLimits)) :
    namedAxes tables =
      match (tables.map Prod.fst).find? fun name => (axisOfName? name).isNone with
      | some name => .error (.unknownAxis name)
      | none => .ok (tables.filterMap fun table => (axisOfName? table.1).map (·, table.2)) := by
  induction tables with
  | nil => rfl
  | cons table rest ih =>
    rw [namedAxes, List.mapM_cons, ← namedAxes, ih]
    cases haxis : axisOfName? table.1 with
    | none => simp [haxis, bind, Except.bind]
    | some axis =>
      simp only [List.map_cons, List.find?_cons, List.filterMap_cons, haxis]
      cases (rest.map Prod.fst).find? fun name => (axisOfName? name).isNone <;> rfl

end Names

section Merge

def tablesOf (file : ConfigFile) (axis : Axis) : List (String × AxisLimits) :=
  file.axisTables.filter fun table => axisOfName? table.1 = some axis

/-- The settings of a file with the limits of the last table for each axis. -/
def merged (file : ConfigFile) : MachineConfig :=
  { file.toSettings with
    axes := .ofFn fun axis => ((file.tablesOf axis).getLast?.map Prod.snd).getD {} }

theorem filter_named (tables : List (String × AxisLimits)) (axis : Axis) :
    ((tables.filterMap fun table => (axisOfName? table.1).map (·, table.2)).filter
        fun entry => entry.1 = axis) =
      (tables.filter fun table => axisOfName? table.1 = some axis).map
        fun table => (axis, table.2) := by
  induction tables with
  | nil => rfl
  | cons table rest ih =>
    cases hname : axisOfName? table.1 with
    | none => simpa [hname] using ih
    | some other =>
      by_cases hsame : other = axis
      · simpa [hname, hsame] using ih
      · simpa [hname, hsame] using ih

theorem override_named (file : ConfigFile) :
    (Register.fill {}).override (file.axisTables.filterMap fun table =>
      (axisOfName? table.1).map (·, table.2)) = file.merged.axes := by
  refine Register.ext fun axis => ?_
  rw [Register.get_override, filter_named, List.getLast?_map, Option.map_map]
  simp [merged, tablesOf, Function.comp_def]

theorem toConfig_eq (file : ConfigFile) :
    file.toConfig =
      match file.unknownName? with
      | some name => .error (.unknownAxis name)
      | none => file.merged.validate.map fun _ => file.merged := by
  rw [toConfig, namedAxes_eq, ← unknownName?]
  cases file.unknownName? with
  | some name => rfl
  | none =>
    have hchecked : ∀ config : MachineConfig, config = file.merged →
        (do config.validate; return config : Except ConfigError MachineConfig) =
          file.merged.validate.map fun _ => file.merged := by
      rintro _ rfl
      cases file.merged.validate <;> rfl
    exact hchecked _ (congrArg (MachineConfig.mk file.toSettings) file.override_named)

end Merge

section Order

/-- The tables stand in the order of their names, each name once. -/
def InKeyOrder (file : ConfigFile) : Prop :=
  (file.axisTables.map Prod.fst).Pairwise (· < ·)

instance (file : ConfigFile) : Decidable file.InKeyOrder :=
  inferInstanceAs (Decidable (List.Pairwise _ _))

variable {file : ConfigFile} {axis : Axis}

theorem getLast?_of_le {tables : List (String × AxisLimits)} {table : String × AxisLimits}
    (horder : (tables.map Prod.fst).Pairwise (· < ·)) (hmem : table ∈ tables)
    (hlast : ∀ other ∈ tables, other.1 ≤ table.1) : tables.getLast? = some table := by
  obtain ⟨before, after, rfl⟩ := List.append_of_mem hmem
  cases after with
  | nil => exact List.getLast?_concat
  | cons next rest =>
    rw [List.map_append, List.map_cons, List.map_cons, List.pairwise_append] at horder
    have hnext : table.1 < next.1 := List.rel_of_pairwise_cons horder.2.1 List.mem_cons_self
    exact absurd (hlast next (by simp)) (not_le.mpr hnext)

theorem mem_tablesOf {table : String × AxisLimits} :
    table ∈ file.tablesOf axis ↔
      table ∈ file.axisTables ∧ (table.1 = axis.name ∨ table.1 = axis.smallName) := by
  rw [tablesOf, List.mem_filter, decide_eq_true_eq, axisOfName?_eq_some_iff]

theorem InKeyOrder.merged_axes (h : file.InKeyOrder) {table : String × AxisLimits}
    (hmem : table ∈ file.tablesOf axis) (hlast : ∀ other ∈ file.tablesOf axis, other.1 ≤ table.1) :
    file.merged.axes axis = table.2 := by
  have horder : ((file.tablesOf axis).map Prod.fst).Pairwise (· < ·) :=
    h.sublist (List.filter_sublist.map Prod.fst)
  simp [merged, getLast?_of_le horder hmem hlast]

/-- A configuration with the settings of a file and, for each axis, the limits of its table. Of two
tables for an axis it holds the one under the small letter. -/
structure HeldBy (file : ConfigFile) (config : MachineConfig) : Prop where
  settings : config.toSettings = file.toSettings
  small : ∀ axis limits, (axis.smallName, limits) ∈ file.axisTables → config.axes axis = limits
  capital : ∀ axis limits, (axis.name, limits) ∈ file.axisTables →
    (∀ other, (axis.smallName, other) ∉ file.axisTables) → config.axes axis = limits
  unnamed : ∀ axis, (∀ limits, (axis.name, limits) ∉ file.axisTables) →
    (∀ limits, (axis.smallName, limits) ∉ file.axisTables) → config.axes axis = {}

theorem InKeyOrder.heldBy_merged (h : file.InKeyOrder) : file.HeldBy file.merged where
  settings := rfl
  small axis limits hmem := by
    refine h.merged_axes (mem_tablesOf.mpr ⟨hmem, .inr rfl⟩) fun other hother => ?_
    rcases (mem_tablesOf.mp hother).2 with hname | hname
    · exact hname ▸ axis.name_lt_smallName.le
    · exact hname.le
  capital axis limits hmem hnone := by
    refine h.merged_axes (mem_tablesOf.mpr ⟨hmem, .inl rfl⟩) fun other hother => ?_
    obtain ⟨hother, hname | hname⟩ := mem_tablesOf.mp hother
    · exact hname.le
    · exact absurd (hname ▸ hother) (hnone other.2)
  unnamed axis hcapital hsmall := by
    have hempty : file.tablesOf axis = [] := by
      refine List.eq_nil_iff_forall_not_mem.mpr fun table htable => ?_
      obtain ⟨hmem, hname | hname⟩ := mem_tablesOf.mp htable
      · exact hcapital table.2 (hname ▸ hmem)
      · exact hsmall table.2 (hname ▸ hmem)
    simp [merged, hempty]

theorem InKeyOrder.heldBy_iff (h : file.InKeyOrder) {config : MachineConfig} :
    file.HeldBy config ↔ config = file.merged := by
  refine ⟨fun hheld => ?_, fun hconfig => hconfig ▸ h.heldBy_merged⟩
  have haxes : config.axes = file.merged.axes := by
    refine Register.ext fun axis => ?_
    by_cases hsmall : ∃ limits, (axis.smallName, limits) ∈ file.axisTables
    · obtain ⟨limits, hmem⟩ := hsmall
      rw [hheld.small axis limits hmem, h.heldBy_merged.small axis limits hmem]
    · rw [not_exists] at hsmall
      by_cases hcapital : ∃ limits, (axis.name, limits) ∈ file.axisTables
      · obtain ⟨limits, hmem⟩ := hcapital
        rw [hheld.capital axis limits hmem hsmall, h.heldBy_merged.capital axis limits hmem hsmall]
      · rw [not_exists] at hcapital
        rw [hheld.unnamed axis hcapital hsmall, h.heldBy_merged.unnamed axis hcapital hsmall]
  obtain ⟨settings, axes⟩ := config
  exact (MachineConfig.mk.injEq ..).mpr ⟨hheld.settings, haxes⟩

end Order

theorem toConfig_eq_unknownAxis_iff {file : ConfigFile} {name : String} :
    file.toConfig = .error (.unknownAxis name) ↔ file.unknownName? = some name := by
  rw [toConfig_eq]
  cases file.unknownName? with
  | some first => simp
  | none =>
    have hvalid := file.merged.validate_ne_unknownAxis name
    cases hcheck : file.merged.validate <;> simp_all [Except.map]

theorem InKeyOrder.toConfig_eq_ok_iff {file : ConfigFile} (h : file.InKeyOrder)
    {config : MachineConfig} :
    file.toConfig = .ok config ↔ file.HeldBy config ∧ config.validate = .ok () ∧
      ∀ table ∈ file.axisTables, ∃ axis : Axis,
        table.1 = axis.name ∨ table.1 = axis.smallName := by
  rw [toConfig_eq, ← unknownName?_eq_none, h.heldBy_iff]
  cases file.unknownName? with
  | some name => simp
  | none =>
    constructor
    · intro hmap
      cases hvalid : file.merged.validate with
      | error error => simp [hvalid, Except.map] at hmap
      | ok =>
        obtain rfl : file.merged = config := by simpa [hvalid, Except.map] using hmap
        exact ⟨rfl, hvalid, rfl⟩
    · rintro ⟨rfl, hvalid, -⟩
      simp [hvalid, Except.map]

/-- A file is a configuration if its names are letters of axes and its values pass the check; the
configuration then has the settings of the file and the limits of its tables. Else the error is that
of the first unknown name, or without one that of the check. An axis with tables under both of its
letters has the limits of the small one, and the table under the capital is lost. -/
theorem configuration_of_file {file : ConfigFile} (h : file.InKeyOrder) :
    (∀ name, file.toConfig = .error (.unknownAxis name) ↔ file.unknownName? = some name) ∧
    (file.unknownName? = none → ∃ config, file.HeldBy config ∧
      ∀ error, file.toConfig = .error error ↔ config.validate = .error error) ∧
    ∀ config, (file.toConfig = .ok config ↔ file.HeldBy config ∧ config.validate = .ok () ∧
        ∀ table ∈ file.axisTables, ∃ axis : Axis,
          table.1 = axis.name ∨ table.1 = axis.smallName) ∧
      (file.toConfig = .ok config →
        (∀ axis capital small, (Axis.name axis, capital) ∈ file.axisTables →
          (axis.smallName, small) ∉ file.axisTables) →
        ∀ table ∈ file.axisTables, ∃ axis, axisOfName? table.1 = some axis ∧
          config.axes axis = table.2) := by
  refine ⟨fun name => toConfig_eq_unknownAxis_iff, fun hknown => ⟨file.merged, h.heldBy_merged, fun error => ?_⟩,
    fun config => ⟨h.toConfig_eq_ok_iff, fun hconfig honce table htable => ?_⟩⟩
  · rw [toConfig_eq, hknown]
    cases file.merged.validate <;> simp [Except.map]
  · obtain ⟨hheld, -, hnames⟩ := h.toConfig_eq_ok_iff.mp hconfig
    obtain ⟨name, limits⟩ := table
    obtain ⟨axis, hname⟩ := hnames _ htable
    refine ⟨axis, axisOfName?_eq_some_iff.mpr hname, ?_⟩
    rcases hname with rfl | rfl
    · exact hheld.capital axis limits htable fun small => honce axis limits small htable
    · exact hheld.small axis limits htable

def sampleLimits : AxisLimits where
  stepsPerMm := 80.0
  maxFeedrate := 200.0
  acceleration := 2000.0

def negativeLimits : AxisLimits where
  stepsPerMm := -1.0

def namedSample : ConfigFile where
  axisTables := [("X", sampleLimits), ("y", { sampleLimits with range := 200.0 })]

/-- A name that is no letter, and values that are not looked at. -/
def misnamedSample : ConfigFile where
  axisTables := [("X", negativeLimits), ("XY", {}), ("q", {})]

theorem configuration_of_file_sample :
    (∃ config, namedSample.toConfig = .ok config ∧
      config.axes .y = { sampleLimits with range := 200.0 } ∧ config.axes .z = {}) ∧
    misnamedSample.toConfig = .error (.unknownAxis "XY") := by
  have horder : namedSample.InKeyOrder := by decide
  have hmisnamed : misnamedSample.InKeyOrder := by decide
  obtain ⟨-, hchecked, hloaded⟩ := configuration_of_file horder
  obtain ⟨config, hheld, -⟩ := hchecked (by decide)
  have hvalid : namedSample.merged.firstOffence? = none := by decide +kernel
  have hvalidate : config.validate = .ok () := by
    rw [horder.heldBy_iff.mp hheld, MachineConfig.validate, hvalid]
  have hnames := unknownName?_eq_none.mp (show namedSample.unknownName? = none by decide)
  refine ⟨⟨config, (hloaded config).1.mpr ⟨hheld, hvalidate, hnames⟩, ?_, ?_⟩, ?_⟩
  · exact hheld.small .y _ (by simp [namedSample, Axis.smallName, Axis.letter])
  · exact hheld.unnamed .z (by simp [namedSample, Axis.name, Axis.letter])
      (by simp [namedSample, Axis.smallName, Axis.letter])
  · exact ((configuration_of_file hmisnamed).1 "XY").mpr (by decide)

/-- The axis is named twice, and the values under the capital are unusable. -/
def doubledSample : ConfigFile where
  axisTables := [("X", negativeLimits), ("x", sampleLimits)]

/-- A file with a table that is neither held nor refused. -/
theorem capital_table_lost :
    doubledSample.InKeyOrder ∧ ∃ config, doubledSample.toConfig = .ok config ∧
      ∃ table ∈ doubledSample.axisTables, axisOfName? table.1 = some .x ∧
        config.axes .x ≠ table.2 := by
  have hvalid : doubledSample.merged.firstOffence? = none := by decide +kernel
  have hpositive : ¬ (doubledSample.merged.axes .x).stepsPerMm < 0.0 := by decide +kernel
  have hnegative : negativeLimits.stepsPerMm < 0.0 := by decide +kernel
  refine ⟨by decide, doubledSample.merged, ?_, ("X", negativeLimits), ?_, by decide, ?_⟩
  · have hknown : doubledSample.unknownName? = none := by decide
    rw [toConfig_eq, hknown, MachineConfig.validate, hvalid]
    rfl
  · exact List.mem_cons_self
  · intro hsame
    rw [hsame] at hpositive
    exact hpositive hnegative

end ConfigFile
end StepMotion
