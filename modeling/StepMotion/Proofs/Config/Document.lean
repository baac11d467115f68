import Mathlib
import StepMotion.Config.Document
import StepMotion.Proofs.Config.Tables
import StepMotion.Proofs.Toml.Keys

/-! Configurations that a text spells. The tables of the axes are in the order of their names: they
are the entries of one table of the document, in which no key comes twice, after sorting. So what is
known of files in this order holds of every text. -/
namespace StepMotion

namespace ConfigFile

open Toml (Value KeysOnce)

variable {entries : List (String × Value)} {tables : List (String × AxisLimits)}

theorem map_fst_of_mapM {limits? : Value → Option AxisLimits}
    (h : entries.mapM (fun entry => (limits? entry.2).map (entry.1, ·)) = some tables) :
    tables.map Prod.fst = entries.map Prod.fst := by
  induction entries generalizing tables with
  | nil =>
    obtain rfl := Option.some.inj h
    rfl
  | cons entry rest ih =>
    rw [List.mapM_cons] at h
    obtain ⟨table, htable, h⟩ := Option.bind_eq_some_iff.mp h
    obtain ⟨others, hothers, h⟩ := Option.bind_eq_some_iff.mp h
    obtain ⟨limits, -, rfl⟩ := Option.map_eq_some_iff.mp htable
    obtain rfl := Option.some.inj h
    rw [List.map_cons, List.map_cons, ih hothers]

theorem pairwise_lt_mergeSort (h : (tables.map Prod.fst).Nodup) :
    ((tables.mergeSort fun a b => decide (a.1 ≤ b.1)).map Prod.fst).Pairwise (· < ·) := by
  have hperm := List.mergeSort_perm tables fun a b => decide (a.1 ≤ b.1)
  have honce := (hperm.map Prod.fst).nodup_iff.mpr h
  have hsorted := @List.pairwise_mergeSort _ (fun a b => decide (a.1 ≤ b.1))
    (fun a b c hab hbc => by simpa using le_trans (of_decide_eq_true hab) (of_decide_eq_true hbc))
    (fun a b => by simpa using le_total a.1 b.1) tables
  have hle := List.pairwise_map.mpr (hsorted.imp of_decide_eq_true)
  exact hle.imp₂ (fun a b => lt_of_le_of_ne) honce

theorem pairwise_lt_of_axisTablesOf? {value : Value} (hvalue : value.IsTidy)
    (h : axisTablesOf? value = some tables) : (tables.map Prod.fst).Pairwise (· < ·) := by
  unfold axisTablesOf? at h
  split at h
  · next entries =>
    obtain ⟨named, hnamed, h⟩ := Option.bind_eq_some_iff.mp h
    obtain rfl := Option.some.inj h
    have honce : KeysOnce entries := hvalue entries rfl
    exact pairwise_lt_mergeSort (map_fst_of_mapM hnamed ▸ honce)
  · contradiction

theorem InKeyOrder.withEntry? {file next : ConfigFile} (hfile : file.InKeyOrder)
    {entry : String × Value} (hvalue : entry.2.IsTidy) (h : file.withEntry? entry = some next) :
    next.InKeyOrder := by
  unfold ConfigFile.withEntry? at h
  dsimp only at h
  split at h
  -- Only the tables of the axes matter; every other entry keeps them.
  all_goals try
    obtain ⟨setting, -, rfl⟩ := Option.map_eq_some_iff.mp h
    exact hfile
  · obtain ⟨tables, htables, rfl⟩ := Option.map_eq_some_iff.mp h
    exact pairwise_lt_of_axisTablesOf? hvalue htables
  · split at h
    · exact Option.some.inj h ▸ hfile
    · contradiction

theorem InKeyOrder.foldlM {start file : ConfigFile} (hstart : start.InKeyOrder)
    (hvalues : ∀ entry ∈ entries, entry.2.IsTidy)
    (h : entries.foldlM ConfigFile.withEntry? start = some file) : file.InKeyOrder := by
  induction entries generalizing start with
  | nil => exact Option.some.inj h ▸ hstart
  | cons entry rest ih =>
    obtain ⟨hentry, hrest⟩ := List.forall_mem_cons.mp hvalues
    obtain ⟨next, hnext, hread⟩ := Option.bind_eq_some_iff.mp h
    exact ih (hstart.withEntry? hentry hnext) hrest hread

/-- A file that a text spells is in the order of its names. -/
theorem inKeyOrder_of_read? {text : String} {file : ConfigFile} (h : read? text = some file) :
    file.InKeyOrder := by
  obtain ⟨document, hdocument, h⟩ := Option.bind_eq_some_iff.mp h
  have hempty : ({} : ConfigFile).InKeyOrder := List.Pairwise.nil
  exact hempty.foldlM (Toml.Document.keysOnce_of_read? hdocument).2 h

end ConfigFile

open ConfigFile

/-- A text spells a configuration if it spells a file, the names of its tables are letters of axes
and what the configuration holds of them passes the check. -/
theorem configuration_of_text (text : String) :
    (∀ config, MachineConfig.parse text = .ok config ↔
      ∃ file, ConfigFile.read? text = some file ∧ file.HeldBy config ∧ config.validate = .ok () ∧
        ∀ table ∈ file.axisTables, ∃ axis : Axis,
          table.1 = axis.name ∨ table.1 = axis.smallName) ∧
    ∀ name, MachineConfig.parse text = .error (.unknownAxis name) ↔
      ∃ file, ConfigFile.read? text = some file ∧ file.unknownName? = some name := by
  unfold MachineConfig.parse
  cases hread : ConfigFile.read? text with
  | none => simp
  | some file =>
    have horder := inKeyOrder_of_read? hread
    simp [horder.toConfig_eq_ok_iff, toConfig_eq_unknownAxis_iff]

end StepMotion
