import StepMotion.Toml.Value

/-! Tables while a document is read. A table knows how it came to be, and that decides what may
still be added to it: one that only lies on the way to another may be opened by a header of its
own, one that dotted keys made may get more of them, and a value that is written out in one place
is closed. -/
namespace StepMotion.Toml

inductive Origin where
  | header
  /-- On the way to the table of a header. -/
  | path
  /-- On the way to the value of a dotted key. -/
  | dotted
  deriving DecidableEq, Repr

inductive Node where
  | closed (value : Value)
  | table (origin : Origin) (entries : List (String × Node))
  | tables (items : List (List (String × Node)))

abbrev Entries := List (String × Node)

namespace Entries

def find? (entries : Entries) (key : String) : Option Node := entries.lookup key

def put (key : String) (node : Node) : Entries → Entries
  | [] => [(key, node)]
  | entry :: rest => if entry.1 = key then (key, node) :: rest else entry :: put key node rest

/-- Changes the table at the end of a path. Tables that are missing on the way are made; dotted keys
pass only through tables that have no header. -/
def atPath (dotted : Bool) (change : Origin → Entries → Option Entries) :
    List String → Origin → Entries → Option Entries
  | [], origin, entries => change origin entries
  | key :: path, _, entries =>
    match entries.find? key with
    | none =>
      let origin := if dotted then Origin.dotted else Origin.path
      (atPath dotted change path origin []).map fun below => entries.put key (.table origin below)
    | some (.table origin below) =>
      if dotted ∧ origin = .header then none
      else (atPath dotted change path origin below).map fun below =>
        entries.put key (.table origin below)
    | some (.tables items) => do
      let last ← items.getLast?
      let below ← atPath dotted change path .header last
      return entries.put key (.tables (items.dropLast ++ [below]))
    | some (.closed _) => none

/-- Adds a value under a key that may be dotted. The table it goes to has to be one that dotted keys
made exactly if the key is dotted, and to lack the last part. -/
def insert (entries : Entries) (path : List String) (key : String) (value : Value) :
    Option Entries :=
  atPath true (fun origin entries =>
    if (origin = .dotted) ≠ (path ≠ []) ∨ (entries.find? key).isSome then none
    else some (entries ++ [(key, .closed value)])) path .header entries

def insertAll (entries : Entries) (items : List (List String × String × Value)) : Option Entries :=
  items.foldlM (fun entries item => entries.insert item.1 item.2.1 item.2.2) entries

def insertTable (entries : Entries) (path : List String) (key : String)
    (items : List (List String × String × Value)) : Option Entries :=
  atPath false (fun _ entries =>
    match entries.find? key with
    | none => (insertAll [] items).map fun table => entries.put key (.table .header table)
    | some (.table .path table) =>
      (insertAll table items).map fun table => entries.put key (.table .header table)
    | some _ => none) path .header entries

def insertTableItem (entries : Entries) (path : List String) (key : String)
    (items : List (List String × String × Value)) : Option Entries :=
  atPath false (fun _ entries => do
    let table ← insertAll [] items
    match entries.find? key with
    | none => some (entries.put key (.tables [table]))
    | some (.tables tables) => some (entries.put key (.tables (tables ++ [table])))
    | some _ => none) path .header entries

end Entries

namespace Node

mutual

def toValue : Node → Value
  | closed value => value
  | table _ entries => .table (toValues entries)
  | tables items => .array (toTables items)

def toValues : List (String × Node) → List (String × Value)
  | [] => []
  | (key, node) :: rest => (key, node.toValue) :: toValues rest

def toTables : List (List (String × Node)) → List Value
  | [] => []
  | entries :: rest => .table (toValues entries) :: toTables rest

end

end Node
end StepMotion.Toml
