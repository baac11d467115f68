import Mathlib
import StepMotion.Toml.Document

/-! The keys of tables. A key is added to a table that lacks it, or what stands under it is changed
in its place, so that no table has a key twice, as long as it is read and afterwards. -/
namespace StepMotion.Toml

def KeysOnce {α : Type} (entries : List (String × α)) : Prop := (entries.map Prod.fst).Nodup

def Value.IsTidy (value : Value) : Prop := ∀ entries, value = .table entries → KeysOnce entries

theorem isTidy_table {entries : List (String × Value)} (h : KeysOnce entries) :
    (Value.table entries).IsTidy := by
  rintro _ ⟨⟩
  exact h

def Node.IsTidy : Node → Prop
  | .closed value => value.IsTidy
  | .table _ entries => KeysOnce entries
  | .tables _ => True

namespace Entries

variable {entries below : Entries} {key : String} {node : Node}

section Put

theorem map_fst_put (key : String) (node : Node) (entries : Entries) :
    (entries.put key node).map Prod.fst =
      if key ∈ entries.map Prod.fst then entries.map Prod.fst
      else entries.map Prod.fst ++ [key] := by
  induction entries with
  | nil => rfl
  | cons entry rest ih =>
    by_cases hsame : entry.1 = key
    · simp [put, hsame]
    · by_cases hin : key ∈ rest.map Prod.fst <;> simp_all [put, Ne.symm hsame]

theorem keysOnce_put (h : KeysOnce entries) (key : String) (node : Node) :
    KeysOnce (entries.put key node) := by
  unfold KeysOnce at h ⊢
  rw [map_fst_put]
  split
  · exact h
  · next hnew => exact List.nodup_append.mpr ⟨h, List.nodup_singleton key, by grind⟩

theorem mem_of_mem_put {entry : String × Node} (h : entry ∈ entries.put key node) :
    entry = (key, node) ∨ entry ∈ entries := by
  induction entries with
  | nil => exact .inl (List.mem_singleton.mp h)
  | cons first rest ih =>
    unfold put at h
    split at h
    · exact (List.mem_cons.mp h).imp_right (List.mem_cons_of_mem first)
    · rcases List.mem_cons.mp h with rfl | hrest
      · exact .inr List.mem_cons_self
      · exact (ih hrest).imp_right (List.mem_cons_of_mem first)

theorem mem_of_find? (h : entries.find? key = some node) : (key, node) ∈ entries := by
  obtain ⟨before, after, rfl, -⟩ := List.lookup_eq_some_iff.mp h
  exact List.mem_append_right before List.mem_cons_self

theorem notMem_of_find? (h : entries.find? key = none) : key ∉ entries.map Prod.fst := by
  rintro hmem
  obtain ⟨entry, hentry, rfl⟩ := List.mem_map.mp hmem
  simpa using List.lookup_eq_none_iff.mp h entry hentry

end Put

section Tidy

/-- No key comes twice in the entries, nor in a table among them. -/
structure Tidy (entries : Entries) : Prop where
  once : KeysOnce entries
  nodes : ∀ entry ∈ entries, entry.2.IsTidy

theorem tidy_nil : Tidy [] := ⟨List.nodup_nil, by simp⟩

theorem Tidy.put (h : Tidy entries) (key : String) (hnode : node.IsTidy) :
    Tidy (entries.put key node) := by
  refine ⟨keysOnce_put h.once key node, fun entry hentry => ?_⟩
  rcases mem_of_mem_put hentry with rfl | hold
  · exact hnode
  · exact h.nodes entry hold

variable {dotted : Bool} {change : Origin → Entries → Option Entries} {path : List String}
  {origin : Origin}

/-- The table at the front of a path keeps its keys, and the table at its end has those that the
change gives it. -/
theorem keysOnce_atPath
    (hchange : ∀ origin entries changed, change origin entries = some changed →
      KeysOnce entries → KeysOnce changed)
    {changed : Entries} (h : atPath dotted change path origin entries = some changed)
    (hentries : KeysOnce entries) : KeysOnce changed := by
  cases path with
  | nil => exact hchange origin entries changed h hentries
  | cons key path =>
    unfold atPath at h
    split at h
    · obtain ⟨below, -, rfl⟩ := Option.map_eq_some_iff.mp h
      exact keysOnce_put hentries key _
    · split at h
      · contradiction
      · obtain ⟨below, -, rfl⟩ := Option.map_eq_some_iff.mp h
        exact keysOnce_put hentries key _
    · obtain ⟨last, -, h⟩ := Option.bind_eq_some_iff.mp h
      obtain ⟨below, -, h⟩ := Option.bind_eq_some_iff.mp h
      obtain rfl := Option.some.inj h
      exact keysOnce_put hentries key _
    · contradiction

theorem Tidy.atPath
    (hchange : ∀ origin entries changed, change origin entries = some changed →
      KeysOnce entries → KeysOnce changed)
    (htidy : ∀ origin entries changed, change origin entries = some changed →
      Tidy entries → Tidy changed)
    {changed : Entries} (h : Entries.atPath dotted change path origin entries = some changed)
    (hentries : Tidy entries) : Tidy changed := by
  cases path with
  | nil => exact htidy origin entries changed h hentries
  | cons key path =>
    unfold Entries.atPath at h
    split at h
    · obtain ⟨below, hbelow, rfl⟩ := Option.map_eq_some_iff.mp h
      exact hentries.put key (keysOnce_atPath hchange hbelow List.nodup_nil)
    · next inner below hfind =>
      split at h
      · contradiction
      · obtain ⟨table, htable, rfl⟩ := Option.map_eq_some_iff.mp h
        exact hentries.put key
          (keysOnce_atPath hchange htable (hentries.nodes _ (mem_of_find? hfind)))
    · obtain ⟨last, -, h⟩ := Option.bind_eq_some_iff.mp h
      obtain ⟨below, -, h⟩ := Option.bind_eq_some_iff.mp h
      obtain rfl := Option.some.inj h
      exact hentries.put key trivial
    · contradiction

end Tidy

section Insert

variable {changed : Entries} {path : List String} {value : Value}
  {items : List (List String × String × Value)}

theorem keysOnce_concat (h : KeysOnce entries) (hnew : entries.find? key = none) (node : Node) :
    KeysOnce (entries ++ [(key, node)]) := by
  have hkey := notMem_of_find? hnew
  unfold KeysOnce at h ⊢
  rw [List.map_append]
  exact List.nodup_append.mpr ⟨h, List.nodup_singleton key, by grind⟩

theorem eq_concat_of_insert {origin : Origin}
    (h : (if (origin = .dotted) ≠ (path ≠ []) ∨ (entries.find? key).isSome then none
      else some (entries ++ [(key, Node.closed value)])) = some changed) :
    entries.find? key = none ∧ changed = entries ++ [(key, .closed value)] := by
  split at h
  · contradiction
  · next hfree => exact ⟨by simpa using (not_or.mp hfree).2, (Option.some.inj h).symm⟩

theorem keysOnce_insert (h : entries.insert path key value = some changed)
    (hentries : KeysOnce entries) : KeysOnce changed := by
  refine keysOnce_atPath (fun origin entries changed h hentries => ?_) h hentries
  obtain ⟨hfree, rfl⟩ := eq_concat_of_insert h
  exact keysOnce_concat hentries hfree _

theorem Tidy.insert (hentries : Tidy entries) (h : entries.insert path key value = some changed)
    (hvalue : value.IsTidy) : Tidy changed := by
  refine Tidy.atPath (fun origin entries changed h hentries => ?_)
    (fun origin entries changed h hentries => ?_) h hentries
  · obtain ⟨hfree, rfl⟩ := eq_concat_of_insert h
    exact keysOnce_concat hentries hfree _
  · obtain ⟨hfree, rfl⟩ := eq_concat_of_insert h
    exact ⟨keysOnce_concat hentries.once hfree _, List.forall_mem_append.mpr
      ⟨hentries.nodes, List.forall_mem_singleton.mpr hvalue⟩⟩

theorem keysOnce_insertAll (h : entries.insertAll items = some changed)
    (hentries : KeysOnce entries) : KeysOnce changed := by
  induction items generalizing entries with
  | nil => exact Option.some.inj h ▸ hentries
  | cons item rest ih =>
    obtain ⟨next, hnext, hrest⟩ := Option.bind_eq_some_iff.mp h
    exact ih hrest (keysOnce_insert hnext hentries)

theorem Tidy.insertAll (hentries : Tidy entries) (h : entries.insertAll items = some changed)
    (hitems : ∀ item ∈ items, item.2.2.IsTidy) : Tidy changed := by
  induction items generalizing entries with
  | nil => exact Option.some.inj h ▸ hentries
  | cons item rest ih =>
    obtain ⟨hitem, hrestItems⟩ := List.forall_mem_cons.mp hitems
    obtain ⟨next, hnext, hrest⟩ := Option.bind_eq_some_iff.mp h
    exact ih (hentries.insert hnext hitem) hrest hrestItems

theorem Tidy.insertTable (hentries : Tidy entries)
    (h : entries.insertTable path key items = some changed) : Tidy changed := by
  refine Tidy.atPath (fun origin entries changed h hentries => ?_)
    (fun origin entries changed h hentries => ?_) h hentries
  · split at h
    · obtain ⟨table, -, rfl⟩ := Option.map_eq_some_iff.mp h
      exact keysOnce_put hentries key _
    · obtain ⟨table, -, rfl⟩ := Option.map_eq_some_iff.mp h
      exact keysOnce_put hentries key _
    · contradiction
  · split at h
    · obtain ⟨table, htable, rfl⟩ := Option.map_eq_some_iff.mp h
      exact hentries.put key (keysOnce_insertAll htable List.nodup_nil)
    · next below hfind =>
      obtain ⟨table, htable, rfl⟩ := Option.map_eq_some_iff.mp h
      exact hentries.put key
        (keysOnce_insertAll htable (hentries.nodes _ (mem_of_find? hfind)))
    · contradiction

theorem Tidy.insertTableItem (hentries : Tidy entries)
    (h : entries.insertTableItem path key items = some changed) : Tidy changed := by
  refine Tidy.atPath (fun origin entries changed h hentries => ?_)
    (fun origin entries changed h hentries => ?_) h hentries
  all_goals
    obtain ⟨table, -, h⟩ := Option.bind_eq_some_iff.mp h
    split at h
  · obtain rfl := Option.some.inj h
    exact keysOnce_put hentries key _
  · obtain rfl := Option.some.inj h
    exact keysOnce_put hentries key _
  · contradiction
  · obtain rfl := Option.some.inj h
    exact hentries.put key trivial
  · obtain rfl := Option.some.inj h
    exact hentries.put key trivial
  · contradiction

end Insert

end Entries

section Answers

variable {α : Type}

def Answers (value? : Option Value) : Prop := ∀ value, value? = some value → value.IsTidy

theorem answers_none : Answers none := by
  rintro value h
  contradiction

theorem answers_some {value : Value} (h : value.IsTidy) : Answers (some value) := by
  rintro other hother
  exact Option.some.inj hother ▸ h

theorem answers_bind {first : Option α} {next : α → Option Value}
    (h : ∀ result, Answers (next result)) : Answers (first >>= next) := by
  cases first with
  | none => exact answers_none
  | some result => exact h result

theorem isTidy_ite {p : Prop} [Decidable p] {first second : Value} (hfirst : first.IsTidy)
    (hsecond : second.IsTidy) : (if p then first else second).IsTidy := by
  split
  · exact hfirst
  · exact hsecond

end Answers

namespace Scalar

theorem isTidy_ofInt (n : Int) : (ofInt n).IsTidy := by
  unfold ofInt
  exact isTidy_ite nofun nofun

theorem answers_based? (base : Nat) (isDigit : Char → Bool) (cs : List Char) :
    Answers (based? base isDigit cs) := by
  unfold based?
  split
  · exact answers_some nofun
  · cases ungroup? isDigit cs with
    | none => exact answers_none
    | some digits => exact answers_some (isTidy_ofInt _)

theorem answers_integer? (cs : List Char) : Answers (integer? cs) := by
  unfold integer?
  split
  · exact answers_based? _ _ _
  · exact answers_based? _ _ _
  · exact answers_based? _ _ _
  · dsimp only
    split
    · exact answers_none
    · exact answers_some (isTidy_ite nofun (isTidy_ofInt _))

theorem answers_float? (cs : List Char) : Answers (float? cs) := by
  unfold float?
  dsimp only
  split
  · exact answers_some nofun
  · split
    · exact answers_some nofun
    -- Whatever is looked at before, what is read in the end is a float or no number.
    · repeat' first
        | exact answers_none
        | exact answers_some (isTidy_ite nofun nofun)
        | refine answers_bind fun _ => ?_
        | split

theorem answers_read? (cs : List Char) : Answers (read? cs) := by
  unfold read?
  split
  · exact answers_some nofun
  · split
    · exact answers_some nofun
    · split
      · exact answers_some nofun
      · cases hinteger : integer? cs with
        | some value => exact answers_some (answers_integer? cs value hinteger)
        | none => exact answers_float? cs

end Scalar

namespace Document

variable {tokens rest : List Token} {value : Value} {fuel depth : Nat} {entries : Entries}

theorem keysOnce_toValues (h : KeysOnce entries) :
    KeysOnce (Node.toValues entries) := by
  have hkeys : (Node.toValues entries).map Prod.fst = entries.map Prod.fst := by
    clear h
    induction entries with
    | nil => rfl
    | cons entry rest ih => rw [Node.toValues, List.map_cons, List.map_cons, ih]
  rw [KeysOnce, hkeys]
  exact h

/-- What is in an array does not matter here, only that it is one. -/
theorem isTidy_of_items? {items : List Value}
    (h : items? fuel depth items tokens = some (value, rest)) : value.IsTidy := by
  induction fuel generalizing items tokens with
  | zero =>
    unfold items? at h
    contradiction
  | succ fuel ih =>
    unfold items? at h
    split at h
    · contradiction
    · cases Option.some.inj h
      exact nofun
    · next hfuel _ =>
      obtain rfl := Nat.succ.inj hfuel
      obtain ⟨⟨item, after⟩, -, h⟩ := Option.bind_eq_some_iff.mp h
      dsimp only at h
      split at h
      · exact ih h
      · cases Option.some.inj h
        exact nofun
      · contradiction

theorem isTidy_of_fields? (hentries : KeysOnce entries)
    (h : fields? fuel depth entries tokens = some (value, rest)) : value.IsTidy := by
  induction fuel generalizing entries tokens with
  | zero =>
    unfold fields? at h
    contradiction
  | succ fuel ih =>
    unfold fields? at h
    split at h
    · contradiction
    · cases Option.some.inj h
      exact isTidy_table (keysOnce_toValues hentries)
    · next hfuel _ =>
      obtain rfl := Nat.succ.inj hfuel
      obtain ⟨⟨⟨path, key⟩, after⟩, -, h⟩ := Option.bind_eq_some_iff.mp h
      dsimp only at h
      split at h
      · obtain ⟨after, -, h⟩ := Option.bind_eq_some_iff.mp h
        obtain ⟨⟨field, after⟩, -, h⟩ := Option.bind_eq_some_iff.mp h
        obtain ⟨changed, hinsert, h⟩ := Option.bind_eq_some_iff.mp h
        have hchanged := Entries.keysOnce_insert hinsert hentries
        split at h
        · exact ih hchanged h
        · cases Option.some.inj h
          exact isTidy_table (keysOnce_toValues hchanged)
        · contradiction
      · obtain ⟨after, hnone, -⟩ := Option.bind_eq_some_iff.mp h
        contradiction

theorem isTidy_of_value? (h : value? fuel depth tokens = some (value, rest)) : value.IsTidy := by
  unfold value? at h
  split at h
  · contradiction
  · cases Option.some.inj h
    exact nofun
  · split at h
    · contradiction
    · exact isTidy_of_items? h
  · split at h
    · contradiction
    · have hnothing : KeysOnce ([] : Entries) := List.nodup_nil
      exact isTidy_of_fields? hnothing h
  · obtain ⟨found, hfound, h⟩ := Option.bind_eq_some_iff.mp h
    cases Option.some.inj h
    exact Scalar.answers_read? _ value hfound

theorem isTidy_of_item? {item : Item} (h : item? tokens = some (item, rest)) :
    item.2.2.IsTidy := by
  obtain ⟨⟨⟨path, key⟩, after⟩, -, h⟩ := Option.bind_eq_some_iff.mp h
  dsimp only at h
  split at h
  · obtain ⟨⟨found, after⟩, hfound, h⟩ := Option.bind_eq_some_iff.mp h
    obtain ⟨after, -, h⟩ := Option.bind_eq_some_iff.mp h
    cases Option.some.inj h
    exact isTidy_of_value? hfound
  · contradiction

theorem tidy_of_addTo {part : Section} {changed : Entries}
    (h : part.addTo entries = some changed) (hitems : ∀ item ∈ part.items, item.2.2.IsTidy)
    (hentries : entries.Tidy) : changed.Tidy := by
  unfold Section.addTo at h
  split at h
  · exact hentries.insertAll h hitems
  · exact hentries.insertTable h
  · exact hentries.insertTableItem h

/-- Line by line the tables before the open section and the values in it stay tidy. -/
theorem tidy_of_lines? {part : Section} {document : Entries}
    (h : lines? fuel part entries tokens = some document)
    (hitems : ∀ item ∈ part.items, item.2.2.IsTidy) (hentries : entries.Tidy) :
    document.Tidy := by
  induction fuel generalizing part entries tokens with
  | zero =>
    unfold lines? at h
    split at h
    · exact tidy_of_addTo h hitems hentries
    all_goals contradiction
  | succ fuel ih =>
    unfold lines? at h
    split at h
    · exact tidy_of_addTo h hitems hentries
    · contradiction
    · next hfuel _ =>
      obtain rfl := Nat.succ.inj hfuel
      obtain ⟨next, hnext, h⟩ := Option.bind_eq_some_iff.mp h
      obtain ⟨⟨header, after⟩, -, h⟩ := Option.bind_eq_some_iff.mp h
      exact ih h nofun (tidy_of_addTo hnext hitems hentries)
    · next hfuel _ _ =>
      obtain rfl := Nat.succ.inj hfuel
      obtain ⟨⟨item, after⟩, hitem, h⟩ := Option.bind_eq_some_iff.mp h
      exact ih h (List.forall_mem_append.mpr
        ⟨hitems, List.forall_mem_singleton.mpr (isTidy_of_item? hitem)⟩) hentries

theorem isTidy_toValue {node : Node} (h : node.IsTidy) : node.toValue.IsTidy := by
  cases node with
  | closed value => exact h
  | table origin entries => exact isTidy_table (keysOnce_toValues h)
  | tables items => exact nofun

theorem mem_toValues {entry : String × Value} (h : entry ∈ Node.toValues entries) :
    ∃ node, (entry.1, node) ∈ entries ∧ node.toValue = entry.2 := by
  induction entries with
  | nil => contradiction
  | cons first rest ih =>
    rcases List.mem_cons.mp h with rfl | hrest
    · exact ⟨first.2, List.mem_cons_self, rfl⟩
    · obtain ⟨node, hmem, hnode⟩ := ih hrest
      exact ⟨node, List.mem_cons_of_mem first hmem, hnode⟩

/-- No key of a document comes twice, nor one of a table in it. -/
theorem keysOnce_of_read? {text : String} {document : List (String × Value)}
    (h : read? text = some document) :
    KeysOnce document ∧ ∀ entry ∈ document, entry.2.IsTidy := by
  obtain ⟨tokens, -, h⟩ := Option.bind_eq_some_iff.mp h
  obtain ⟨entries, hlines, h⟩ := Option.bind_eq_some_iff.mp h
  obtain rfl := Option.some.inj h
  have htidy : entries.Tidy := tidy_of_lines? hlines nofun Entries.tidy_nil
  refine ⟨keysOnce_toValues htidy.once, fun entry hentry => ?_⟩
  obtain ⟨node, hmem, hnode⟩ := mem_toValues hentry
  exact hnode ▸ isTidy_toValue (htidy.nodes _ hmem)

end Document
end StepMotion.Toml
