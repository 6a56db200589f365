import JsonQuery.Json.Write
import JsonQuery.Proofs.JsonText

/-! JSON output and input are inverse. Three traversals meet here: a document is written as text, it
is turned into a tree, and a tree is turned into a document. Reading a text gives the tree of the
document that was written, and the tree of a document gives the document back. -/
namespace JsonQuery

/-- What holds of a value whenever it holds of the values inside it, holds of every value. -/
@[elab_as_elim]
theorem Value.inside_induction {motive : Value → Prop} (null : motive .null)
    (bool : ∀ b, motive (.bool b)) (int : ∀ n, motive (.int n)) (float : ∀ x, motive (.float x))
    (str : ∀ s, motive (.str s))
    (arr : ∀ items, (∀ item ∈ items, motive item) → motive (.arr items))
    (obj : ∀ entries, (∀ e ∈ entries, motive e.2) → motive (.obj entries)) : ∀ v, motive v
  | .null => null
  | .bool b => bool b
  | .int n => int n
  | .float x => float x
  | .str s => str s
  | .arr items => arr items fun item _ => inside_induction null bool int float str arr obj item
  | .obj entries => obj entries fun e _ => inside_induction null bool int float str arr obj e.2
termination_by v => sizeOf v
decreasing_by
  · have smaller := List.sizeOf_lt_of_mem ‹item ∈ items›
    simp only [Value.arr.sizeOf_spec]
    omega
  · have smaller := List.sizeOf_lt_of_mem ‹e ∈ entries›
    have inside : sizeOf e.2 < sizeOf e := by cases e; simp
    simp only [Value.obj.sizeOf_spec]
    omega

namespace Json

/-! ## Documents and trees -/

private theorem plain_items_map (items : List Value) : plainItems items = items.map plain := by
  induction items with
  | nil => rfl
  | cons item rest ih => rw [plainItems, ih, List.map_cons]

private theorem plain_entries_map (entries : List (String × Value)) :
    plainEntries entries = entries.map fun e => (e.1, plain e.2) := by
  induction entries with
  | nil => rfl
  | cons e rest ih => rw [plainEntries, ih, List.map_cons]

private theorem of_int64_value (n : Int64) : (Number.ofInt64 n).toValue = .int n := by
  have fits : toInt64? n.toInt = some n := fits_int64 n
  rw [Number.ofInt64, Number.toValue, fits]

private theorem of_double_finite (finite : x.isFinite = true) :
    Number.ofDouble? x = some (.real x finite) :=
  dif_pos finite

private theorem of_double_infinite (infinite : x.isFinite = false) : Number.ofDouble? x = none :=
  dif_neg (by simp [infinite])

/-- On the way through a tree only doubles that are not finite are lost. -/
theorem tree_document (v : Value) : (Tree.ofValue v).toValue = plain v := by
  induction v using Value.inside_induction with
  | null | bool | str => rfl
  | int n => exact of_int64_value n
  | float x =>
    rw [Tree.ofValue, plain]
    cases finite : x.isFinite with
    | true => rw [of_double_finite finite]; rfl
    | false => rw [of_double_infinite finite]; rfl
  | arr items each =>
    rw [Tree.ofValue, Tree.toValue, plain, Tree.ofItems_map, Tree.toItems_map, plain_items_map,
      List.map_map]
    exact congrArg Value.arr (List.map_congr_left each)
  | obj entries each =>
    rw [Tree.ofValue, Tree.toValue, plain, Tree.ofEntries_map, Tree.toEntries_map,
      plain_entries_map, List.map_map]
    exact congrArg Value.obj (List.map_congr_left fun e member =>
      congrArg (Prod.mk e.1) (each e member))

/-- Nothing of a value that JSON text can denote is lost. -/
theorem plain_denotable (denotable : Denotable nesting v) : plain v = v := by
  induction denotable with
  | null | bool | int | float | str => rfl
  | @arr items _ each ih =>
    have same : items.map plain = items := (List.map_congr_left ih).trans (List.map_id items)
    rw [plain, plain_items_map, same]
  | @obj entries _ distinct each ih =>
    have same : (entries.map fun e => (e.1, plain e.2)) = entries :=
      (List.map_congr_left fun e member => congrArg (Prod.mk e.1) (ih e member)).trans
        (List.map_id entries)
    rw [plain, plain_entries_map, same]

/-- A double that is not finite has the tree of null. -/
theorem tree_plain (v : Value) : Tree.ofValue (plain v) = Tree.ofValue v := by
  induction v using Value.inside_induction with
  | null | bool | int | str => rfl
  | float x =>
    rw [plain, Tree.ofValue]
    cases finite : x.isFinite with
    | true => rfl
    | false => rw [of_double_infinite finite]; rfl
  | arr items each =>
    rw [plain, Tree.ofValue, Tree.ofValue, Tree.ofItems_map, Tree.ofItems_map, plain_items_map,
      List.map_map]
    exact congrArg Tree.arr (List.map_congr_left each)
  | obj entries each =>
    rw [plain, Tree.ofValue, Tree.ofValue, Tree.ofEntries_map, Tree.ofEntries_map,
      plain_entries_map, List.map_map]
    exact congrArg Tree.obj (List.map_congr_left fun e member =>
      congrArg (Prod.mk e.1) (each e member))

/-! ## The text of a tree -/

section Written

variable {sp : Spacing}

/-- The document and its tree have one text at every depth. -/
def WrittenAlike (sp : Spacing) (v : Value) : Prop :=
  ∀ depth, writeTree sp depth (.ofValue v) = writeValue sp depth v

private theorem trees_written (each : ∀ v ∈ items, WrittenAlike sp v) (depth : Nat) :
    writeTrees sp depth (Tree.ofItems items) = writeItems sp depth items := by
  induction items with
  | nil => rfl
  | cons v rest ih =>
    obtain ⟨first, others⟩ := List.forall_mem_cons.mp each
    rw [Tree.ofItems, writeTrees, writeItems, first, ih others]

private theorem tree_entries_written (each : ∀ e ∈ entries, WrittenAlike sp e.2) (depth : Nat) :
    writeTreeEntries sp depth (Tree.ofEntries entries) = writeEntries sp depth entries := by
  induction entries with
  | nil => rfl
  | cons e rest ih =>
    obtain ⟨first, others⟩ := List.forall_mem_cons.mp each
    obtain ⟨key, v⟩ := e
    rw [Tree.ofEntries, writeTreeEntries, writeEntries, first, ih others]

/-- It makes no difference whether a document or its tree is written. -/
theorem tree_written (sp : Spacing) (v : Value) : WrittenAlike sp v := by
  induction v using Value.inside_induction with
  | null | bool | int | str => exact fun _ => rfl
  | float x =>
    intro depth
    rw [Tree.ofValue, writeValue]
    cases finite : x.isFinite with
    | true => rw [of_double_finite finite]; rfl
    | false =>
      rw [of_double_infinite finite]
      cases x with
      | finite => cases finite
      | infinite | nan => rfl
  | arr items each =>
    intro depth
    cases items with
    | nil => rfl
    | cons v rest =>
      obtain ⟨first, others⟩ := List.forall_mem_cons.mp each
      rw [Tree.ofValue, Tree.ofItems, writeTree, writeValue, first, trees_written others]
  | obj entries each =>
    intro depth
    cases entries with
    | nil => rfl
    | cons e rest =>
      obtain ⟨first, others⟩ := List.forall_mem_cons.mp each
      obtain ⟨key, v⟩ := e
      rw [Tree.ofValue, Tree.ofEntries, writeTree, writeValue, first, tree_entries_written others]

private theorem plain_written (sp : Spacing) (depth : Nat) (v : Value) :
    writeValue sp depth (plain v) = writeValue sp depth v := by
  rw [← tree_written, tree_plain, tree_written]

/-! ## Reading what is written -/

variable (blank : sp.Blank) (denotable : Denotable maxNesting v)
include blank denotable

/-- The text of a document is read as its tree. -/
theorem tree_read : readTree? (writeValue sp 0 v) = some (.ofValue v) := by
  have back := denotable_written blank denotable 0 [] nofun
  rw [List.append_nil] at back
  have ended : skipSpace [] = [] := rfl
  simp [readTree?, back, ended]

/-- The text of a document is read as this document. -/
theorem document_read : readChars? (writeValue sp 0 v) = some v := by
  rw [readChars?, tree_read blank denotable, Option.map_some, tree_document,
    plain_denotable denotable]

end Written

/-- Documents return from their text, compact or over several lines, and from their tree, number
kinds and the order of keys included, if their doubles are finite and they nest no deeper than is
read. Every document has one text, whether it is written itself or by way of its tree; on either way
doubles that are not finite are null. -/
theorem write_read_inverse :
    (∀ v, Denotable maxNesting v → read? (compact v) = some v ∧ read? (pretty v) = some v) ∧
    (∀ nesting v, Denotable nesting v → (Tree.ofValue v).toValue = v) ∧
    ∀ v, (Tree.ofValue v).compact = compact v ∧ (Tree.ofValue v).pretty = pretty v ∧
      (Tree.ofValue v).toValue = plain v ∧ compact (plain v) = compact v ∧
        pretty (plain v) = pretty v := by
  refine ⟨fun v denotable => ⟨?_, ?_⟩, fun nesting v denotable => ?_, fun v => ⟨?_, ?_, ?_, ?_, ?_⟩⟩
  · rw [read?, compact, String.toList_ofList, document_read none_blank denotable]
  · rw [read?, pretty, String.toList_ofList, document_read lines_blank denotable]
  · rw [tree_document, plain_denotable denotable]
  · rw [Tree.compact, tree_written, compact]
  · rw [Tree.pretty, tree_written, pretty]
  · exact tree_document v
  · rw [compact, plain_written, compact]
  · rw [pretty, plain_written, pretty]

/-- A key with escapes, minus zero beside an integer, and an empty object. -/
theorem write_read_inverse_escaped :
    let zero := Double.finite true 0 (by decide +kernel)
    let v := Value.obj [("q\"\n", .arr [.float zero, .int 7]), ("b", .obj [])]
    Denotable maxNesting v ∧ compact v = "\x7b\"q\\\"\\n\":[-0.0,7],\"b\":\x7b\x7d\x7d" ∧
      (read? (compact v) = some v ∧ read? (pretty v) = some v) ∧ (Tree.ofValue v).toValue = v := by
  intro zero v
  have denotable : Denotable maxNesting v := by
    have keys : ["q\"\n", "b"].Nodup := by decide
    refine .obj keys ?_
    simp only [List.forall_mem_cons]
    refine ⟨.arr ?_, .obj List.nodup_nil nofun, nofun⟩
    simp only [List.forall_mem_cons]
    exact ⟨.float, .int, nofun⟩
  exact ⟨denotable, by rfl, write_read_inverse.1 v denotable,
    write_read_inverse.2.1 _ v denotable⟩

end Json

end JsonQuery
