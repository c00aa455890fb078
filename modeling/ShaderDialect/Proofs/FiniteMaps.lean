import Mathlib.Data.Finmap
import Mathlib.Data.Set.Card
import ShaderDialect.Plan.Edits
import ShaderDialect.Table.Side

/-!
# Tables as finite maps

Side tables and edits are finite maps that are filled one entry after the other.
A side table keeps the latest value of a key, and none of its operations shows
the empty slots between the keys. Edits keep the first spelling of a token,
whichever operation planned it.
-/

namespace ShaderDialect

/-! ### Side tables -/

namespace SideTable

variable {α : Type}

theorem mem_toList {table : SideTable α} {key : Nat} {value : α} :
    (key, value) ∈ table.toList ↔ table.get? key = some value := by
  simp only [toList, List.mem_filterMap, Prod.exists, Option.map_eq_some_iff,
    Prod.mk.injEq,
    List.mem_zipIdx_iff_getElem?, get?, Option.join_eq_some_iff, Array.getElem?_toList]
  constructor
  · rintro ⟨_, _, found, _, rfl, rfl, rfl⟩
    exact found
  · intro found
    exact ⟨_, _, found, _, rfl, rfl, rfl⟩

/-- The keys of the slots that have a value are among the numbers of all slots,
in their order. -/
theorem keys_sublist (slots : List (Option α)) (first : Nat) :
    (((slots.zipIdx first).filterMap fun entry => entry.1.map fun value => (entry.2, value)).map
      Prod.fst).Sublist (List.range' first slots.length) := by
  induction slots generalizing first with
  | nil => exact .slnil
  | cons slot slots ih =>
    rw [List.zipIdx_cons, List.length_cons, List.range'_succ]
    cases slot with
    | none => exact (ih (first + 1)).cons first
    | some value => exact (ih (first + 1)).cons_cons first

theorem keys_ascending (table : SideTable α) :
    (table.toList.map Prod.fst).Pairwise (· < ·) :=
  List.Pairwise.sublist (keys_sublist table.slots.toList 0) List.pairwise_lt_range'

theorem length_toList (table : SideTable α) : table.toList.length = table.size := by
  have count : ∀ (slots : List (Option α)) (first : Nat),
      ((slots.zipIdx first).filterMap fun entry => entry.1.map fun value =>
        (entry.2, value)).length =
        slots.countP Option.isSome := by
    intro slots
    induction slots with
    | nil => exact fun _ => rfl
    | cons slot slots ih =>
      intro first
      cases slot with
      | none => simpa using ih (first + 1)
      | some value => simpa using ih (first + 1)
  exact count table.slots.toList 0

/-- The answers to inserts, which are the values that they take the place of, and
the table after them. -/
def insertAll (table : SideTable α) : List (Nat × α) → List (Option α) × SideTable α
  | [] => ([], table)
  | entry :: inserts =>
    let inserted := table.insert entry.1 entry.2
    let rest := insertAll inserted.2 inserts
    (inserted.1 :: rest.1, rest.2)

theorem insertAll_append (table : SideTable α) (before after : List (Nat × α)) :
    table.insertAll (before ++ after) =
      ((table.insertAll before).1 ++ ((table.insertAll before).2.insertAll after).1,
        ((table.insertAll before).2.insertAll after).2) := by
  induction before generalizing table with
  | nil => rfl
  | cons entry before ih => simp only [List.cons_append, insertAll, ih]

theorem length_insertAll (table : SideTable α) (inserts : List (Nat × α)) :
    (table.insertAll inserts).1.length = inserts.length := by
  induction inserts generalizing table with
  | nil => rfl
  | cons entry inserts ih => simp only [insertAll, List.length_cons, ih]

/-- The finite map that has the entries of inserts. -/
def mapOf (inserts : List (Nat × α)) : Finmap fun _ : Nat => α :=
  inserts.foldl (fun map entry => map.insert entry.1 entry.2) ∅

/-- A table that shows the entries of a finite map. -/
def Shows (table : SideTable α) (map : Finmap fun _ : Nat => α) : Prop :=
  ∀ key, table.get? key = map.lookup key

theorem shows_empty (capacity : Nat) :
    (emptyWithCapacity capacity : SideTable α).Shows ∅ := by
  intro key
  simp [emptyWithCapacity, get?]

theorem Shows.insert {table : SideTable α} {map : Finmap fun _ : Nat => α}
    (h : table.Shows map) (key : Nat) (value : α) :
    (table.insert key value).2.Shows (map.insert key value) := by
  intro other
  rw [get?_insert]
  split
  · rename_i same
    rw [same, Finmap.lookup_insert]
  · rename_i apart
    rw [Finmap.lookup_insert_of_ne _ apart, h other]

theorem Shows.insertAll {table : SideTable α} {map : Finmap fun _ : Nat => α}
    (h : table.Shows map) (inserts : List (Nat × α)) :
    (table.insertAll inserts).2.Shows
      (inserts.foldl (fun map entry => map.insert entry.1 entry.2) map) := by
  induction inserts generalizing table map with
  | nil => exact h
  | cons entry inserts ih => exact ih (h.insert entry.1 entry.2)

theorem mem_mapOf {inserts : List (Nat × α)} {key : Nat} :
    key ∈ mapOf inserts ↔ key ∈ inserts.map Prod.fst := by
  have fold : ∀ map : Finmap fun _ : Nat => α,
      key ∈ inserts.foldl (fun map entry => map.insert entry.1 entry.2) map ↔
        key ∈ map ∨ key ∈ inserts.map Prod.fst := by
    induction inserts with
    | nil => simp
    | cons entry inserts ih =>
      intro map
      rw [List.foldl_cons, ih, Finmap.mem_insert, List.map_cons, List.mem_cons]
      tauto
  exact (fold ∅).trans (by simp [Finmap.notMem_empty])

/-- The keys of a table that shows a map are those of the map. -/
theorem Shows.keys {table : SideTable α} {map : Finmap fun _ : Nat => α}
    (h : table.Shows map)
    (key : Nat) : key ∈ table.toList.map Prod.fst ↔ key ∈ map := by
  rw [Finmap.mem_iff, ← h key]
  simp [mem_toList]

theorem Shows.size_eq {table : SideTable α} {map : Finmap fun _ : Nat => α}
    (h : table.Shows map) :
    table.size = map.keys.card := by
  have distinct : (table.toList.map Prod.fst).Nodup :=
    table.keys_ascending.imp Nat.ne_of_lt
  have same : (table.toList.map Prod.fst).toFinset = map.keys := by
    ext key
    rw [List.mem_toFinset, h.keys, Finmap.mem_keys]
  rw [← same, List.toFinset_card_of_nodup distinct, List.length_map, length_toList]

/-- The table after inserts into an empty one. -/
def ofInserts (capacity : Nat) (inserts : List (Nat × α)) : SideTable α :=
  ((emptyWithCapacity capacity).insertAll inserts).2

theorem shows_ofInserts (capacity : Nat) (inserts : List (Nat × α)) :
    (ofInserts capacity inserts).Shows (mapOf inserts) :=
  (shows_empty capacity).insertAll inserts

/-- An insert is answered by the value that the earlier ones gave to its key. -/
theorem answers_eq (capacity : Nat) (inserts : List (Nat × α)) :
    ((emptyWithCapacity capacity).insertAll inserts).1 =
      inserts.mapIdx fun i entry => (mapOf (inserts.take i)).lookup entry.1 := by
  refine List.ext_getElem (by rw [length_insertAll, List.length_mapIdx])
    fun i inside inside' => ?_
  rw [length_insertAll] at inside
  have split : inserts = inserts.take i ++ inserts[i] :: inserts.drop (i + 1) := by simp
  have earlier : ((emptyWithCapacity capacity).insertAll (inserts.take i)).1.length = i := by
    rw [length_insertAll, List.length_take, Nat.min_eq_left (Nat.le_of_lt inside)]
  have answers := congrArg Prod.fst
    (insertAll_append (emptyWithCapacity capacity) (inserts.take i)
      (inserts[i] :: inserts.drop (i + 1)))
  rw [← split] at answers
  rw [List.getElem_mapIdx, List.getElem_of_eq answers, List.getElem_append_right (by omega)]
  simp only [earlier, Nat.sub_self, insertAll, List.getElem_cons_zero, insert_fst]
  exact shows_ofInserts capacity (inserts.take i) inserts[i].1

theorem size_ofInserts (capacity : Nat) (inserts : List (Nat × α)) :
    (ofInserts capacity inserts).size = (inserts.map Prod.fst).toFinset.card := by
  have keys : (mapOf inserts).keys = (inserts.map Prod.fst).toFinset := by
    ext key
    rw [Finmap.mem_keys, mem_mapOf, List.mem_toFinset]
  rw [(shows_ofInserts capacity inserts).size_eq, keys]

/-- A table that inserts have filled is the finite map of the same inserts. Every
insert is answered by what the map of the inserts before it has under the key, and
changes the value of no other key. -/
theorem refines_map (capacity : Nat) (inserts : List (Nat × α)) :
    ((emptyWithCapacity capacity).insertAll inserts).1 =
      inserts.mapIdx (fun i entry => (mapOf (inserts.take i)).lookup entry.1) ∧
    (∀ key value other,
      ((ofInserts capacity inserts).insert key value).2.get? other =
        if other = key then some value else (ofInserts capacity inserts).get? other) ∧
    (∀ key, (ofInserts capacity inserts).get? key = (mapOf inserts).lookup key) ∧
    (∀ key, (ofInserts capacity inserts).contains key ↔ key ∈ mapOf inserts) ∧
    (ofInserts capacity inserts).size = (inserts.map Prod.fst).toFinset.card ∧
    ((ofInserts capacity inserts).isEmpty ↔ inserts = []) ∧
    (∀ key value, (key, value) ∈ (ofInserts capacity inserts).toList ↔
      (mapOf inserts).lookup key = some value) ∧
    ((ofInserts capacity inserts).toList.map Prod.fst).Pairwise (· < ·) := by
  have shows := shows_ofInserts capacity inserts
  have size := size_ofInserts capacity inserts
  refine ⟨answers_eq capacity inserts, fun key value other => get?_insert _ key other value, shows,
    ?_, size, ?_, ?_, keys_ascending _⟩
  · intro key
    rw [contains, shows key, Finmap.lookup_isSome]
  · rw [isEmpty, size, decide_eq_true_eq, Finset.card_eq_zero, List.toFinset_eq_empty_iff,
      List.map_eq_nil_iff]
  · intro key value
    rw [mem_toList, shows key]

example :
    (ofInserts 4 [(5, true), (0, false), (5, false)]).toList =
      [(0, false), (5, false)] := by
  decide

end SideTable

/-! ### Edits -/

namespace Edits

/-- One step of planning. -/
inductive Operation where
  | replace (token : Nat) (text : String)
  | delete (token : Nat)
  | deleteRange (first last : Nat)

namespace Operation

def apply (edits : Edits) : Operation → Edits
  | .replace token text => edits.replace token text
  | .delete token => edits.delete token
  | .deleteRange first last => edits.deleteRange first last

/-- Whether an operation plans a spelling for a token. -/
def touches (token : Nat) : Operation → Bool
  | .replace token' _ => token' = token
  | .delete token' => token' = token
  | .deleteRange first last => first ≤ token && token ≤ last

/-- The spelling that an operation plans. -/
def text : Operation → String
  | .replace _ text => text
  | .delete _ => ""
  | .deleteRange _ _ => ""

end Operation

theorem get?_replace_or (edits : Edits) (token other : Nat) (text : String) :
    (edits.replace token text).get? other =
      (edits.get? other).or (if token = other then some text else none) := by
  rw [get?_replace]
  by_cases same : other = token
  · subst same
    cases edits.get? other <;> simp
  · have apart : ¬ token = other := fun h => same h.symm
    simp [same, apart]

theorem get?_deleteAll (tokens : List Nat) (edits : Edits) (other : Nat) :
    (tokens.foldl delete edits).get? other =
      (edits.get? other).or (if other ∈ tokens then some "" else none) := by
  induction tokens generalizing edits with
  | nil => simp
  | cons token tokens ih =>
    rw [List.foldl_cons, ih, delete, get?_replace_or]
    cases edits.get? other with
    | some text => rfl
    | none =>
      by_cases same : token = other
      · simp [same]
      · have apart : ¬ other = token := fun h => same h.symm
        simp [same, apart]

theorem mem_range_iff {first last token : Nat} :
    token ∈ List.range' first (last + 1 - first) ↔ first ≤ token ∧ token ≤ last := by
  rw [List.mem_range'_1]
  omega

/-- An operation gives its spelling to the tokens that it touches and that have
none yet. -/
theorem get?_apply (edits : Edits) (operation : Operation) (token : Nat) :
    (Operation.apply edits operation).get? token =
      (edits.get? token).or (if operation.touches token then some operation.text else none) := by
  cases operation with
  | replace token' text =>
    simp [Operation.apply, Operation.touches, Operation.text, get?_replace_or]
  | delete token' =>
    simp [Operation.apply, Operation.touches, Operation.text, delete, get?_replace_or]
  | deleteRange first last =>
    rw [Operation.apply, deleteRange, get?_deleteAll]
    simp only [mem_range_iff, Operation.touches, Operation.text, Bool.and_eq_true,
      decide_eq_true_eq]

theorem get?_applyAll (operations : List Operation) (edits : Edits) (token : Nat) :
    (operations.foldl Operation.apply edits).get? token =
      (edits.get? token).or ((operations.find? (·.touches token)).map Operation.text) := by
  induction operations generalizing edits with
  | nil => simp
  | cons operation operations ih =>
    rw [List.foldl_cons, ih, get?_apply, List.find?_cons, Option.or_assoc]
    cases operation.touches token <;> rfl

theorem mem_toList {edits : Edits} {token : Nat} {text : String} :
    (token, text) ∈ edits.toList ↔ edits.get? token = some text :=
  Std.TreeMap.mem_toList_iff_getElem?_eq_some

theorem tokens_ascending (edits : Edits) :
    (edits.toList.map Prod.fst).Pairwise (· < ·) := by
  rw [toList, Std.TreeMap.map_fst_toList_eq_keys]
  exact Std.TreeMap.ordered_keys.imp Nat.compare_eq_lt.1

theorem size_eq_ncard (edits : Edits) :
    edits.size = {token | (edits.get? token).isSome}.ncard := by
  have distinct : (edits.toList.map Prod.fst).Nodup :=
    edits.tokens_ascending.imp Nat.ne_of_lt
  have same : {token | (edits.get? token).isSome} =
      ↑(edits.toList.map Prod.fst).toFinset := by
    ext token
    simp [Option.isSome_iff_exists, mem_toList]
  rw [same, Set.ncard_coe_finset, List.toFinset_card_of_nodup distinct,
    List.length_map, toList, Std.TreeMap.length_toList, size]

/-- The first operation that touches a token decides its spelling, and the edits
are about the tokens that are touched and no others. -/
theorem first_touch_decides (operations : List Operation) :
    (∀ token, (operations.foldl Operation.apply empty).get? token =
      (operations.find? (·.touches token)).map Operation.text) ∧
    (operations.foldl Operation.apply empty).size =
      {token | ∃ operation ∈ operations, operation.touches token}.ncard ∧
    (∀ token text, (token, text) ∈ (operations.foldl Operation.apply empty).toList ↔
      (operations.find? (·.touches token)).map Operation.text = some text) ∧
    ((operations.foldl Operation.apply empty).toList.map Prod.fst).Pairwise (· < ·) := by
  have spelling : ∀ token, (operations.foldl Operation.apply empty).get? token =
      (operations.find? (·.touches token)).map Operation.text := by
    intro token
    rw [get?_applyAll]
    simp [get?, empty]
  refine ⟨spelling, ?_, fun token text => by rw [mem_toList, spelling], tokens_ascending _⟩
  rw [size_eq_ncard]
  congr 1
  ext token
  rw [Set.mem_ofPred_eq, Set.mem_ofPred_eq, spelling, Option.isSome_map,
    List.find?_isSome]

end Edits

end ShaderDialect
