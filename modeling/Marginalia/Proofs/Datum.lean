import Marginalia.Datum.OfJson
import Marginalia.Proofs.Dictionary
import Marginalia.Proofs.Json.RoundTrip

/-!
# Data of written values

A text, a number that fits into a word, a list and a dictionary are decoded to what was written. In
data from JSON every number fits into a word, in every part of it that a field can ask for.
-/

namespace Marginalia

open Text

universe u v

namespace Datum

variable {α : Type u} {β : Type v}

/-- Steps that all succeed have their values, in order. -/
theorem mapM_eq_some_map {f : α → Option β} {g : α → β} {xs : List α}
    (h : ∀ x ∈ xs, f x = some (g x)) : xs.mapM f = some (xs.map g) := by
  induction xs with
  | nil => rfl
  | cons x xs ih =>
    obtain ⟨hx, hxs⟩ := List.forall_mem_cons.mp h
    rw [List.mapM_cons, hx, ih hxs]
    rfl

/-- The values of steps come from the members of the list. -/
theorem exists_of_mem_mapM {f : α → Option β} {xs : List α} {ys : List β}
    (h : xs.mapM f = some ys) : ∀ y ∈ ys, ∃ x ∈ xs, f x = some y := by
  induction xs generalizing ys with
  | nil =>
    obtain rfl : [] = ys := Option.some.inj h
    simp
  | cons x xs ih =>
    rw [List.mapM_cons] at h
    obtain ⟨z, hz, hrest⟩ := Option.bind_eq_some_iff.mp h
    obtain ⟨zs, hzs, hys⟩ := Option.bind_eq_some_iff.mp hrest
    obtain rfl : z :: zs = ys := Option.some.inj hys
    refine List.forall_mem_cons.mpr ⟨⟨x, List.mem_cons_self, hz⟩, fun y hy => ?_⟩
    obtain ⟨w, hw, hy⟩ := ih hzs y hy
    exact ⟨w, List.mem_cons_of_mem x hw, hy⟩

/-- The data of a written text. -/
@[simp] theorem ofJson_ofText (t : Text) : ofJson (.ofText t) = text t := by
  rw [Json.ofText, ofJson, Json.unescape?_escape]
  rfl

/-- The data of a written number that fits into a word. -/
theorem ofJson_ofNat {n : Nat} (h : n < wordLimit) : ofJson (.ofNat n) = natural n := by
  rw [Json.ofNat, ofJson, ofNumber, natural?_ofNat]
  exact if_pos h

/-- The data of items. -/
theorem ofItems_eq_map (items : List Json) : ofItems items = items.map ofJson := by
  induction items with
  | nil => rfl
  | cons v rest ih => rw [ofItems, ih, List.map_cons]

/-- The data of members whose names are written texts. -/
theorem ofMembers_map (name : α → Text) (value : α → Json) (xs : List α) :
    ofMembers (xs.map fun x => (Json.escape (name x), value x)) =
      some (xs.map fun x => (name x, ofJson (value x))) := by
  induction xs with
  | nil => rfl
  | cons x xs ih =>
    rw [List.map_cons, ofMembers, Json.unescape?_escape, ih]
    rfl

/-- The data of a written list is decoded item by item. -/
theorem list?_ofJson_array {item? : Datum → Option α} {write : α → Json} {xs : List α}
    (h : ∀ x ∈ xs, item? (ofJson (write x)) = some x) :
    list? item? (ofJson (.array (xs.map write))) = some xs := by
  have hitems : (xs.map (ofJson ∘ write)).mapM item? = some xs := by
    rw [List.mapM_map]
    exact (mapM_eq_some_map (g := id) h).trans (congrArg some (List.map_id xs))
  rw [ofJson, ofItems_eq_map, List.map_map, list?, hitems]

/-- The data of a dictionary is decoded to the dictionary. -/
theorem dictionary?_table (item? : Datum → Option α) (value : α → Datum) {d : Dictionary α}
    (h : ∀ e ∈ d.entries, item? (value e.2) = some e.2) :
    dictionary? item? (table (d.entries.map fun e => (e.1, value e.2))) = some d := by
  have hentries : ((d.entries.map fun e => (e.1, value e.2)).mapM
      fun e => (item? e.2).map fun found => (e.1, found)) = some d.entries := by
    rw [List.mapM_map, mapM_eq_some_map (g := id), List.map_id]
    intro e he
    rw [Function.comp, h e he]
    rfl
  rw [dictionary?, hentries, Option.map_some, Dictionary.ofList_entries]

/-- The entries of a decoded dictionary come from the entries of its table. -/
theorem exists_of_mem_dictionary? {item? : Datum → Option α} {entries : List (Text × Datum)}
    {d : Dictionary α} (h : dictionary? item? (table entries) = some d) :
    ∀ e ∈ d.entries, ∃ datum, (e.1, datum) ∈ entries ∧ item? datum = some e.2 := by
  obtain ⟨found, hfound, rfl⟩ := Option.map_eq_some_iff.mp h
  intro e he
  obtain ⟨⟨name, datum⟩, hmem, hitem⟩ :=
    exists_of_mem_mapM hfound e (Dictionary.mem_entries_ofList he)
  obtain ⟨value, hvalue, rfl⟩ := Option.map_eq_some_iff.mp hitem
  exact ⟨datum, hmem, hvalue⟩

/-- Data whose numbers all fit into a word. -/
inductive FitsWords : Datum → Prop
  | null : FitsWords .null
  | bool (value : Bool) : FitsWords (.bool value)
  | natural {value : Nat} (h : value < wordLimit) : FitsWords (.natural value)
  | text (value : Text) : FitsWords (.text value)
  | list {items : List Datum} (h : ∀ d ∈ items, FitsWords d) : FitsWords (.list items)
  | table {entries : List (Text × Datum)} (h : ∀ e ∈ entries, FitsWords e.2) :
      FitsWords (.table entries)
  | other : FitsWords .other

mutual

/-- In data from JSON all numbers fit into a word. -/
theorem fitsWords_ofJson : ∀ v : Json, (ofJson v).FitsWords
  | .null => .null
  | .bool value => .bool value
  | .number written => by
    rw [ofJson, ofNumber]
    split
    · split
      · exact .natural (by assumption)
      · exact .other
    · exact .other
  | .string written => by
    rw [ofJson]
    cases Json.unescape? written with
    | none => exact .other
    | some t => exact .text t
  | .array items => by
    rw [ofJson]
    exact .list (fitsWords_ofItems items)
  | .object members => by
    rw [ofJson]
    cases h : ofMembers members with
    | none => exact .other
    | some entries => exact .table (fitsWords_ofMembers members h)

/-- In the data of items all numbers fit into a word. -/
theorem fitsWords_ofItems : ∀ items : List Json, ∀ d ∈ ofItems items, d.FitsWords
  | [] => by simp [ofItems]
  | v :: rest => by
    rw [ofItems]
    exact List.forall_mem_cons.mpr ⟨fitsWords_ofJson v, fitsWords_ofItems rest⟩

/-- In the data of members all numbers fit into a word. -/
theorem fitsWords_ofMembers : ∀ (members : List (Text × Json)) {entries : List (Text × Datum)},
    ofMembers members = some entries → ∀ e ∈ entries, e.2.FitsWords
  | [], entries, h => by
    obtain rfl : [] = entries := by simpa [ofMembers] using h
    simp
  | (name, v) :: rest, entries, h => by
    rw [ofMembers] at h
    split at h
    · rename_i hrest
      obtain rfl := Option.some.inj h
      exact List.forall_mem_cons.mpr ⟨fitsWords_ofJson v, fitsWords_ofMembers rest hrest⟩
    · cases h

end

/-- In the fields of a record all numbers fit into a word if they do in its data. -/
theorem FitsWords.of_mem_record? {datum : Datum} (h : datum.FitsWords) {longer : Bool}
    {names : List Text} {fields : List (Option Datum)}
    (hfields : datum.record? longer names = some fields) :
    ∀ field ∈ fields, ∀ d ∈ field, d.FitsWords := by
  cases h with
  | @list items hitems =>
    rw [record?] at hfields
    split at hfields
    · obtain rfl := Option.some.inj hfields
      simp only [List.mem_map, List.mem_range]
      rintro _ ⟨i, -, rfl⟩ d hd
      exact hitems d (List.mem_of_getElem? hd)
    · cases hfields
  | @table entries hentries =>
    rw [record?] at hfields
    split at hfields
    · obtain rfl := Option.some.inj hfields
      simp only [List.mem_map]
      rintro _ ⟨name, -, rfl⟩ d hd
      obtain ⟨before, behind, rfl, -⟩ := List.lookup_eq_some_iff.mp hd
      exact hentries (name, d) (by simp)
    · cases hfields
  | _ => cases hfields

end Datum

end Marginalia
