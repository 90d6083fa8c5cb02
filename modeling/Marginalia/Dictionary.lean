import Marginalia.Text.Order

/-!
# Dictionaries

A dictionary maps texts to values. Its entries stand in increasing order of their keys, character
by character, so two dictionaries with the same content are equal and every listing of one is in
key order, whatever the order in which the entries were added.
-/

namespace Marginalia

open Text

universe u

variable {α : Type u}

/-- Put a value at a key into entries that stand in key order. -/
def putEntry (key : Text) (value : α) : List (Text × α) → List (Text × α)
  | [] => [(key, value)]
  | (k, v) :: rest =>
    if isBefore key k then (key, value) :: (k, v) :: rest
    else if key = k then (key, value) :: rest
    else (k, v) :: putEntry key value rest

/-- The keys after putting a value are the key and the keys from before. -/
theorem fst_mem_putEntry {key k : Text} {value : α} {entries : List (Text × α)} :
    k ∈ (putEntry key value entries).map Prod.fst ↔ k = key ∨ k ∈ entries.map Prod.fst := by
  induction entries with
  | nil => simp [putEntry]
  | cons e rest ih =>
    obtain ⟨k', v⟩ := e
    rw [putEntry]
    by_cases h : isBefore key k' = true
    · simp [h]
    · by_cases he : key = k'
      · subst he
        simp
      · rw [if_neg h, if_neg he, List.map_cons, List.mem_cons, ih, List.map_cons, List.mem_cons]
        constructor
        · rintro (rfl | rfl | h)
          · exact Or.inr (Or.inl rfl)
          · exact Or.inl rfl
          · exact Or.inr (Or.inr h)
        · rintro (rfl | rfl | h)
          · exact Or.inr (Or.inl rfl)
          · exact Or.inl rfl
          · exact Or.inr (Or.inr h)

/-- Putting a value keeps the order of the keys. -/
theorem pairwise_putEntry {key : Text} {value : α} {entries : List (Text × α)}
    (h : entries.Pairwise fun a b => isBefore a.1 b.1 = true) :
    (putEntry key value entries).Pairwise fun a b => isBefore a.1 b.1 = true := by
  induction entries with
  | nil => simp [putEntry]
  | cons e rest ih =>
    obtain ⟨k, v⟩ := e
    obtain ⟨hk, hrest⟩ := List.pairwise_cons.1 h
    rw [putEntry]
    by_cases hlt : isBefore key k = true
    · rw [if_pos hlt]
      refine List.pairwise_cons.2 ⟨fun b hb => ?_, h⟩
      rcases List.mem_cons.1 hb with rfl | hb
      · exact hlt
      · exact isBefore_trans hlt (hk b hb)
    · rw [if_neg hlt]
      by_cases heq : key = k
      · rw [if_pos heq]
        exact List.pairwise_cons.2 ⟨fun b hb => heq ▸ hk b hb, hrest⟩
      · rw [if_neg heq]
        refine List.pairwise_cons.2 ⟨fun b hb => ?_, ih hrest⟩
        have hb' := fst_mem_putEntry.1 (List.mem_map_of_mem (f := Prod.fst) hb)
        rcases hb' with hb' | hb'
        · exact hb' ▸ (isBefore_or_isBefore heq).resolve_left hlt
        · obtain ⟨c, hc, hcb⟩ := List.mem_map.1 hb'
          exact hcb ▸ hk c hc

/-- Entries with strictly increasing keys. -/
structure Dictionary (α : Type u) where
  entries : List (Text × α)
  increasing : entries.Pairwise fun a b => isBefore a.1 b.1 = true

namespace Dictionary

/-- The dictionary without entries. -/
def empty : Dictionary α :=
  ⟨[], List.Pairwise.nil⟩

instance : Inhabited (Dictionary α) :=
  ⟨empty⟩

/-- The value at a key. -/
def find? (d : Dictionary α) (key : Text) : Option α :=
  d.entries.lookup key

/-- Whether there is a value at a key. -/
def contains (d : Dictionary α) (key : Text) : Bool :=
  (d.find? key).isSome

/-- Put a value at a key, replacing the one that is there. -/
def insert (d : Dictionary α) (key : Text) (value : α) : Dictionary α :=
  ⟨putEntry key value d.entries, pairwise_putEntry d.increasing⟩

/-- Put the value that a function makes of the one at the key, if any. -/
def alter (d : Dictionary α) (key : Text) (f : Option α → α) : Dictionary α :=
  d.insert key (f (d.find? key))

/-- Put entries one after another; of two with the same key the later stays. -/
def ofList (entries : List (Text × α)) : Dictionary α :=
  entries.foldl (fun d e => d.insert e.1 e.2) empty

/-- The keys in increasing order. -/
def keys (d : Dictionary α) : List Text :=
  d.entries.map Prod.fst

/-- The number of entries. -/
def size (d : Dictionary α) : Nat :=
  d.entries.length

/-- Whether there is no entry. -/
def isEmpty (d : Dictionary α) : Bool :=
  d.entries.isEmpty

/-- Two dictionaries with the same entries are equal. -/
@[ext] theorem ext {d e : Dictionary α} (h : d.entries = e.entries) : d = e := by
  cases d
  cases e
  simpa using h

instance [DecidableEq α] : DecidableEq (Dictionary α) := fun d e =>
  decidable_of_iff (d.entries = e.entries) ⟨ext, congrArg entries⟩

end Dictionary

end Marginalia
