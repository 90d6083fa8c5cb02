import Marginalia.Dictionary

/-!
# What a dictionary holds

Putting a value at a key changes what is found at that key and nothing else. So after any number of
changes, what is found at a key is the outcome of the changes of that key, in their order, and a
dictionary is known from what is found in it.
-/

namespace Marginalia

universe u

variable {α : Type u}

/-- What stands at a key is the value of the first entry if that has the key. -/
theorem lookup_entry_cons (key k : Text) (value : α) (rest : List (Text × α)) :
    ((key, value) :: rest).lookup k = if k = key then some value else rest.lookup k := by
  rw [List.lookup_cons]
  by_cases hk : k = key
  · rw [if_pos hk, beq_iff_eq.mpr hk]
  · rw [if_neg hk, beq_eq_false_iff_ne.mpr hk]

/-- Putting a value at a key changes what stands at that key only. -/
theorem lookup_putEntry (key k : Text) (value : α) (entries : List (Text × α)) :
    (putEntry key value entries).lookup k = if k = key then some value else entries.lookup k := by
  induction entries with
  | nil => exact lookup_entry_cons key k value []
  | cons e rest ih =>
    obtain ⟨key', value'⟩ := e
    rw [putEntry]
    by_cases hlt : Text.isBefore key key' = true
    · rw [if_pos hlt, lookup_entry_cons]
    · rw [if_neg hlt]
      by_cases heq : key = key'
      · rw [if_pos heq, lookup_entry_cons, lookup_entry_cons, ← heq]
        split <;> rfl
      · rw [if_neg heq, lookup_entry_cons, lookup_entry_cons, ih]
        by_cases hk : k = key
        · have hne : k ≠ key' := fun h => heq (hk.symm.trans h)
          simp only [if_pos hk, if_neg hne]
        · simp only [if_neg hk]

/-- Entries with increasing keys hold a value at a key exactly when it is what stands there. -/
theorem mem_iff_lookup_eq_some {entries : List (Text × α)}
    (h : entries.Pairwise fun a b => Text.isBefore a.1 b.1 = true) {k : Text} {value : α} :
    (k, value) ∈ entries ↔ entries.lookup k = some value := by
  induction entries with
  | nil => simp
  | cons e rest ih =>
    obtain ⟨key, first⟩ := e
    obtain ⟨hfirst, hrest⟩ := List.pairwise_cons.mp h
    rw [lookup_entry_cons, List.mem_cons, ih hrest]
    by_cases hk : k = key
    · have hnone : rest.lookup k ≠ some value := by
        intro hlookup
        have hbefore := hfirst _ ((ih hrest).mpr hlookup)
        simp [hk] at hbefore
      rw [if_pos hk, Prod.mk.injEq, Option.some.injEq, or_iff_left hnone, eq_comm (a := value)]
      exact and_iff_right hk
    · rw [if_neg hk, or_iff_right fun heq => hk (Prod.mk.inj heq).1]

/-- An entry after putting a value is the new one or one from before. -/
theorem mem_putEntry {key : Text} {value : α} {entries : List (Text × α)} {e : Text × α}
    (h : e ∈ putEntry key value entries) : e = (key, value) ∨ e ∈ entries := by
  induction entries with
  | nil => exact .inl (List.mem_singleton.mp h)
  | cons first rest ih =>
    obtain ⟨k, v⟩ := first
    rw [putEntry] at h
    split at h
    · exact List.mem_cons.mp h
    · split at h
      · exact (List.mem_cons.mp h).imp_right (List.mem_cons_of_mem (k, v))
      · rcases List.mem_cons.mp h with rfl | h
        · exact .inr List.mem_cons_self
        · exact (ih h).imp_right (List.mem_cons_of_mem (k, v))

/-- A value whose key comes behind all others is put behind all entries. -/
theorem putEntry_of_last {key : Text} {value : α} {entries : List (Text × α)}
    (h : ∀ e ∈ entries, Text.isBefore e.1 key = true) :
    putEntry key value entries = entries ++ [(key, value)] := by
  induction entries with
  | nil => rfl
  | cons first rest ih =>
    obtain ⟨k, v⟩ := first
    obtain ⟨hk, hrest⟩ := List.forall_mem_cons.mp h
    have hnot : ¬ Text.isBefore key k = true := fun hkey => by
      have hself := Text.isBefore_trans hkey hk
      simp at hself
    have hne : key ≠ k := fun heq => by simp [heq] at hk
    rw [putEntry, if_neg hnot, if_neg hne, ih hrest, List.cons_append]

namespace Dictionary

/-- A dictionary has an entry exactly when its value is found at its key. -/
theorem mem_entries_iff (d : Dictionary α) {k : Text} {value : α} :
    (k, value) ∈ d.entries ↔ d.find? k = some value :=
  mem_iff_lookup_eq_some d.increasing

/-- No entry stands twice in a dictionary. -/
theorem nodup_entries (d : Dictionary α) : d.entries.Nodup := by
  apply d.increasing.imp
  rintro a b hab rfl
  simp at hab

/-- Two dictionaries in which the same is found at every key are equal. -/
theorem ext_find? {d e : Dictionary α} (h : ∀ k, d.find? k = e.find? k) : d = e := by
  have hmem (entry : Text × α) : entry ∈ d.entries ↔ entry ∈ e.entries := by
    rw [mem_entries_iff, mem_entries_iff, h]
  have hperm : d.entries.Perm e.entries :=
    (List.perm_ext_iff_of_nodup d.nodup_entries e.nodup_entries).mpr hmem
  have hasymm (a b : Text × α) (hab : Text.isBefore a.1 b.1 = true)
      (hba : Text.isBefore b.1 a.1 = true) : a = b := by
    have hself := Text.isBefore_trans hab hba
    simp at hself
  exact ext (hperm.eq_of_pairwise (fun a b _ _ => hasymm a b) d.increasing e.increasing)

@[simp] theorem find?_empty (k : Text) : (empty : Dictionary α).find? k = none := rfl

/-- What is found after putting a value at a key. -/
theorem find?_insert (d : Dictionary α) (key k : Text) (value : α) :
    (d.insert key value).find? k = if k = key then some value else d.find? k :=
  lookup_putEntry key k value d.entries

/-- What is found after changing the value at a key. -/
theorem find?_alter (d : Dictionary α) (key k : Text) (f : Option α → α) :
    (d.alter key f).find? k = if k = key then some (f (d.find? key)) else d.find? k :=
  find?_insert d key k _

/-- Values that are gathered by key: at each key stand those of that key, in their order, behind
those that were there. -/
theorem find?_foldl_alter {β γ : Type} (key : β → Text) (f : β → γ) (xs : List β)
    (d : Dictionary (List γ)) (k : Text) :
    (xs.foldl (fun d x => d.alter (key x) fun found => found.getD [] ++ [f x]) d).find? k =
      if (xs.filter fun x => key x = k) = [] then d.find? k
      else some ((d.find? k).getD [] ++ (xs.filter fun x => key x = k).map f) := by
  induction xs generalizing d with
  | nil => rfl
  | cons x xs ih =>
    rw [List.foldl_cons, ih, find?_alter]
    by_cases hx : key x = k
    · rw [List.filter_cons_of_pos (by simpa using hx), if_pos hx.symm, hx]
      by_cases hxs : (xs.filter fun x => key x = k) = []
      · rw [if_pos hxs, if_neg (List.cons_ne_nil _ _), hxs]
        rfl
      · rw [if_neg hxs, if_neg (List.cons_ne_nil _ _), Option.getD_some, List.map_cons,
          List.append_assoc, List.singleton_append]
    · have hne : k ≠ key x := fun h => hx h.symm
      rw [List.filter_cons_of_neg (by simpa using hx)]
      simp only [if_neg hne]

/-- Entries put one after another behind all others stand behind them. -/
theorem entries_foldl_insert {xs : List (Text × α)} {d : Dictionary α}
    (h : (d.entries ++ xs).Pairwise fun a b => Text.isBefore a.1 b.1 = true) :
    (xs.foldl (fun d e => d.insert e.1 e.2) d).entries = d.entries ++ xs := by
  induction xs generalizing d with
  | nil => exact (List.append_nil _).symm
  | cons x xs ih =>
    have hlast : ∀ e ∈ d.entries, Text.isBefore e.1 x.1 = true := fun e he =>
      (List.pairwise_append.mp h).2.2 e he x List.mem_cons_self
    have hentries : (d.insert x.1 x.2).entries = d.entries ++ [x] := putEntry_of_last hlast
    rw [List.foldl_cons, ih, hentries, List.append_assoc, List.singleton_append]
    rwa [hentries, List.append_assoc, List.singleton_append]

/-- A dictionary is made again of its entries. -/
@[simp] theorem ofList_entries (d : Dictionary α) : ofList d.entries = d :=
  ext (entries_foldl_insert (d := empty) d.increasing)

/-- Entries after putting others one after another are those or come from before. -/
theorem mem_entries_foldl_insert {xs : List (Text × α)} {d : Dictionary α} {e : Text × α}
    (h : e ∈ (xs.foldl (fun d x => d.insert x.1 x.2) d).entries) : e ∈ d.entries ∨ e ∈ xs := by
  induction xs generalizing d with
  | nil => exact .inl h
  | cons x xs ih =>
    rcases ih h with hd | hxs
    · rcases mem_putEntry hd with rfl | hd
      · exact .inr List.mem_cons_self
      · exact .inl hd
    · exact .inr (List.mem_cons_of_mem x hxs)

/-- The entries of a dictionary that is made of a list come from the list. -/
theorem mem_entries_ofList {xs : List (Text × α)} {e : Text × α} (h : e ∈ (ofList xs).entries) :
    e ∈ xs :=
  (mem_entries_foldl_insert h).resolve_left List.not_mem_nil

section

variable {d : Dictionary α} {before behind : List (Text × α)} {e x : Text × α}

/-- Of two entries, one stands before the other exactly when its key comes before. -/
theorem mem_before_iff (h : d.entries = before ++ e :: behind) (hx : x ∈ d.entries) :
    x ∈ before ↔ Text.isBefore x.1 e.1 = true := by
  have hincreasing := d.increasing
  rw [h, List.pairwise_append] at hincreasing
  obtain ⟨-, hrest, hcross⟩ := hincreasing
  refine ⟨fun hbefore => hcross x hbefore e List.mem_cons_self, fun hkey => ?_⟩
  rw [h, List.mem_append, List.mem_cons] at hx
  rcases hx with hx | rfl | hx
  · exact hx
  · simp at hkey
  · have hself := Text.isBefore_trans hkey ((List.pairwise_cons.mp hrest).1 x hx)
    simp at hself

/-- Of two entries, one stands behind the other exactly when its key comes behind. -/
theorem mem_behind_iff (h : d.entries = before ++ e :: behind) (hx : x ∈ d.entries) :
    x ∈ behind ↔ Text.isBefore e.1 x.1 = true := by
  have hincreasing := d.increasing
  rw [h, List.pairwise_append] at hincreasing
  obtain ⟨-, hrest, hcross⟩ := hincreasing
  refine ⟨fun hbehind => (List.pairwise_cons.mp hrest).1 x hbehind, fun hkey => ?_⟩
  rw [h, List.mem_append, List.mem_cons] at hx
  rcases hx with hx | rfl | hx
  · have hself := Text.isBefore_trans hkey (hcross x hx e List.mem_cons_self)
    simp at hself
  · simp at hkey
  · exact hx

/-- The entries before one are those whose keys come before. -/
theorem filter_isBefore_entries (h : d.entries = before ++ e :: behind) :
    d.entries.filter (fun x => Text.isBefore x.1 e.1) = before := by
  have hbefore : before.filter (fun x => Text.isBefore x.1 e.1) = before := by
    rw [List.filter_eq_self]
    exact fun x hx => (mem_before_iff h (h ▸ List.mem_append_left _ hx)).mp hx
  have hrest : (e :: behind).filter (fun x => Text.isBefore x.1 e.1) = [] := by
    rw [List.filter_eq_nil_iff]
    intro x hx hkey
    have hmem : x ∈ d.entries := h ▸ List.mem_append_right before hx
    rcases List.mem_cons.mp hx with rfl | hx
    · simp at hkey
    · have hself := Text.isBefore_trans hkey ((mem_behind_iff h hmem).mp hx)
      simp at hself
  rw [h, List.filter_append, hbefore, hrest, List.append_nil]

end

end Dictionary

end Marginalia
