import Marginalia.Proofs.FileTree.Without

/-!
# Trees that list their names in another order

What stands at a place does not depend on the order of the entries, so every path leads to the same
entry in each order. Only the order in which a directory lists its names is another one, and any
name in it can be made to come first.
-/

namespace Marginalia.FileTree

variable {tree other : FileTree} {place : Place}

/-- Whether a tree is another one whose directories list their names in another order. -/
structure Reorders (tree other : FileTree) : Prop where
  entries : tree.entries.Perm other.entries
  working : tree.working = other.working
  now : tree.now = other.now

namespace Reorders

/-- Each of two orders is an order of the other. -/
theorem symm (h : tree.Reorders other) : other.Reorders tree :=
  ⟨h.entries.symm, h.working.symm, h.now.symm⟩

/-- The same stands at each place in every order. -/
theorem entryAt?_eq (h : tree.Reorders other) (place : Place) :
    other.entryAt? place = tree.entryAt? place := by
  ext entry
  rw [entryAt?_eq_some_iff, entryAt?_eq_some_iff,
    h.entries.mem_iff]

/-- Names are followed in the same way in every order. -/
theorem follow_eq (h : tree.Reorders other) (budget : Nat) (here : Place) (names : List Bytes) :
    other.follow budget here names = tree.follow budget here names := by
  have hdirectory (place : Place) : other.directoryAt place = tree.directoryAt place := by
    rw [directoryAt, directoryAt, h.entryAt?_eq]
  induction budget, here, names using follow_induction tree with
  | done budget here => rw [follow_nil, follow_nil]
  | outside budget here name rest hhere =>
    rw [follow_of_not_directoryAt hhere, follow_of_not_directoryAt ((hdirectory here).trans hhere),
      h.entryAt?_eq]
  | stays budget here name rest hhere hname ih =>
    rw [follow_here hhere hname, follow_here ((hdirectory here).trans hhere) hname, ih]
  | above budget here rest hhere ih =>
    rw [follow_above hhere, follow_above ((hdirectory here).trans hhere), ih]
  | noLink here name rest target hhere hname hdots htarget =>
    rw [follow_link_zero hhere hname hdots htarget, follow_link_zero ((hdirectory here).trans hhere)
      hname hdots ((h.entryAt?_eq _).trans htarget)]
  | link left here name rest target hhere hname hdots htarget ih =>
    rw [follow_link_succ hhere hname hdots htarget, follow_link_succ ((hdirectory here).trans hhere)
      hname hdots ((h.entryAt?_eq _).trans htarget), ih]
  | entry budget here name rest hhere hname hdots hlink ih =>
    rw [follow_entry hhere hname hdots hlink, follow_entry ((hdirectory here).trans hhere) hname
      hdots (fun target htarget => hlink target ((h.entryAt?_eq _).symm.trans htarget)), ih]

/-- A path leads to the same entry in every order. -/
theorem locate_eq (h : tree.Reorders other) (path : Path) :
    other.locate path = tree.locate path := by
  simp only [locate, startOf, h.working, h.follow_eq, h.entryAt?_eq]

/-- A path leads to the same directory in every order. -/
theorem directory?_eq (h : tree.Reorders other) (path : Path) :
    other.directory? path = tree.directory? path := by
  rw [directory?, directory?, h.locate_eq]

/-- The same paths lead to directories in every order. -/
theorem isDirectory_eq (h : tree.Reorders other) : other.isDirectory = tree.isDirectory := by
  funext path
  rw [isDirectory, isDirectory, h.directory?_eq]

/-- The same directories cannot be listed in every order. -/
theorem closedAt_eq (h : tree.Reorders other) : other.closedAt = tree.closedAt := by
  funext place
  rw [closedAt, closedAt, h.entryAt?_eq]

/-- The same paths lead to directories that cannot be listed in every order. -/
theorem isClosed_eq (h : tree.Reorders other) (path : Path) :
    other.isClosed path = tree.isClosed path := by
  rw [isClosed, isClosed, h.directory?_eq, h.closedAt_eq]

/-- The same is in the file at a path in every order. -/
theorem fileAt_eq (h : tree.Reorders other) (path : Path) :
    other.fileAt path = tree.fileAt path := by
  rw [fileAt, fileAt, h.locate_eq]

/-- A run finds the same names in a directory in every order. -/
theorem mem_listed_iff (h : tree.Reorders other) {name : Bytes} :
    name ∈ other.listed place ↔ name ∈ tree.listed place := by
  rw [mem_listed, mem_listed, h.closedAt_eq, h.entryAt?_eq]

end Reorders

/-- In its own order, a tree is the same. -/
theorem Reorders.refl (tree : FileTree) : tree.Reorders tree :=
  ⟨.refl _, rfl, rfl⟩

/-- An order of an order is an order. -/
theorem Reorders.trans {third : FileTree} (h : tree.Reorders other) (h' : other.Reorders third) :
    tree.Reorders third :=
  ⟨h.entries.trans h'.entries, h.working.trans h'.working, h.now.trans h'.now⟩

/-! ## Names that come first -/

/-- The tree with the entry at a place before the others. -/
def putFirst (tree : FileTree) (place : Place) : FileTree :=
  { tree with
    entries := tree.entries.filter (fun e => e.1 = place) ++
      tree.entries.filter (fun e => !(e.1 = place))
    nodup := ((List.filter_append_perm _ tree.entries).map Prod.fst).nodup_iff.mpr tree.nodup }

/-- With one entry before the others, a tree lists its names in another order at most. -/
theorem reorders_putFirst (tree : FileTree) (place : Place) :
    tree.Reorders (tree.putFirst place) :=
  ⟨(List.filter_append_perm _ tree.entries).symm, rfl, rfl⟩

/-- The name of the entry that comes first stands before the others. -/
theorem names_putFirst (tree : FileTree) (p place : Place) :
    (tree.putFirst p).names place =
      ((tree.names place).filter fun name => place ++ [name] = p) ++
        (tree.names place).filter fun name => !(place ++ [name] = p) := by
  rw [← tree.filterMap_filter_entries (fun q => q = p),
    ← tree.filterMap_filter_entries fun q => !(q = p)]
  exact List.filterMap_append

/-- A run finds first the name of an entry in a directory that comes first. -/
theorem exists_listed_putFirst {name : Bytes} (hname : name ∈ tree.listed place) :
    ∃ behind, (tree.putFirst (place ++ [name])).listed place = name :: behind := by
  obtain ⟨hopen, hname⟩ := mem_listed_iff_names.mp hname
  have hfirst : ∀ n, n ∈ (tree.names place).filter (fun n => place ++ [n] = place ++ [name]) ↔
      n = name := by
    intro n
    rw [List.mem_filter, decide_eq_true_eq, List.append_cancel_left_eq, List.singleton_inj]
    exact and_iff_right_of_imp fun hn => hn ▸ hname
  obtain ⟨n, behind, hcons⟩ :=
    List.exists_cons_of_ne_nil (List.ne_nil_of_mem ((hfirst name).mpr rfl))
  rw [hcons] at hfirst
  rw [listed, (reorders_putFirst tree _).closedAt_eq, if_neg (by simp [hopen]), names_putFirst,
    hcons, (hfirst n).mp List.mem_cons_self]
  exact ⟨_, rfl⟩

/-- In any other directory a run finds the names as before. -/
theorem listed_putFirst_of_ne {name : Bytes} {q : Place} (h : q ≠ place) :
    (tree.putFirst (place ++ [name])).listed q = tree.listed q := by
  have hne (n : Bytes) : q ++ [n] ≠ place ++ [name] := fun heq => h (List.append_inj' heq rfl).1
  rw [listed, listed, (reorders_putFirst tree _).closedAt_eq, names_putFirst,
    List.filter_eq_nil_iff.mpr (by simp [hne]), List.filter_eq_self.mpr (by simp [hne]),
    List.nil_append]

end Marginalia.FileTree
