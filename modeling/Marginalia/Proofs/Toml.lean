import Marginalia.Proofs.Datum
import Marginalia.Toml.Reader

/-!
# Numbers in data from TOML

In data from TOML every number fits into a word. A larger number is read as a value that no field
can hold, and tables, however they grow, hold only what was read.
-/

namespace Marginalia.Toml

open Text

/-- Whether all numbers in the entries of a table fit into words. -/
def EntriesFit (entries : Entries) : Prop :=
  ∀ e ∈ entries, e.2.datum.FitsWords

variable {entries grown : Entries} {name : Text} {node : Node} {datum : Datum} {t rest : Text}
  {path : List Text}

/-- The data of entries is that of each. -/
theorem dataOfEntries_eq_map (entries : Entries) :
    dataOfEntries entries = entries.map fun e => (e.1, e.2.datum) := by
  induction entries with
  | nil => rfl
  | cons e rest ih => rw [dataOfEntries, ih, List.map_cons]

/-- The data of items is that of each. -/
theorem dataOfItems_eq_map (items : List Node) : dataOfItems items = items.map Node.datum := by
  induction items with
  | nil => rfl
  | cons node rest ih => rw [dataOfItems, ih, List.map_cons]

/-- The numbers of a table fit into words when those of its entries do. -/
theorem fitsWords_table_iff :
    (Datum.table (dataOfEntries entries)).FitsWords ↔ EntriesFit entries := by
  rw [dataOfEntries_eq_map]
  constructor
  · rintro (_ | _ | _ | _ | _ | hentries | _) e he
    exact hentries _ (List.mem_map_of_mem he)
  · refine fun hentries => .table fun d hd => ?_
    obtain ⟨e, he, rfl⟩ := List.mem_map.mp hd
    exact hentries e he

/-- The numbers of a node that is a table fit into words when those of its entries do. -/
theorem fitsWords_node_table_iff {standing : Standing} :
    (Node.table standing entries).datum.FitsWords ↔ EntriesFit entries := by
  rw [Node.datum, fitsWords_table_iff]

/-- The numbers of an array of tables fit into words when those of its tables do. -/
theorem fitsWords_node_tables_iff {items : List Node} :
    (Node.tables items).datum.FitsWords ↔ ∀ node ∈ items, node.datum.FitsWords := by
  rw [Node.datum, dataOfItems_eq_map]
  constructor
  · rintro (_ | _ | _ | _ | hitems | _ | _) node hnode
    exact hitems _ (List.mem_reverse.mpr (List.mem_map_of_mem hnode))
  · refine fun hitems => .list fun d hd => ?_
    obtain ⟨node, hnode, rfl⟩ := List.mem_map.mp (List.mem_reverse.mp hd)
    exact hitems node hnode

/-- The numbers still fit after a name is given to a node whose numbers do. -/
theorem EntriesFit.setNode (h : EntriesFit entries) (hnode : node.datum.FitsWords) :
    EntriesFit (setNode name node entries) := by
  induction entries with
  | nil => exact List.forall_mem_singleton.mpr hnode
  | cons e rest ih =>
    obtain ⟨hfirst, hrest⟩ := List.forall_mem_cons.mp h
    rw [Toml.setNode]
    split
    · exact List.forall_mem_cons.mpr ⟨hnode, hrest⟩
    · exact List.forall_mem_cons.mpr ⟨hfirst, ih hrest⟩

/-- The numbers of a node that is found fit. -/
theorem EntriesFit.of_lookup (h : EntriesFit entries) (hname : entries.lookup name = some node) :
    node.datum.FitsWords := by
  obtain ⟨before, behind, rfl, -⟩ := List.lookup_eq_some_iff.mp hname
  exact h (name, node) (by simp)

/-- The numbers of a table that is found fit. -/
theorem EntriesFit.of_lookup_table {standing : Standing} {inner : Entries} (h : EntriesFit entries)
    (hname : entries.lookup name = some (.table standing inner)) : EntriesFit inner :=
  fitsWords_node_table_iff.mp (h.of_lookup hname)

/-- The numbers still fit after a name is given to a table whose numbers do. -/
theorem EntriesFit.setTable {standing : Standing} {inner : Entries} (h : EntriesFit entries)
    (hinner : EntriesFit inner) : EntriesFit (Toml.setNode name (.table standing inner) entries) :=
  h.setNode (fitsWords_node_table_iff.mpr hinner)

/-- The numbers of the last table of an array that is found fit. -/
theorem EntriesFit.of_lookup_last {standing : Standing} {last : Entries} {before : List Node}
    (h : EntriesFit entries)
    (hname : entries.lookup name = some (.tables (.table standing last :: before))) :
    EntriesFit last :=
  fitsWords_node_table_iff.mp
    (List.forall_mem_cons.mp (fitsWords_node_tables_iff.mp (h.of_lookup hname))).1

/-- The numbers still fit after the last table of an array gives way to one whose numbers do. -/
theorem EntriesFit.setLast {standing : Standing} {last changed : Entries} {before : List Node}
    (h : EntriesFit entries)
    (hname : entries.lookup name = some (.tables (.table standing last :: before)))
    (hchanged : EntriesFit changed) :
    EntriesFit (Toml.setNode name (.tables (.table standing changed :: before)) entries) := by
  obtain ⟨-, hbefore⟩ :=
    List.forall_mem_cons.mp (fitsWords_node_tables_iff.mp (h.of_lookup hname))
  exact h.setNode (fitsWords_node_tables_iff.mpr
    (List.forall_mem_cons.mpr ⟨fitsWords_node_table_iff.mpr hchanged, hbefore⟩))

/-- The numbers fit after a change of a table below, if they do after the change itself. -/
theorem EntriesFit.changeAt {change : Entries → Option Entries}
    (hchange : ∀ {entries grown}, EntriesFit entries → change entries = some grown →
      EntriesFit grown)
    (h : EntriesFit entries) (hgrown : changeAt change path entries = some grown) :
    EntriesFit grown := by
  induction path generalizing entries grown with
  | nil => exact hchange h hgrown
  | cons name path ih =>
    rw [Toml.changeAt] at hgrown
    split at hgrown
    · obtain ⟨inner, hinner, rfl⟩ := Option.map_eq_some_iff.mp hgrown
      exact h.setTable (ih (List.forall_mem_nil _) hinner)
    · rename_i standing inner hname
      obtain ⟨changed, hchanged, rfl⟩ := Option.map_eq_some_iff.mp hgrown
      exact h.setTable (ih (h.of_lookup_table hname) hchanged)
    · rename_i standing last before hname
      obtain ⟨changed, hchanged, rfl⟩ := Option.map_eq_some_iff.mp hgrown
      exact h.setLast hname (ih (h.of_lookup_last hname) hchanged)
    · cases hgrown

/-- The numbers fit after the table of a header begins. -/
theorem EntriesFit.beginTable (h : EntriesFit entries)
    (hgrown : beginTable name entries = some grown) : EntriesFit grown := by
  rw [Toml.beginTable] at hgrown
  split at hgrown
  · obtain rfl := Option.some.inj hgrown
    exact h.setTable (List.forall_mem_nil _)
  · rename_i inner hname
    obtain rfl := Option.some.inj hgrown
    exact h.setTable (h.of_lookup_table hname)
  · cases hgrown

/-- The numbers fit after a further table of an array begins. -/
theorem EntriesFit.beginItem (h : EntriesFit entries)
    (hgrown : beginItem name entries = some grown) : EntriesFit grown := by
  have hnew : (Node.table .named []).datum.FitsWords :=
    fitsWords_node_table_iff.mpr (List.forall_mem_nil _)
  rw [Toml.beginItem] at hgrown
  split at hgrown
  · obtain rfl := Option.some.inj hgrown
    exact h.setNode (fitsWords_node_tables_iff.mpr (List.forall_mem_singleton.mpr hnew))
  · rename_i items hname
    obtain rfl := Option.some.inj hgrown
    exact h.setNode (fitsWords_node_tables_iff.mpr (List.forall_mem_cons.mpr
      ⟨hnew, fitsWords_node_tables_iff.mp (h.of_lookup hname)⟩))
  · cases hgrown

/-- The numbers fit after a value is put whose numbers do. -/
theorem EntriesFit.putValue (hdatum : datum.FitsWords) {parts : List Text} (h : EntriesFit entries)
    (hgrown : putValue datum name parts entries = some grown) : EntriesFit grown := by
  induction parts generalizing name entries grown with
  | nil =>
    rw [Toml.putValue] at hgrown
    split at hgrown
    · cases hgrown
    · obtain rfl := Option.some.inj hgrown
      exact h.setNode hdatum
  | cons part parts ih =>
    rw [Toml.putValue] at hgrown
    split at hgrown
    · obtain ⟨inner, hinner, rfl⟩ := Option.map_eq_some_iff.mp hgrown
      exact h.setTable (ih (List.forall_mem_nil _) hinner)
    · rename_i standing inner hname
      split at hgrown
      · obtain ⟨changed, hchanged, rfl⟩ := Option.map_eq_some_iff.mp hgrown
        exact h.setTable (ih (h.of_lookup_table hname) hchanged)
      · cases hgrown
    · rename_i standing last before hname
      split at hgrown
      · cases hgrown
      · obtain ⟨changed, hchanged, rfl⟩ := Option.map_eq_some_iff.mp hgrown
        exact h.setLast hname (ih (h.of_lookup_last hname) hchanged)
    · cases hgrown

/-- A whole number fits into a word, or no field can hold it. -/
theorem fitsWords_boundedInteger? {negative : Bool} {n : Nat}
    (h : boundedInteger? negative n = some datum) : datum.FitsWords := by
  rw [boundedInteger?] at h
  split at h
  · split at h
    · obtain rfl := Option.some.inj h
      exact .natural (by decide)
    · split at h
      · obtain rfl := Option.some.inj h
        exact .other
      · cases h
  · split at h
    · rename_i hlt
      obtain rfl := Option.some.inj h
      exact .natural hlt
    · split at h
      · obtain rfl := Option.some.inj h
        exact .other
      · cases h

/-- A scalar that is a number fits into a word. -/
theorem fitsWords_scalar? (h : scalar? t = some datum) : datum.FitsWords := by
  rw [scalar?] at h
  split at h
  · obtain rfl := Option.some.inj h
    exact .bool true
  · split at h
    · obtain rfl := Option.some.inj h
      exact .bool false
    · split at h
      · obtain rfl := Option.some.inj h
        exact .other
      · unfold integer? at h
        split at h
        all_goals
          obtain ⟨plain, -, h⟩ := Option.bind_eq_some_iff.mp h
          exact fitsWords_boundedInteger? h

/-- A scalar at the front of a text fits into a word if it is a number. -/
theorem fitsWords_takeScalar (h : takeScalar t = some (datum, rest)) : datum.FitsWords := by
  have hscalar {run behind : Text}
      (h : ((scalar? run).map fun value => (value, behind)) = some (datum, rest)) :
      datum.FitsWords := by
    obtain ⟨value, hvalue, hpair⟩ := Option.map_eq_some_iff.mp h
    obtain ⟨rfl, -⟩ := Prod.mk.inj hpair
    exact fitsWords_scalar? hvalue
  unfold takeScalar at h
  dsimp only at h
  split at h
  · split at h
    · exact hscalar h
    · exact hscalar h
  · exact hscalar h

/-- Whether the numbers in all that is read within a budget fit into words: in a value, in the items
of an array, and in the pairs of a table in braces. -/
structure FitsWithin (budget : Nat) : Prop where
  value : ∀ {t datum rest}, takeValue budget t = some (datum, rest) → datum.FitsWords
  items : ∀ {t items rest}, takeItems budget t = some (items, rest) →
    ∀ datum ∈ items, datum.FitsWords
  pairs : ∀ {entries t grown rest}, EntriesFit entries →
    takePairs budget entries t = some (grown, rest) → EntriesFit grown

variable {budget : Nat}

/-- The numbers of a value fit into words if those in what it holds do. -/
theorem FitsWithin.takeValue (h : FitsWithin budget)
    (hread : takeValue (budget + 1) t = some (datum, rest)) : datum.FitsWords := by
  have hheld {α : Type} {f : α → Datum} {found : Option (α × Text)}
      (hfound : found.map (fun x => (f x.1, x.2)) = some (datum, rest)) :
      ∃ held behind, found = some (held, behind) ∧ datum = f held := by
    obtain ⟨⟨held, behind⟩, hheld, hpair⟩ := Option.map_eq_some_iff.mp hfound
    exact ⟨held, behind, hheld, (Prod.mk.inj hpair).1.symm⟩
  unfold Toml.takeValue at hread
  split at hread
  · obtain ⟨items, _, hitems, rfl⟩ := hheld hread
    exact .list (h.items hitems)
  · obtain ⟨entries, _, hentries, rfl⟩ := hheld (f := .table ∘ dataOfEntries) hread
    exact fitsWords_table_iff.mpr (h.pairs (List.forall_mem_nil _) hentries)
  · obtain ⟨body, _, -, rfl⟩ := hheld hread
    exact .text body
  · obtain ⟨body, _, -, rfl⟩ := hheld hread
    exact .text body
  · exact fitsWords_takeScalar hread

/-- The numbers of the items of an array fit into words if those of the first value and of the other
items do. -/
theorem FitsWithin.takeItems (h : FitsWithin budget) {items : List Datum}
    (hread : takeItems (budget + 1) t = some (items, rest)) :
    ∀ datum ∈ items, datum.FitsWords := by
  rw [Toml.takeItems] at hread
  split at hread
  · obtain ⟨rfl, -⟩ := Prod.mk.inj (Option.some.inj hread)
    exact List.forall_mem_nil _
  · obtain ⟨⟨first, behind⟩, hfirst, hread⟩ := Option.bind_eq_some_iff.mp hread
    have hfirst := h.value hfirst
    dsimp only at hread
    split at hread
    · obtain ⟨⟨more, last⟩, hmore, hpair⟩ := Option.map_eq_some_iff.mp hread
      obtain ⟨rfl, -⟩ := Prod.mk.inj hpair
      exact List.forall_mem_cons.mpr ⟨hfirst, h.items hmore⟩
    · obtain ⟨rfl, -⟩ := Prod.mk.inj (Option.some.inj hread)
      exact List.forall_mem_singleton.mpr hfirst
    · cases hread

/-- The numbers of the pairs of a table in braces fit into words if those of the first value and of
the other pairs do. -/
theorem FitsWithin.takePairs (h : FitsWithin budget) (hentries : EntriesFit entries)
    (hread : takePairs (budget + 1) entries t = some (grown, rest)) : EntriesFit grown := by
  rw [Toml.takePairs] at hread
  split at hread
  · obtain ⟨rfl, -⟩ := Prod.mk.inj (Option.some.inj hread)
    exact hentries
  · obtain ⟨⟨key, behind⟩, -, hread⟩ := Option.bind_eq_some_iff.mp hread
    obtain ⟨⟨value, behind⟩, hvalue, hread⟩ := Option.bind_eq_some_iff.mp hread
    obtain ⟨entries', hput, hread⟩ := Option.bind_eq_some_iff.mp hread
    have hput := hentries.putValue (h.value hvalue) hput
    split at hread
    · exact h.pairs hput hread
    · obtain ⟨rfl, -⟩ := Prod.mk.inj (Option.some.inj hread)
      exact hput
    · cases hread

/-- The numbers in all that is read fit into words, whatever the budget. -/
theorem fitsWithin (budget : Nat) : FitsWithin budget := by
  induction budget with
  | zero => exact ⟨fun h => (by cases h), fun h => (by cases h), fun _ h => (by cases h)⟩
  | succ budget ih => exact ⟨ih.takeValue, ih.takeItems, ih.takePairs⟩

/-- Whether the numbers in a statement fit into words. -/
def Statement.Fits : Statement → Prop
  | .value _ datum => datum.FitsWords
  | _ => True

/-- The numbers in a statement fit into words. -/
theorem fits_of_takeStatement {statement : Statement}
    (h : takeStatement t = some (statement, rest)) : statement.Fits := by
  unfold takeStatement at h
  split at h
  · obtain ⟨⟨key, behind⟩, -, h⟩ := Option.bind_eq_some_iff.mp h
    split at h
    · obtain ⟨rfl, -⟩ := Prod.mk.inj (Option.some.inj h)
      trivial
    · cases h
  · obtain ⟨⟨key, behind⟩, -, h⟩ := Option.bind_eq_some_iff.mp h
    split at h
    · obtain ⟨rfl, -⟩ := Prod.mk.inj (Option.some.inj h)
      trivial
    · cases h
  · obtain ⟨⟨key, behind⟩, -, h⟩ := Option.bind_eq_some_iff.mp h
    obtain ⟨⟨value, behind⟩, hvalue, h⟩ := Option.bind_eq_some_iff.mp h
    obtain ⟨rfl, -⟩ := Prod.mk.inj (Option.some.inj h)
    exact (fitsWithin _).value hvalue

/-- The numbers in all statements of a text fit into words. -/
theorem fits_of_mem_statements {budget : Nat} {found : List Statement}
    (h : statements budget t = some found) : ∀ statement ∈ found, statement.Fits := by
  induction budget generalizing t found with
  | zero => cases h
  | succ budget ih =>
    rw [statements] at h
    split at h
    · obtain rfl := Option.some.inj h
      exact List.forall_mem_nil _
    · obtain ⟨⟨first, behind⟩, hfirst, h⟩ := Option.bind_eq_some_iff.mp h
      obtain ⟨more, -, h⟩ := Option.bind_eq_some_iff.mp h
      obtain ⟨others, hothers, h⟩ := Option.bind_eq_some_iff.mp h
      obtain rfl := Option.some.inj h
      exact List.forall_mem_cons.mpr ⟨fits_of_takeStatement hfirst, ih hothers⟩

/-- The numbers in the tables of a document still fit after a statement whose numbers do. -/
theorem entriesFit_adding {tables grown : Tables} {statement : Statement} (hfits : statement.Fits)
    (h : EntriesFit tables.entries) (hgrown : tables.adding statement = some grown) :
    EntriesFit grown.entries := by
  cases statement with
  | table key =>
    obtain ⟨entries, hentries, rfl⟩ := Option.map_eq_some_iff.mp hgrown
    exact h.changeAt EntriesFit.beginTable hentries
  | item key =>
    obtain ⟨entries, hentries, rfl⟩ := Option.map_eq_some_iff.mp hgrown
    exact h.changeAt EntriesFit.beginItem hentries
  | value key datum =>
    obtain ⟨entries, hentries, rfl⟩ := Option.map_eq_some_iff.mp hgrown
    exact h.changeAt (EntriesFit.putValue hfits) hentries

/-- The numbers in the tables of a document fit after all statements. -/
theorem entriesFit_foldlM_adding {found : List Statement} {tables grown : Tables}
    (hfits : ∀ statement ∈ found, statement.Fits) (h : EntriesFit tables.entries)
    (hgrown : found.foldlM Tables.adding tables = some grown) : EntriesFit grown.entries := by
  induction found generalizing tables with
  | nil =>
    obtain rfl := Option.some.inj hgrown
    exact h
  | cons statement found ih =>
    rw [List.foldlM_cons] at hgrown
    obtain ⟨middle, hmiddle, hgrown⟩ := Option.bind_eq_some_iff.mp hgrown
    obtain ⟨hfirst, hmore⟩ := List.forall_mem_cons.mp hfits
    exact ih hmore (entriesFit_adding hfirst h hmiddle) hgrown

/-- In data from TOML all numbers fit into words. -/
theorem fitsWords_read? (h : read? t = some datum) : datum.FitsWords := by
  obtain ⟨found, hfound, h⟩ := Option.bind_eq_some_iff.mp h
  obtain ⟨tables, htables, h⟩ := Option.bind_eq_some_iff.mp h
  obtain rfl := Option.some.inj h
  have hempty : EntriesFit (Tables.mk [] []).entries := List.forall_mem_nil _
  exact fitsWords_table_iff.mpr
    (entriesFit_foldlM_adding (fits_of_mem_statements hfound) hempty htables)

end Marginalia.Toml
