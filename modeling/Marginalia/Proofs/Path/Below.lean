import Marginalia.Proofs.Path.Join

/-!
# Paths below a path

Names written one behind another lead from a path to the paths below it. The names are the
components behind those of the path, so different names make different paths, and cutting such a
path leaves the names with slashes between them.
-/

namespace Marginalia.Path

open Bytes

variable {root p q : Path} {name : Bytes} {names others : List Bytes}

/-- The path to which some names lead from a path. -/
def below (root : Path) (names : List Bytes) : Path :=
  names.foldl (fun path name => path.join ⟨name⟩) root

@[simp] theorem below_nil : root.below [] = root := rfl

@[simp] theorem below_cons : root.below (name :: names) = (root.join ⟨name⟩).below names := rfl

/-- The last name leads on from where those before it lead. -/
theorem below_concat : root.below (names ++ [name]) = (root.below names).join ⟨name⟩ := by
  rw [below, List.foldl_append]
  rfl

/-- A name has no start. -/
theorem isRest_of_isName (h : IsName name) : (Path.mk name).IsRest := by
  obtain ⟨-, hdot, -, hslash⟩ := h
  refine isStart_nil_iff.mpr fun b rest hname => Bool.eq_false_iff.mpr fun hbare => ?_
  subst hname
  rcases isBare_eq_true_iff.mp hbare with rfl | ⟨rfl, rfl | hhead⟩
  · exact hslash List.mem_cons_self
  · exact hdot rfl
  · exact hslash (List.mem_cons_of_mem _ (List.mem_of_head? hhead))

/-- A name is the component behind those of the path before it. -/
theorem components_join_of_isName (h : IsName name) :
    (p.join ⟨name⟩).components = p.components ++ [.name name] := by
  rw [components_join (isRest_of_isName h), (isRest_of_isName h).components_eq, inner_of_isName h]

/-- Names are the components behind those of the path from which they lead. -/
theorem components_below (h : ∀ name ∈ names, IsName name) :
    (root.below names).components = root.components ++ names.map .name := by
  induction names generalizing root with
  | nil => simp
  | cons name names ih =>
    obtain ⟨hname, hnames⟩ := List.forall_mem_cons.mp h
    rw [below_cons, ih hnames, components_join_of_isName hname, List.append_assoc]
    rfl

/-- Names lead from a path that is not blank to one that is not. -/
theorem bytes_below_ne_nil (hroot : root.bytes ≠ []) (h : ∀ name ∈ names, IsName name) :
    (root.below names).bytes ≠ [] := by
  intro hnil
  have hcomponents := components_of_bytes_eq_nil hnil
  rw [components_below h] at hcomponents
  exact components_ne_nil hroot (List.append_eq_nil_iff.mp hcomponents).1

/-- Different names lead to different paths. -/
theorem eq_of_components_below (h : ∀ name ∈ names, IsName name)
    (hothers : ∀ name ∈ others, IsName name)
    (heq : (root.below names).components = (root.below others).components) : names = others := by
  rw [components_below h, components_below hothers, List.append_cancel_left_eq] at heq
  exact List.map_injective_iff.mpr (fun _ _ => Component.name.inj) heq

/-- A path made of names alone. -/
def ofNames (names : List Bytes) : Path :=
  ⟨[slash].intercalate names⟩

/-- A name behind others is written with a slash between. -/
theorem bytes_ofNames_cons (hne : names ≠ []) :
    (ofNames (name :: names)).bytes = name ++ slash :: (ofNames names).bytes := by
  rw [ofNames, List.intercalate_cons_of_ne_nil hne, List.append_assoc]
  rfl

theorem bytes_ofNames_singleton : (ofNames [name]).bytes = name := by
  rw [ofNames, List.intercalate_singleton]

/-- A path made of names is not blank. -/
theorem bytes_ofNames_ne_nil (hne : names ≠ []) (h : ∀ name ∈ names, IsName name) :
    (ofNames names).bytes ≠ [] := by
  obtain ⟨name, names, rfl⟩ := List.exists_cons_of_ne_nil hne
  have hname := (List.forall_mem_cons.mp h).1.1
  by_cases hnil : names = []
  · rwa [hnil, bytes_ofNames_singleton]
  · rw [bytes_ofNames_cons hnil]
    exact List.append_ne_nil_of_left_ne_nil hname _

/-- A name stays one when it is read backwards. -/
theorem isName_reverse (h : IsName name) : IsName name.reverse := by
  obtain ⟨hne, hdot, hdots, hslash⟩ := h
  exact ⟨by simpa using hne, fun h => hdot (List.reverse_eq_iff.mp h),
    fun h => hdots (List.reverse_eq_iff.mp h), by simpa using hslash⟩

/-- A path made of names has no start, neither read forwards nor read backwards. -/
theorem isStart_ofNames (hne : names ≠ []) (h : ∀ name ∈ names, IsName name) :
    (ofNames names).IsRest ∧ IsStart [] (ofNames names).bytes.reverse := by
  induction names with
  | nil => exact absurd rfl hne
  | cons name names ih =>
    obtain ⟨hname, hnames⟩ := List.forall_mem_cons.mp h
    have hfront : IsStart [] name := isRest_of_isName hname
    rw [IsRest]
    by_cases hnil : names = []
    · rw [hnil, bytes_ofNames_singleton]
      exact ⟨hfront, isRest_of_isName (isName_reverse hname)⟩
    · obtain ⟨-, hback⟩ := ih hnil hnames
      rw [bytes_ofNames_cons hnil]
      refine ⟨hfront.append_slash hname.1 _, ?_⟩
      rw [List.reverse_append, List.reverse_cons, List.append_assoc]
      exact hback.append_slash (by simpa using bytes_ofNames_ne_nil hnil hnames) _

/-- A relative path is written behind another one that ends with a slash. -/
theorem join_eq (hp : p.bytes ≠ []) (hq : q.isAbsolute = false) :
    p.join q =
      ⟨(if p.bytes.getLast? = some slash then p.bytes else p.bytes ++ [slash]) ++ q.bytes⟩ := by
  rw [join, if_neg (by simp [hq, hp])]
  split
  · rfl
  · rw [List.append_assoc, List.singleton_append]

/-- A path behind a name behind a path is written with a slash between. -/
theorem join_join (hp : p.bytes ≠ []) (h : IsName name) (hq : q.isAbsolute = false) :
    (p.join ⟨name⟩).join q = p.join ⟨name ++ slash :: q.bytes⟩ := by
  have hname : IsStart [] name := isRest_of_isName h
  have hrelative : (Path.mk name).isAbsolute = false := IsRest.isAbsolute_eq_false hname
  have hboth : (Path.mk (name ++ slash :: q.bytes)).isAbsolute = false :=
    IsRest.isAbsolute_eq_false (hname.append_slash h.1 q.bytes)
  obtain ⟨hne, -, -, hslash⟩ := h
  rw [join_eq hp hrelative, join_eq hp hboth]
  generalize (if p.bytes.getLast? = some slash then p.bytes else p.bytes ++ [slash]) = front
  have hlast : (front ++ name).getLast? ≠ some slash := by
    intro hlast
    rw [List.getLast?_append_of_ne_nil _ hne] at hlast
    exact hslash (List.mem_of_getLast? hlast)
  rw [join_eq (List.append_ne_nil_of_right_ne_nil front hne) hq, if_neg hlast, List.append_assoc,
    List.append_assoc, List.singleton_append]

/-- The path to which names lead is that of the names behind the path from which they lead. -/
theorem below_eq_join (hroot : root.bytes ≠ []) (hne : names ≠ [])
    (h : ∀ name ∈ names, IsName name) : root.below names = root.join (ofNames names) := by
  induction names generalizing root with
  | nil => exact absurd rfl hne
  | cons name names ih =>
    obtain ⟨hname, hnames⟩ := List.forall_mem_cons.mp h
    by_cases hnil : names = []
    · rw [hnil, ofNames, List.intercalate_singleton]
      rfl
    · have hjoin : (root.join ⟨name⟩).bytes ≠ [] := by
        obtain ⟨front, -, hjoin⟩ := FileTree.bytes_join hroot hname.2.2.2
        simp [hjoin]
      have hrest := (isStart_ofNames hnil hnames).1
      rw [below_cons, ih hjoin hnil hnames, join_join hroot hname hrest.isAbsolute_eq_false,
        ← bytes_ofNames_cons hnil]

/-- The path to which names lead, cut where they start, is that of the names. -/
theorem stripPrefix?_below (hroot : root.bytes ≠ []) (hne : names ≠ [])
    (h : ∀ name ∈ names, IsName name) :
    (root.below names).stripPrefix? root = some (ofNames names) := by
  obtain ⟨hfront, hback⟩ := isStart_ofNames hne h
  rw [below_eq_join hroot hne h]
  refine stripPrefix?_join hroot hfront ?_
  rw [trimBack, trimFront_of_isStart hback, List.reverse_reverse]

end Marginalia.Path
