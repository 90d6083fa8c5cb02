import Mathlib.Data.List.Basic
import Marginalia.FileTree.Follow

/-!
# Where paths lead

Names are followed one after another: to a directory that is there already, to the one above, over a
link, or to an entry. So names either fail whatever stands behind them or lead to a place from which
the names behind are followed, and a path to a directory, with a name behind that is no link there,
leads to the entry with that name.
-/

namespace Marginalia

open Bytes

/-- Whether a path can lead to an entry by its name: the name is not blank, holds no slash and does
not mean a directory that is there already. -/
def IsName (name : Bytes) : Prop :=
  name ≠ [] ∧ name ≠ [dot] ∧ name ≠ [dot, dot] ∧ slash ∉ name

instance (name : Bytes) : Decidable (IsName name) :=
  inferInstanceAs (Decidable (_ ∧ _ ∧ _ ∧ _))

namespace FileTree

variable {tree : FileTree} {here place : Place} {budget : Nat} {name : Bytes} {rest : List Bytes}

/-- Nothing is followed to where it starts. -/
@[simp] theorem follow_nil : tree.follow budget here [] = .ok here := by
  cases budget <;> rfl

/-- No name is followed from a place without a directory. -/
theorem follow_of_not_directoryAt (hhere : tree.directoryAt here = false) :
    tree.follow budget here (name :: rest) =
      .error (if (tree.entryAt? here).isSome then .notDirectory else .notFound) := by
  cases budget <;> rw [follow, followNames, if_pos (by simpa using hhere)]

/-- A blank name and a dot stay in a directory. -/
theorem follow_here (hhere : tree.directoryAt here = true) (hname : name = [] ∨ name = [dot]) :
    tree.follow budget here (name :: rest) = tree.follow budget here rest := by
  cases budget <;> rw [follow, followNames, if_neg (by simpa using hhere), if_pos hname]

/-- Two dots lead to the directory above. -/
theorem follow_above (hhere : tree.directoryAt here = true) :
    tree.follow budget here ([dot, dot] :: rest) = tree.follow budget here.dropLast rest := by
  cases budget <;>
    rw [follow, followNames, if_neg (by simpa using hhere), if_neg (by decide), if_pos rfl]

/-- A name that is no link in a directory leads to what has it there, or would have it. -/
theorem follow_entry (hhere : tree.directoryAt here = true) (hname : ¬(name = [] ∨ name = [dot]))
    (hdots : name ≠ [dot, dot])
    (hlink : ∀ target, tree.entryAt? (here ++ [name]) ≠ some (.link target)) :
    tree.follow budget here (name :: rest) = tree.follow budget (here ++ [name]) rest := by
  cases budget <;>
  · rw [follow, followNames, if_neg (by simpa using hhere), if_neg hname, if_neg hdots]
    split
    · rename_i target htarget
      exact absurd htarget (hlink target)
    · rfl

/-- A link is not followed when no link may be followed any more. -/
theorem follow_link_zero {target : Bytes} (hhere : tree.directoryAt here = true)
    (hname : ¬(name = [] ∨ name = [dot])) (hdots : name ≠ [dot, dot])
    (htarget : tree.entryAt? (here ++ [name]) = some (.link target)) :
    tree.follow 0 here (name :: rest) = .error .tooManyLinks := by
  rw [follow, followNames, if_neg (by simpa using hhere), if_neg hname, if_neg hdots]
  simp only [htarget]

/-- A link leads where its target does. -/
theorem follow_link_succ {target : Bytes} (hhere : tree.directoryAt here = true)
    (hname : ¬(name = [] ∨ name = [dot])) (hdots : name ≠ [dot, dot])
    (htarget : tree.entryAt? (here ++ [name]) = some (.link target)) :
    tree.follow (budget + 1) here (name :: rest) =
      tree.follow budget (if target.head? = some slash then [] else here)
        (namesOf target ++ rest) := by
  rw [follow, followNames, if_neg (by simpa using hhere), if_neg hname, if_neg hdots]
  simp only [htarget]

/-- Names are followed one after another while there are no links. -/
theorem followNames_induction (tree : FileTree) {motive : Place → List Bytes → Prop}
    (done : ∀ here, motive here [])
    (outside : ∀ here name rest, tree.directoryAt here = false → motive here (name :: rest))
    (stays : ∀ here name rest, tree.directoryAt here = true → name = [] ∨ name = [dot] →
      motive here rest → motive here (name :: rest))
    (above : ∀ here rest, tree.directoryAt here = true → motive here.dropLast rest →
      motive here ([dot, dot] :: rest))
    (link : ∀ here name rest target, tree.directoryAt here = true →
      ¬(name = [] ∨ name = [dot]) → name ≠ [dot, dot] →
      tree.entryAt? (here ++ [name]) = some (.link target) → motive here (name :: rest))
    (entry : ∀ here name rest, tree.directoryAt here = true → ¬(name = [] ∨ name = [dot]) →
      name ≠ [dot, dot] → (∀ target, tree.entryAt? (here ++ [name]) ≠ some (.link target)) →
      motive (here ++ [name]) rest → motive here (name :: rest))
    (here : Place) (names : List Bytes) : motive here names := by
  induction names generalizing here with
  | nil => exact done here
  | cons name rest ih =>
    cases hhere : tree.directoryAt here with
    | false => exact outside here name rest hhere
    | true =>
      by_cases hname : name = [] ∨ name = [dot]
      · exact stays here name rest hhere hname (ih here)
      · by_cases hdots : name = [dot, dot]
        · obtain rfl := hdots
          exact above here rest hhere (ih _)
        · by_cases hlink : ∃ target, tree.entryAt? (here ++ [name]) = some (.link target)
          · obtain ⟨target, htarget⟩ := hlink
            exact link here name rest target hhere hname hdots htarget
          · exact entry here name rest hhere hname hdots (not_exists.mp hlink) (ih _)

/-- Names are followed one after another, and over a link with one link less. -/
theorem follow_induction (tree : FileTree) {motive : Nat → Place → List Bytes → Prop}
    (done : ∀ budget here, motive budget here [])
    (outside : ∀ budget here name rest, tree.directoryAt here = false →
      motive budget here (name :: rest))
    (stays : ∀ budget here name rest, tree.directoryAt here = true → name = [] ∨ name = [dot] →
      motive budget here rest → motive budget here (name :: rest))
    (above : ∀ budget here rest, tree.directoryAt here = true →
      motive budget here.dropLast rest → motive budget here ([dot, dot] :: rest))
    (noLink : ∀ here name rest target, tree.directoryAt here = true →
      ¬(name = [] ∨ name = [dot]) → name ≠ [dot, dot] →
      tree.entryAt? (here ++ [name]) = some (.link target) → motive 0 here (name :: rest))
    (link : ∀ left here name rest target, tree.directoryAt here = true →
      ¬(name = [] ∨ name = [dot]) → name ≠ [dot, dot] →
      tree.entryAt? (here ++ [name]) = some (.link target) →
      motive left (if target.head? = some slash then [] else here) (namesOf target ++ rest) →
      motive (left + 1) here (name :: rest))
    (entry : ∀ budget here name rest, tree.directoryAt here = true →
      ¬(name = [] ∨ name = [dot]) → name ≠ [dot, dot] →
      (∀ target, tree.entryAt? (here ++ [name]) ≠ some (.link target)) →
      motive budget (here ++ [name]) rest → motive budget here (name :: rest))
    (budget : Nat) (here : Place) (names : List Bytes) : motive budget here names := by
  induction budget generalizing here names with
  | zero =>
    exact followNames_induction tree (done 0) (outside 0) (stays 0) (above 0) noLink (entry 0)
      here names
  | succ left ih =>
    exact followNames_induction tree (done _) (outside _) (stays _) (above _)
      (fun here name rest target hhere hname hdots htarget =>
        link left here name rest target hhere hname hdots htarget (ih _ _))
      (entry _) here names

/-- Names fail whatever stands behind them, or lead to a place from which the names behind are
followed over the links that are left. -/
theorem follow_append (tree : FileTree) (budget : Nat) (here : Place) (names : List Bytes) :
    (∃ left place, ∀ more, tree.follow budget here (names ++ more) = tree.follow left place more) ∨
      ∃ fault, ∀ more, tree.follow budget here (names ++ more) = .error fault := by
  induction budget, here, names using follow_induction tree with
  | done budget here => exact .inl ⟨budget, here, fun more => rfl⟩
  | outside budget here name rest hhere =>
    exact .inr ⟨_, fun more => follow_of_not_directoryAt hhere⟩
  | stays budget here name rest hhere hname ih =>
    simpa only [List.cons_append, follow_here hhere hname] using ih
  | above budget here rest hhere ih => simpa only [List.cons_append, follow_above hhere] using ih
  | noLink here name rest target hhere hname hdots htarget =>
    exact .inr ⟨_, fun more => follow_link_zero hhere hname hdots htarget⟩
  | link left here name rest target hhere hname hdots htarget ih =>
    simpa only [List.cons_append, follow_link_succ hhere hname hdots htarget,
      List.append_assoc] using ih
  | entry budget here name rest hhere hname hdots hlink ih =>
    simpa only [List.cons_append, follow_entry hhere hname hdots hlink] using ih

/-- Names that lead to a directory lead on from there over the links that are left. -/
theorem exists_follow_append {names : List Bytes} (h : tree.follow budget here names = .ok place) :
    ∃ left, ∀ more, tree.follow budget here (names ++ more) = tree.follow left place more := by
  rcases follow_append tree budget here names with ⟨left, q, hmore⟩ | ⟨fault, hfault⟩
  · have hq := hmore []
    rw [List.append_nil, follow_nil, h] at hq
    exact ⟨left, Except.ok.inj hq ▸ hmore⟩
  · have hq := hfault []
    rw [List.append_nil, h] at hq
    cases hq

/-- Names lead to a directory without a blank name behind them, too. -/
theorem follow_of_append_blank {names : List Bytes}
    (h : tree.follow budget here (names ++ [[]]) = .ok place) :
    tree.follow budget here names = .ok place := by
  rcases follow_append tree budget here names with ⟨left, q, hmore⟩ | ⟨fault, hfault⟩
  · rw [hmore] at h
    rw [← List.append_nil names, hmore]
    cases hq : tree.directoryAt q with
    | true => rwa [follow_here hq (.inl rfl)] at h
    | false => rw [follow_of_not_directoryAt hq] at h; cases h
  · rw [hfault] at h
    cases h

/-- A path leads to an entry when it is not blank and its names lead to the place of the entry. -/
theorem locate_eq_ok_iff {path : Path} {entry : Entry} :
    tree.locate path = .ok (place, entry) ↔
      path.bytes ≠ [] ∧ tree.follow linkLimit (tree.startOf path) (namesOf path.bytes) = .ok place ∧
        tree.entryAt? place = some entry := by
  rw [locate]
  by_cases hblank : path.bytes = []
  · simp [hblank]
  · rw [if_neg hblank]
    cases tree.follow linkLimit (tree.startOf path) (namesOf path.bytes) with
    | error fault => simp [bind, Except.bind]
    | ok q =>
      cases hentry : tree.entryAt? q with
      | none =>
        simp only [bind, Except.bind, hentry, Except.ok.injEq, reduceCtorEq, false_iff]
        rintro ⟨-, rfl, hplace⟩
        rw [hentry] at hplace
        cases hplace
      | some found =>
        simp only [bind, Except.bind, hentry, pure, Except.pure, Except.ok.injEq, Prod.mk.injEq]
        constructor
        · rintro ⟨rfl, rfl⟩
          exact ⟨hblank, rfl, hentry⟩
        · rintro ⟨-, rfl, hplace⟩
          rw [hentry] at hplace
          exact ⟨rfl, Option.some.inj hplace⟩

/-- A path leads to a directory when a directory stands where it leads. -/
theorem directory?_eq_some_iff {path : Path} :
    tree.directory? path = some place ↔
      ∃ listable, tree.locate path = .ok (place, .directory listable) := by
  rw [directory?]
  split
  · rename_i q listable hq
    rw [hq]
    simp
  · rename_i hno
    simp only [reduceCtorEq, false_iff, not_exists]
    exact hno place

/-- A directory stands at a place whether or not it can be listed. -/
theorem directoryAt_eq_true_iff :
    tree.directoryAt place = true ↔ ∃ listable, tree.entryAt? place = some (.directory listable) := by
  rw [directoryAt]
  cases tree.entryAt? place with
  | none => simp
  | some entry => cases entry <;> simp [Entry.isDirectory]

/-- A path leads to a directory when it is not blank and its names lead to one. -/
theorem directory?_eq_some_iff_follow {path : Path} :
    tree.directory? path = some place ↔
      path.bytes ≠ [] ∧
        tree.follow linkLimit (tree.startOf path) (namesOf path.bytes) = .ok place ∧
          tree.directoryAt place = true := by
  simp only [directory?_eq_some_iff, locate_eq_ok_iff, directoryAt_eq_true_iff, exists_and_left]

/-- What is in the file to which a path leads. -/
theorem fileAt_eq_ok_iff {path : Path} {content : Content} {modified : Instant} :
    tree.fileAt path = .ok (content, modified) ↔
      ∃ place, tree.locate path = .ok (place, .file content modified) := by
  rw [fileAt]
  cases tree.locate path with
  | error fault => simp [bind, Except.bind]
  | ok found =>
    obtain ⟨q, entry⟩ := found
    cases entry <;> simp [bind, Except.bind, pure, Except.pure]

/-- A path with a name behind it is written with a slash between. -/
theorem bytes_join {path : Path} {name : Bytes} (hpath : path.bytes ≠ []) (hname : slash ∉ name) :
    ∃ front, (path.bytes = front ∨ path.bytes = front ++ [slash]) ∧
      (path.join ⟨name⟩).bytes = front ++ slash :: name := by
  have hrelative : (Path.mk name).isAbsolute = false := by
    cases name with
    | nil => rfl
    | cons c name =>
      have hc : c ≠ slash := fun hc => hname (hc ▸ List.mem_cons_self)
      simpa [Path.isAbsolute] using hc
  rw [Path.join, if_neg (by simp [hrelative, hpath])]
  split
  · rename_i hslash
    obtain ⟨front, hfront⟩ := List.getLast?_eq_some_iff.mp hslash
    exact ⟨front, .inr hfront, by rw [hfront, List.append_assoc]; rfl⟩
  · exact ⟨path.bytes, .inl rfl, rfl⟩

/-- A path with a name behind it leads from where the path leads from. -/
theorem startOf_join {path : Path} (hpath : path.bytes ≠ []) (hname : slash ∉ name) :
    tree.startOf (path.join ⟨name⟩) = tree.startOf path := by
  obtain ⟨front, hfront, hjoin⟩ := bytes_join hpath hname
  have habsolute : (path.join ⟨name⟩).isAbsolute = path.isAbsolute := by
    rw [Path.isAbsolute, Path.isAbsolute, hjoin]
    rcases hfront with hfront | hfront <;> cases front <;> simp_all
  rw [startOf, startOf, habsolute]

/-- The names of a path with a name behind it are those of the path, up to a slash at its end, and
that name. -/
theorem exists_namesOf_join {path : Path} (hpath : path.bytes ≠ []) (hname : slash ∉ name) :
    ∃ front, (path.bytes = front ∨ path.bytes = front ++ [slash]) ∧ (path.join ⟨name⟩).bytes ≠ [] ∧
      namesOf (path.join ⟨name⟩).bytes = namesOf front ++ [name] := by
  obtain ⟨front, hfront, hjoin⟩ := bytes_join hpath hname
  refine ⟨front, hfront, by simp [hjoin], ?_⟩
  rw [hjoin, namesOf, List.splitOn_append_cons_self, List.splitOn_eq_singleton hname]
  rfl

/-- Behind a path to a directory, the names before the last lead there. -/
theorem exists_follow_namesOf_join {path : Path} (hpath : tree.directory? path = some place)
    (hname : slash ∉ name) :
    ∃ front, (path.join ⟨name⟩).bytes ≠ [] ∧ namesOf (path.join ⟨name⟩).bytes = front ++ [name] ∧
      tree.follow linkLimit (tree.startOf (path.join ⟨name⟩)) front = .ok place := by
  obtain ⟨hblank, hfollow, -⟩ := directory?_eq_some_iff_follow.mp hpath
  obtain ⟨front, hfront, hjoin, hnames⟩ := exists_namesOf_join hblank hname
  refine ⟨namesOf front, hjoin, hnames, ?_⟩
  rw [startOf_join hblank hname]
  rcases hfront with hfront | hfront
  · rwa [hfront] at hfollow
  · rw [hfront, namesOf, List.splitOn_append_cons_self, List.splitOn_nil] at hfollow
    exact follow_of_append_blank hfollow

/-- A path to a directory, with a name behind it that is no link there, leads to the entry with that
name. -/
theorem locate_join_eq_ok_iff {path : Path} (hpath : tree.directory? path = some place)
    (hname : IsName name) (hlink : ∀ target, tree.entryAt? (place ++ [name]) ≠ some (.link target))
    {q : Place} {entry : Entry} :
    tree.locate (path.join ⟨name⟩) = .ok (q, entry) ↔
      q = place ++ [name] ∧ tree.entryAt? q = some entry := by
  obtain ⟨-, -, hplace⟩ := directory?_eq_some_iff_follow.mp hpath
  obtain ⟨hne, hdot, hdots, hslash⟩ := hname
  obtain ⟨front, hjoin, hnames, hfront⟩ := exists_follow_namesOf_join hpath hslash
  obtain ⟨left, hleft⟩ := exists_follow_append hfront
  have hlast : tree.follow left place [name] = .ok (place ++ [name]) := by
    rw [follow_entry hplace (not_or.mpr ⟨hne, hdot⟩) hdots hlink, follow_nil]
  rw [locate_eq_ok_iff, hnames, hleft, hlast, Except.ok.injEq, eq_comm]
  exact and_iff_right hjoin

/-- What stands behind a name behind a path stands in a directory to which the path leads. -/
theorem exists_directory?_of_locate_join {path : Path} (hblank : path.bytes ≠ [])
    (hname : IsName name) {q : Place} {entry : Entry}
    (h : tree.locate (path.join ⟨name⟩) = .ok (q, entry)) :
    ∃ place, tree.directory? path = some place := by
  obtain ⟨-, -, -, hslash⟩ := hname
  obtain ⟨front, hfront, -, hnames⟩ := exists_namesOf_join hblank hslash
  obtain ⟨-, hfollow, -⟩ := locate_eq_ok_iff.mp h
  rw [startOf_join hblank hslash, hnames] at hfollow
  rcases follow_append tree linkLimit (tree.startOf path) (namesOf front) with
    ⟨left, place, hmore⟩ | ⟨fault, hfault⟩
  · rw [hmore] at hfollow
    have hplace : tree.directoryAt place = true := by
      by_contra hno
      rw [follow_of_not_directoryAt (Bool.eq_false_iff.mpr hno)] at hfollow
      cases hfollow
    have hpath : tree.follow linkLimit (tree.startOf path) (namesOf path.bytes) = .ok place := by
      rcases hfront with hfront | hfront
      · rw [hfront, ← List.append_nil (namesOf front), hmore, follow_nil]
      · rw [hfront, namesOf, List.splitOn_append_cons_self, List.splitOn_nil]
        exact (hmore [[]]).trans (by rw [follow_here hplace (.inl rfl), follow_nil])
    exact ⟨place, directory?_eq_some_iff_follow.mpr ⟨hblank, hpath, hplace⟩⟩
  · rw [hfault] at hfollow
    cases hfollow

end FileTree

end Marginalia
