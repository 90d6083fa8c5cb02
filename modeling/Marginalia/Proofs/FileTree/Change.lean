import Marginalia.FileTree.Change
import Marginalia.Proofs.Outcome
import Marginalia.Proofs.Run
import Marginalia.Proofs.Workspace.Walk

/-!
# What a change leaves as it was

Making directories and writing files take nothing away: directories stay directories, links stay
links, and no new link is made. So every way through the tree leads where it led before. A text that
was written is read back, and apart from its place the only thing that is new is directories where
nothing stood.
-/

namespace Marginalia

namespace FileTree

variable {tree middle grown : FileTree} {here place parent : Place} {budget : Nat} {name : Bytes}
  {t : Text} {names : List Bytes} {path : Path} {entry : Entry}

/-- Whether every directory but the top stands in a directory. -/
def IsRooted (tree : FileTree) : Prop :=
  ∀ place, tree.directoryAt place = true → tree.directoryAt place.dropLast = true

/-- Whether all ways through a tree are kept in another one: nothing is taken away, directories and
links stay as they are, and there are no other links. -/
structure KeepsWays (tree grown : FileTree) : Prop where
  working : grown.working = tree.working
  entry : ∀ place, (tree.entryAt? place).isSome → (grown.entryAt? place).isSome
  directory : ∀ place, tree.directoryAt place = true → grown.directoryAt place = true
  link : ∀ place target,
    grown.entryAt? place = some (.link target) ↔ tree.entryAt? place = some (.link target)
  rooted : tree.IsRooted → grown.IsRooted

/-- Whether a place is as it was, or has a directory where nothing stood. -/
def KeepsPlace (tree grown : FileTree) (place : Place) : Prop :=
  grown.entryAt? place = tree.entryAt? place ∨
    tree.entryAt? place = none ∧ grown.entryAt? place = some .directory

/-- Every directory stands in a directory if those among the entries do. -/
theorem isRooted_of_forall_mem
    (h : ∀ e ∈ tree.entries, e.2.isDirectory = true → tree.directoryAt e.1.dropLast = true) :
    tree.IsRooted := by
  intro place hplace
  obtain ⟨listable, hentry⟩ := directoryAt_eq_true_iff.mp hplace
  exact h _ (entryAt?_eq_some_iff.mp hentry) rfl

/-- Ways through a tree are kept in the tree itself. -/
theorem KeepsWays.refl (tree : FileTree) : tree.KeepsWays tree :=
  ⟨rfl, fun _ => id, fun _ => id, fun _ _ => Iff.rfl, id⟩

/-- Ways that are kept by one change and by another one are kept by both. -/
theorem KeepsWays.trans (h : tree.KeepsWays middle) (h' : middle.KeepsWays grown) :
    tree.KeepsWays grown where
  working := h'.working.trans h.working
  entry p hp := h'.entry p (h.entry p hp)
  directory p hp := h'.directory p (h.directory p hp)
  link p target := (h'.link p target).trans (h.link p target)
  rooted hrooted := h'.rooted (h.rooted hrooted)

/-- A place that one change and another one keep is kept by both. -/
theorem KeepsPlace.trans (h : tree.KeepsPlace middle place) (h' : middle.KeepsPlace grown place) :
    tree.KeepsPlace grown place := by
  rcases h with h | ⟨hnone, hdirectory⟩
  · rcases h' with h' | ⟨hnone, hdirectory⟩
    · exact .inl (h'.trans h)
    · exact .inr ⟨h.symm.trans hnone, hdirectory⟩
  · rcases h' with h' | ⟨hfree, -⟩
    · exact .inr ⟨hnone, h'.trans hdirectory⟩
    · rw [hfree] at hdirectory
      cases hdirectory

/-- Names lead where they led before. -/
theorem KeepsWays.follow (h : tree.KeepsWays grown)
    (hfollow : tree.follow budget here names = .ok place) :
    grown.follow budget here names = .ok place := by
  induction budget, here, names using follow_induction tree with
  | done budget here => rwa [follow_nil] at hfollow ⊢
  | outside budget here name rest hhere =>
    rw [follow_of_not_directoryAt hhere] at hfollow
    cases hfollow
  | stays budget here name rest hhere hname ih =>
    rw [follow_here hhere hname] at hfollow
    rw [follow_here (h.directory here hhere) hname]
    exact ih hfollow
  | above budget here rest hhere ih =>
    rw [follow_above hhere] at hfollow
    rw [follow_above (h.directory here hhere)]
    exact ih hfollow
  | noLink here name rest target hhere hname hdots htarget =>
    rw [follow_link_zero hhere hname hdots htarget] at hfollow
    cases hfollow
  | link left here name rest target hhere hname hdots htarget ih =>
    rw [follow_link_succ hhere hname hdots htarget] at hfollow
    rw [follow_link_succ (h.directory here hhere) hname hdots ((h.link _ target).mpr htarget)]
    exact ih hfollow
  | entry budget here name rest hhere hname hdots hlink ih =>
    have hlink' (target : Bytes) : grown.entryAt? (here ++ [name]) ≠ some (.link target) :=
      fun htarget => hlink target ((h.link _ target).mp htarget)
    rw [follow_entry hhere hname hdots hlink] at hfollow
    rw [follow_entry (h.directory here hhere) hname hdots hlink']
    exact ih hfollow

/-- A path leads to a place when it leads to what stands there. -/
theorem place?_eq_some_iff :
    tree.place? path = some place ↔ ∃ entry, tree.locate path = .ok (place, entry) := by
  rw [place?]
  cases tree.locate path with
  | error fault => simp [Except.toOption]
  | ok found =>
    obtain ⟨q, entry⟩ := found
    simp [Except.toOption]

/-- A path leads where it led before. -/
theorem KeepsWays.place?_eq_some (h : tree.KeepsWays grown)
    (hplace : tree.place? path = some place) : grown.place? path = some place := by
  obtain ⟨entry, hlocate⟩ := place?_eq_some_iff.mp hplace
  obtain ⟨hblank, hfollow, hentry⟩ := locate_eq_ok_iff.mp hlocate
  have hfollow' : grown.follow linkLimit (grown.startOf path) (namesOf path.bytes) = .ok place := by
    rw [startOf, h.working]
    exact h.follow hfollow
  obtain ⟨kept, hkept⟩ := Option.isSome_iff_exists.mp
    (h.entry place (Option.isSome_of_eq_some hentry))
  exact place?_eq_some_iff.mpr ⟨kept, locate_eq_ok_iff.mpr ⟨hblank, hfollow', hkept⟩⟩

/-- The text of a file is read where a path leads to it. -/
theorem readText_of_locate {modified : Instant}
    (h : tree.locate path = .ok (place, .file (.text t) modified)) :
    tree.readText path = .ok t := by
  rw [readText, fileAt_eq_ok_iff.mpr ⟨place, h⟩]
  rfl

/-- A blank name leads on from a directory only. -/
theorem directoryAt_of_follow_append_blank
    (h : tree.follow budget here (names ++ [[]]) = .ok place) : tree.directoryAt place = true := by
  rcases follow_append tree budget here names with ⟨left, q, hmore⟩ | ⟨fault, hfault⟩
  · rw [hmore] at h
    cases hq : tree.directoryAt q with
    | true =>
      rw [follow_here hq (.inl rfl), follow_nil] at h
      rwa [← Except.ok.inj h]
    | false =>
      rw [follow_of_not_directoryAt hq] at h
      cases h
  · rw [hfault] at h
    cases h

/-- Where every directory stands in a directory, names do not lead to a link: it would have been
followed. -/
theorem IsRooted.not_link_of_follow (h : tree.IsRooted)
    (hfollow : tree.follow budget here names = .ok place)
    (hstart : names = [] → ∀ target, tree.entryAt? here ≠ some (.link target)) (target : Bytes) :
    tree.entryAt? place ≠ some (.link target) := by
  have hnot {p : Place} (hp : tree.directoryAt p = true) (target : Bytes) :
      tree.entryAt? p ≠ some (.link target) := by
    obtain ⟨listable, hentry⟩ := directoryAt_eq_true_iff.mp hp
    rw [hentry]
    simp
  induction budget, here, names using follow_induction tree with
  | done budget here =>
    rw [follow_nil] at hfollow
    exact Except.ok.inj hfollow ▸ hstart rfl target
  | outside budget here name rest hhere =>
    rw [follow_of_not_directoryAt hhere] at hfollow
    cases hfollow
  | stays budget here name rest hhere hname ih =>
    rw [follow_here hhere hname] at hfollow
    exact ih hfollow fun _ => hnot hhere
  | above budget here rest hhere ih =>
    rw [follow_above hhere] at hfollow
    exact ih hfollow fun _ => hnot (h here hhere)
  | noLink here name rest target' hhere hname hdots htarget =>
    rw [follow_link_zero hhere hname hdots htarget] at hfollow
    cases hfollow
  | link left here name rest target' hhere hname hdots htarget ih =>
    rw [follow_link_succ hhere hname hdots htarget] at hfollow
    refine ih hfollow fun hnames => absurd hnames ?_
    exact List.append_ne_nil_of_left_ne_nil (List.splitOn_ne_nil _ _) rest
  | entry budget here name rest hhere hname hdots hlink ih =>
    rw [follow_entry hhere hname hdots hlink] at hfollow
    exact ih hfollow fun _ => hlink

/-- Putting a file or a directory where neither a link nor a directory stands keeps all ways, if a
new directory stands in a directory. -/
theorem keepsWays_put (hlink : ∀ target, tree.entryAt? place ≠ some (.link target))
    (hentry : ∀ target, entry ≠ .link target) (hdirectory : tree.directoryAt place = false)
    (habove : entry.isDirectory = true → tree.directoryAt place.dropLast = true) :
    tree.KeepsWays (tree.put place entry) := by
  have hput (p : Place) : (tree.put place entry).directoryAt p =
      if p = place then entry.isDirectory else tree.directoryAt p := by
    rw [directoryAt, entryAt?_put]
    split <;> rfl
  have hdirectories (p : Place) (hp : tree.directoryAt p = true) :
      (tree.put place entry).directoryAt p = true := by
    rw [hput, if_neg]
    · exact hp
    · rintro rfl
      rw [hdirectory] at hp
      cases hp
  refine ⟨rfl, fun p hp => ?_, hdirectories, fun p target => ?_, fun hrooted p hp => ?_⟩
  · rw [entryAt?_put]
    split
    · rfl
    · exact hp
  · rw [entryAt?_put]
    split
    · rename_i heq
      subst heq
      simp [hentry target, hlink target]
    · rfl
  · apply hdirectories
    rw [hput] at hp
    split at hp
    · rename_i heq
      exact heq ▸ habove hp
    · exact hrooted p hp

/-- Whether a tree comes from another one by making directories. -/
structure AddsDirectories (tree grown : FileTree) : Prop where
  ways : tree.KeepsWays grown
  now : grown.now = tree.now
  places : ∀ place, tree.KeepsPlace grown place

/-- No directory has to be made. -/
theorem AddsDirectories.refl (tree : FileTree) : tree.AddsDirectories tree :=
  ⟨.refl tree, rfl, fun _ => .inl rfl⟩

/-- Directories are made and then further ones. -/
theorem AddsDirectories.trans (h : tree.AddsDirectories middle)
    (h' : middle.AddsDirectories grown) : tree.AddsDirectories grown :=
  ⟨h.ways.trans h'.ways, h'.now.trans h.now,
    fun place => (h.places place).trans (h'.places place)⟩

/-- A directory is made in a directory where nothing stands. -/
theorem addsDirectories_of_makeDirectory (h : tree.makeDirectory path = .ok grown) :
    tree.AddsDirectories grown := by
  rw [makeDirectory] at h
  split at h
  · cases h
  · rename_i name back _
    obtain ⟨parent, hparent, h⟩ := bind_eq_ok_iff.mp h
    split at h
    · cases h
    · rename_i hfree
      obtain rfl := Except.ok.inj h
      have hnone : tree.entryAt? (parent ++ [name]) = none :=
        Option.not_isSome_iff_eq_none.mp fun hsome => hfree (.inr (.inr hsome))
      refine ⟨keepsWays_put (fun target => by simp [hnone]) (fun target => by simp)
        (by simp [directoryAt, hnone]) fun _ => ?_, rfl, fun p => ?_⟩
      · rw [List.dropLast_concat]
        exact directoryAt_of_follow_append_blank hparent
      · rw [KeepsPlace, entryAt?_put]
        split
        · rename_i heq
          exact .inr ⟨heq ▸ hnone, rfl⟩
        · exact .inl rfl

/-- A text is written where its path leads and no directory stands. -/
theorem exists_of_writeText (h : tree.writeText path t = .ok grown) :
    ∃ place, path.bytes ≠ [] ∧
      tree.follow linkLimit (tree.startOf path) (namesOf path.bytes) = .ok place ∧
      tree.directoryAt place = false ∧ grown = tree.put place (.file (.text t) tree.now) := by
  rw [writeText] at h
  split at h
  · cases h
  · rename_i hblank
    split at h
    · obtain ⟨_, -, h⟩ := bind_eq_ok_iff.mp h
      cases h
    · obtain ⟨place, hfollow, h⟩ := bind_eq_ok_iff.mp h
      split at h
      · cases h
      · rename_i hdirectory
        split at h
        · cases h
        · exact ⟨place, hblank, hfollow, by simpa using hdirectory, (Except.ok.inj h).symm⟩

/-- A text that is written is read back, all ways are kept, and the other places are as they
were. -/
theorem locate_of_writeText (hrooted : tree.IsRooted) (h : tree.writeText path t = .ok grown) :
    tree.KeepsWays grown ∧ ∃ place, grown.locate path = .ok (place, .file (.text t) tree.now) ∧
      ∀ p ≠ place, grown.entryAt? p = tree.entryAt? p := by
  obtain ⟨place, hblank, hfollow, hdirectory, rfl⟩ := exists_of_writeText h
  have hways : tree.KeepsWays (tree.put place (.file (.text t) tree.now)) :=
    keepsWays_put
      (hrooted.not_link_of_follow hfollow fun hnames => absurd hnames (List.splitOn_ne_nil _ _))
      (fun target => by simp) hdirectory (fun hentry => by cases hentry)
  refine ⟨hways, place, locate_eq_ok_iff.mpr ⟨hblank, hways.follow hfollow, ?_⟩, fun p hp => ?_⟩
  · rw [entryAt?_put, if_pos rfl]
  · rw [entryAt?_put, if_neg hp]

end FileTree

namespace FileAction

open FileTree

variable {tree grown : FileTree} {path : Path} {t : Text}

/-- One change succeeds with the tree that it leads to. -/
theorem endOf_change_eq_ok_iff {f : FileTree → Except FileFault FileTree} :
    endOf (change f) tree = (.ok (), grown) ↔ f tree = .ok grown := by
  rw [change, endOf_bind, endOf_get]
  cases hf : f tree <;> simp [hf]

/-- Where a directory cannot be made, the tree stays as it is. -/
@[simp] theorem snd_endOf_retried (path : Path) (fault : FileFault) (tree : FileTree) :
    (endOf (do if (← get).isDirectory path then return else throw fault :
      FileAction FileFault Unit) tree).2 = tree := by
  cases hpath : tree.isDirectory path <;> simp [endOf_bind, hpath]

/-- Making a directory and those above it that are missing makes only directories, even if it
fails. -/
theorem addsDirectories_makeEach (paths : List Path) (tree : FileTree) :
    tree.AddsDirectories (endOf (makeEach paths) tree).2 := by
  induction paths generalizing tree with
  | nil => exact .refl tree
  | cons path above ih =>
    rw [makeEach]
    by_cases hblank : path.bytes = []
    · rw [if_pos hblank, endOf_pure]
      exact .refl tree
    · rw [if_neg hblank, endOf_bind, endOf_get]
      cases hmade : tree.makeDirectory path with
      | ok grown =>
        simp only [hmade, endOf_set]
        exact addsDirectories_of_makeDirectory hmade
      | error fault =>
        cases fault
        case notFound =>
          have habove := ih tree
          simp only [hmade]
          rw [endOf_bind]
          generalize endOf (makeEach above) tree = ended at habove ⊢
          obtain ⟨_ | _, middle⟩ := ended
          · exact habove
          · simp only [endOf_bind _ _ middle, endOf_get]
            cases hmade : middle.makeDirectory path with
            | ok grown =>
              simp only [endOf_set]
              exact habove.trans (addsDirectories_of_makeDirectory hmade)
            | error fault =>
              simp only [snd_endOf_retried]
              exact habove
        all_goals
          simp only [hmade, snd_endOf_retried]
          exact .refl tree

/-- A text that is written below directories is read back, all ways are kept, and every other place
is as it was or has a directory where nothing stood. -/
theorem locate_of_writeBelow (hrooted : tree.IsRooted)
    (h : endOf (writeBelow path t) tree = (.ok (), grown)) :
    tree.KeepsWays grown ∧ ∃ place, grown.locate path = .ok (place, .file (.text t) tree.now) ∧
      ∀ p ≠ place, tree.KeepsPlace grown p := by
  obtain ⟨middle, hmade, hwritten⟩ : ∃ middle : FileTree, tree.AddsDirectories middle ∧
      middle.writeText path t = .ok grown := by
    rw [writeBelow] at h
    cases hparent : path.parent? with
    | none =>
      simp only [hparent] at h
      exact ⟨tree, .refl tree, endOf_change_eq_ok_iff.mp h⟩
    | some parent =>
      have hmade := addsDirectories_makeEach parent.ancestors tree
      simp only [hparent, endOf_bind, makeDirectories] at h
      generalize endOf (makeEach parent.ancestors) tree = ended at hmade h
      obtain ⟨_ | _, middle⟩ := ended
      · cases h
      · exact ⟨middle, hmade, endOf_change_eq_ok_iff.mp h⟩
  obtain ⟨hways, place, hlocate, hplaces⟩ :=
    locate_of_writeText (hmade.ways.rooted hrooted) hwritten
  refine ⟨hmade.ways.trans hways, place, hmade.now ▸ hlocate, fun p hp => ?_⟩
  exact (hmade.places p).trans (.inl (hplaces p hp))

end FileAction

end Marginalia
