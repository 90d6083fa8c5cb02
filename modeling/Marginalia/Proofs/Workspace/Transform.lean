import Marginalia.Proofs.FileTree.Change
import Marginalia.Workspace.Transform

/-!
# Rendered and written templates

The report on the templates of a plan holds one outcome for each, that of rendering it alone. When
all that is rendered is written and no two templates lead to one file, every one of these files
holds its rendered text, and apart from them nothing but new directories is changed.
-/

namespace Marginalia

/-- Whether no two rendered templates of a report lead to one file of a tree. -/
def Report.LeadsApart (report : Report) (tree : FileTree) : Prop :=
  report.written.Pairwise fun f g => tree.place? f.destination ≠ tree.place? g.destination

/-- A rendered template, if rendering it succeeds. -/
def Planned.rendered? (planned : Planned) (outcome : Except Failure Text) : Option Rendered :=
  outcome.toOption.map (Rendered.mk planned)

/-- A template that fails and its cause, if rendering it fails. -/
def Planned.failed? (planned : Planned) : Except Failure Text → Option (Path × Failure)
  | .ok _ => none
  | .error cause => some (planned.source, cause)

namespace Workspace

open FileTree FileAction

variable {tree grown : FileTree} {root : Path} {settings : Settings} {d : Document}
  {inputs : List Path} {written : List Rendered}

/-- A report on templates holds those that are rendered and those that fail, both in their order,
and no template is lost. -/
theorem foldr_reportOn (render : Planned → Except Failure Text) (plan : List Planned) :
    let report := plan.foldr (fun planned => reportOn planned (render planned)) ⟨[], []⟩
    report.written = (plan.filterMap fun planned => planned.rendered? (render planned)) ∧
      report.failures = (plan.filterMap fun planned => planned.failed? (render planned)) ∧
      report.written.length + report.failures.length = plan.length := by
  induction plan with
  | nil => exact ⟨rfl, rfl, rfl⟩
  | cons planned plan ih =>
    obtain ⟨hwritten, hfailures, hlength⟩ := ih
    simp only [List.foldr_cons, List.filterMap_cons, List.length_cons]
    cases houtcome : render planned with
    | ok content =>
      refine ⟨congrArg _ hwritten, hfailures, ?_⟩
      simp only [reportOn, List.length_cons]
      omega
    | error cause =>
      refine ⟨hwritten, congrArg _ hfailures, ?_⟩
      simp only [reportOn, List.length_cons]
      omega

/-- Writing a file and then others. -/
theorem forM_writeBelow_cons {file : Rendered}
    (h : endOf ((file :: written).forM fun file => writeBelow file.destination file.content) tree =
      (.ok (), grown)) :
    ∃ middle, endOf (writeBelow file.destination file.content) tree = (.ok (), middle) ∧
      endOf (written.forM fun file => writeBelow file.destination file.content) middle =
        (.ok (), grown) := by
  rw [endOf_forM_cons] at h
  generalize endOf (writeBelow file.destination file.content) tree = ended at h ⊢
  obtain ⟨_ | _, middle⟩ := ended
  · cases h
  · exact ⟨middle, rfl, h⟩

/-- Writing files keeps all ways. -/
theorem keepsWays_of_forM_writeBelow (hrooted : tree.IsRooted)
    (h : endOf (written.forM fun file => writeBelow file.destination file.content) tree =
      (.ok (), grown)) :
    tree.KeepsWays grown := by
  induction written generalizing tree with
  | nil =>
    obtain ⟨-, rfl⟩ := Prod.mk.inj h
    exact .refl tree
  | cons file written ih =>
    obtain ⟨middle, hfile, hrest⟩ := forM_writeBelow_cons h
    obtain ⟨hways, -⟩ := locate_of_writeBelow hrooted hfile
    exact hways.trans (ih (hways.rooted hrooted) hrest)

/-- When files are written and no two paths lead to one of them, each holds its text, and every
place to which none of the paths leads is as it was or has a new directory. -/
theorem locate_of_forM_writeBelow (hrooted : tree.IsRooted)
    (h : endOf (written.forM fun file => writeBelow file.destination file.content) tree =
      (.ok (), grown))
    (hapart : written.Pairwise fun f g =>
      grown.place? f.destination ≠ grown.place? g.destination) :
    (∀ file ∈ written, ∃ place modified,
      grown.locate file.destination = .ok (place, .file (.text file.content) modified)) ∧
    ∀ place, (∀ file ∈ written, grown.place? file.destination ≠ some place) →
      tree.KeepsPlace grown place := by
  induction written generalizing tree with
  | nil =>
    obtain ⟨-, rfl⟩ := Prod.mk.inj h
    exact ⟨by simp, fun place _ => .inl rfl⟩
  | cons file written ih =>
    obtain ⟨middle, hfile, hrest⟩ := forM_writeBelow_cons h
    obtain ⟨hfirst, hlater⟩ := List.pairwise_cons.mp hapart
    obtain ⟨hways, place, hlocate, hplaces⟩ := locate_of_writeBelow hrooted hfile
    have hrooted' := hways.rooted hrooted
    have hways' := keepsWays_of_forM_writeBelow hrooted' hrest
    obtain ⟨hfiles, hkept⟩ := ih hrooted' hrest hlater
    have hplace : grown.place? file.destination = some place :=
      hways'.place?_eq_some (place?_of_locate hlocate)
    refine ⟨List.forall_mem_cons.mpr ⟨?_, hfiles⟩, fun p hp => ?_⟩
    · -- no later file is written to the place of the first
      have hentry := (locate_eq_ok_iff.mp hlocate).2.2
      have hsame : grown.entryAt? place = middle.entryAt? place := by
        rcases hkept place fun g hg => hplace ▸ (hfirst g hg).symm with hsame | ⟨hnone, -⟩
        · exact hsame
        · rw [hentry] at hnone
          cases hnone
      obtain ⟨entry, hgrown⟩ := place?_eq_some_iff.mp hplace
      obtain ⟨hblank, hfollow, -⟩ := locate_eq_ok_iff.mp hgrown
      exact ⟨place, tree.now, locate_eq_ok_iff.mpr ⟨hblank, hfollow, hsame.trans hentry⟩⟩
    · obtain ⟨hne, hrest⟩ := List.forall_mem_cons.mp hp
      have hfirst : p ≠ place := fun heq => hne (heq ▸ hplace)
      exact (hplaces p hfirst).trans (hkept p hrest)

end Workspace

end Marginalia
