import Marginalia.Proofs.Text.Cut
import Marginalia.Proofs.Workspace.Destination

/-!
# Rendered forms are no templates

The rendered form of a template without another place stands in the directory of the template, under
a name that no other template gives to its own. The name holds the word for rendered forms between
two dots whenever the template has an extension, as every markdown file does, and a walk over
templates leaves out every file whose name does. So whatever is rendered beside a template is no
template of any later run.
-/

namespace Marginalia

open Text Bytes

namespace Path

variable {p q : Path} {name : Bytes}

/-- The rendered form has the name that is made from the name of the template. -/
theorem fileName?_generated (p : Path) :
    p.generated.fileName? = some (generatedName (p.fileName?.getD [])) := by
  rw [fileName?_eq_some_iff, components_generated]
  cases hname : p.fileName? with
  | none => rw [generatedComponents_of_none hname, List.getLast?_concat, Option.getD_none]
  | some name => rw [(generatedComponents_of_some hname).2, List.getLast?_concat, Option.getD_some]

/-- The components of the directory of a file are those before its name. -/
theorem map_components_parent? (h : p.fileName? = some name) :
    p.parent?.map components = some p.components.dropLast := by
  obtain ⟨q, hq, hcomponents⟩ := exists_parent? h
  rw [hq, hcomponents, List.dropLast_concat]
  rfl

/-- The rendered form of a file stands in its directory, and the one of what has no file name stands
in that itself. -/
theorem map_components_parent?_generated (p : Path) :
    p.generated.parent?.map components =
      if p.fileName?.isSome then p.parent?.map components else some p.components := by
  rw [map_components_parent? (fileName?_generated p), components_generated]
  cases hname : p.fileName? with
  | none => rw [generatedComponents_of_none hname, List.dropLast_concat, if_neg (by simp)]
  | some name =>
    rw [(generatedComponents_of_some hname).2, List.dropLast_concat, if_pos Option.isSome_some,
      map_components_parent? hname]

/-- The rendered form has another place than the template. -/
theorem components_generated_ne (p : Path) : p.generated.components ≠ p.components := by
  rw [components_generated]
  cases hname : p.fileName? with
  | none =>
    rw [generatedComponents_of_none hname]
    exact fun h => List.cons_ne_nil _ _ (List.append_right_eq_self.mp h)
  | some name =>
    obtain ⟨hcomponents, hgenerated⟩ := generatedComponents_of_some hname
    rw [hgenerated]
    intro h
    rw [hcomponents, List.dropLast_concat] at h
    have hsame := Component.name.inj (List.singleton_inj.mp (List.append_cancel_left h))
    exact generatedName_ne name hsame

/-- Whether the file name of a path is the form of a text, if it has one. -/
def HasTextName (p : Path) : Prop :=
  ∀ name, p.fileName? = some name → ∃ t : Text, name = t.utf8

/-- Paths whose names are texts are read alike only when they are the same. -/
theorem ReadAlike.components_eq (h : ReadAlike p q) (hp : p.HasTextName) (hq : q.HasTextName) :
    p.components = q.components := by
  rcases h with h | ⟨directory, m, n, hpm, hqn, hread⟩
  · exact h
  · obtain ⟨t, rfl⟩ := hp m (fileName?_eq_some_iff.mpr (by rw [hpm, List.getLast?_concat]))
    obtain ⟨u, rfl⟩ := hq n (fileName?_eq_some_iff.mpr (by rw [hqn, List.getLast?_concat]))
    rw [lossy_utf8, lossy_utf8] at hread
    rw [hpm, hqn, hread]

/-- A markdown file has a name with an extension that is a text. -/
theorem exists_extension_of_isMarkdown (h : p.isMarkdown = true) :
    ∃ name s, ∃ e : Text, p.fileName? = some name ∧ splitName name = (s, some e.utf8) ∧
      p.extensionText? = some e := by
  rw [isMarkdown] at h
  cases htext : p.extensionText? with
  | none => simp [htext] at h
  | some e =>
    obtain ⟨extension, hextension, he⟩ := Option.bind_eq_some_iff.mp htext
    obtain rfl := text?_eq_some_iff.mp he
    obtain ⟨name, hname, hsplit⟩ := Option.bind_eq_some_iff.mp hextension
    exact ⟨name, (splitName name).1, e, hname, Prod.ext rfl hsplit, rfl⟩

/-- Files with one name are both markdown files, or none of them is. -/
theorem isMarkdown_congr (h : p.fileName? = q.fileName?) : p.isMarkdown = q.isMarkdown := by
  rw [isMarkdown, isMarkdown, extensionText?, extensionText?, extension?, extension?, h]

/-- The rendered form of a file with an extension has that extension, as it is read. -/
theorem extensionText?_generated {s e : Bytes} (hname : p.fileName? = some name)
    (hsplit : splitName name = (s, some e)) : p.generated.extensionText? = some e.lossy := by
  rcases splitName_cases name with ⟨h, -⟩ | ⟨t, f, ht, hf, -, h⟩
  · rw [hsplit] at h
    cases (Prod.mk.inj h).2
  · rw [hsplit] at h
    obtain ⟨rfl, hextension⟩ := Prod.mk.inj h
    obtain rfl := Option.some.inj hextension
    have hdot : dot ∉ utf8 e.lossy := by
      rw [← show byteOf '.' = dot from rfl, byteOf_mem_utf8_iff (by decide)]
      exact dot_notMem_lossy hf
    have hstem : utf8 (s.lossy ++ '.' :: "generated".toList) ≠ [] := by
      rw [utf8_append]
      exact List.append_ne_nil_of_right_ne_nil _ (by decide)
    have hgenerated : generatedName name =
        utf8 (s.lossy ++ '.' :: "generated".toList) ++ dot :: utf8 e.lossy := by
      rw [generatedName, generatedText_of_some hsplit, utf8_append]
      rfl
    rw [extensionText?, extension?, fileName?_generated, hname, Option.getD_some, Option.bind_some,
      hgenerated, splitName_append_dot hstem hdot, Option.bind_some, text?_utf8]

/-- The rendered form of a markdown file is one. -/
theorem isMarkdown_generated (h : p.isMarkdown = true) : p.generated.isMarkdown = true := by
  obtain ⟨name, s, e, hname, hsplit, htext⟩ := exists_extension_of_isMarkdown h
  rw [isMarkdown, htext] at h
  rw [isMarkdown, extensionText?_generated hname hsplit, lossy_utf8]
  exact h

end Path

namespace Workspace

variable {tree : FileTree} {root directory found p : Path} {settings : Settings}
  {sources : List Path}

/-- The rendered form of a markdown file has the name of a rendered form. -/
theorem isGenerated_generated (h : p.isMarkdown = true) : isGenerated p.generated = true := by
  obtain ⟨name, s, e, hname, hsplit, -⟩ := Path.exists_extension_of_isMarkdown h
  have hword : ".generated.".toList <:+: Path.generatedText name := by
    rw [Path.generatedText_of_some hsplit]
    exact ⟨s.lossy, Bytes.lossy e.utf8, by simp⟩
  rw [isGenerated, Path.fileName?_generated, hname, Option.getD_some, Option.bind_some,
    Path.generatedName, text?_utf8, Option.any_some, contains, Option.isSome_iff_ne_none, ne_eq,
    cut?_eq_none_iff, not_not]
  exact hword

/-- Files with one name both have the name of a rendered form, or none of them does. -/
theorem isGenerated_congr {q : Path} (h : p.fileName? = q.fileName?) :
    isGenerated p = isGenerated q := by
  rw [isGenerated, isGenerated, h]

/-- A file with the name of a rendered form is no template, wherever it is found. -/
theorem notMem_templates_of_isGenerated (h : isGenerated found = true)
    (hsources : templates tree directory = .ok sources) : found ∉ sources := by
  intro hmem
  obtain ⟨-, rfl⟩ := templates_eq_ok_iff.mp hsources
  have htaken : templateSelection.takes found = true := FileTree.takes_of_mem_gathered hmem
  simp [templateSelection, h] at htaken

/-- What a run finds for itself are templates below a directory. -/
theorem exists_templates_of_mem_planSources
    (h : planSources tree root settings [] = .ok sources) (hfound : found ∈ sources) :
    ∃ directory, templates tree directory = .ok sources := by
  cases hdirectories : directories? root settings with
  | none =>
    simp only [planSources, hdirectories, List.map_nil, Except.ok.injEq] at h
    exact absurd (h ▸ hfound) List.not_mem_nil
  | some directories =>
    simp only [planSources, hdirectories] at h
    exact ⟨directories.1, h⟩

/-- Rendered forms have places of their own and are never templates. The rendered form of a template
stands in the directory of the template and not at its place, and two templates whose names are texts
share it only when they are the same. If the template is a markdown file, so is its rendered form,
and a file of that name is taken by no walk over templates, so no run that looks for its templates
itself finds it. -/
theorem generated_are_apart (p : Path) :
    p.generated.parent?.map Path.components =
        (if p.fileName?.isSome then p.parent?.map Path.components else some p.components) ∧
      p.generated.components ≠ p.components ∧
      (∀ q : Path, p.HasTextName → q.HasTextName →
        p.generated.components = q.generated.components → p.components = q.components) ∧
      (p.isMarkdown = true → ∀ found : Path, found.fileName? = p.generated.fileName? →
        found.isMarkdown = true ∧ templateSelection.takes found = false ∧
          (∀ tree directory sources, templates tree directory = .ok sources → found ∉ sources) ∧
          ∀ tree root settings sources,
            planSources tree root settings [] = .ok sources → found ∉ sources) := by
  refine ⟨Path.map_components_parent?_generated p, Path.components_generated_ne p,
    fun q hp hq h => (Path.components_generated_eq_iff.mp h).components_eq hp hq,
    fun hmarkdown found hname => ?_⟩
  have hrendered : isGenerated found = true :=
    (isGenerated_congr hname).trans (isGenerated_generated hmarkdown)
  refine ⟨(Path.isMarkdown_congr hname).trans (Path.isMarkdown_generated hmarkdown), ?_, ?_, ?_⟩
  · simp [templateSelection, hrendered]
  · exact fun tree directory sources => notMem_templates_of_isGenerated hrendered
  · intro tree root settings sources hsources hmem
    obtain ⟨directory, htemplates⟩ := exists_templates_of_mem_planSources hsources hmem
    exact notMem_templates_of_isGenerated hrendered htemplates hmem

/-- The rendered form of a rendered form, with an extension in capitals. -/
theorem generated_are_apart_twice :
    let p : Path := ⟨"docs/a.generated.MD".toList⟩
    p.isMarkdown = true ∧ p.generated = ⟨"docs/a.generated.generated.MD".toList⟩ ∧
      ∀ tree directory sources, templates tree directory = .ok sources →
        ⟨"other/a.generated.generated.MD".toList⟩ ∉ sources := by
  intro p
  have hmarkdown : p.isMarkdown = true := by decide +kernel
  obtain ⟨-, -, -, hapart⟩ := generated_are_apart p
  exact ⟨hmarkdown, by decide +kernel, (hapart hmarkdown _ (by decide +kernel)).2.2.1⟩

end Workspace

end Marginalia
