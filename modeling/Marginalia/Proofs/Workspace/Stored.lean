import Marginalia.Proofs.Comment.Place
import Marginalia.Proofs.Document.Stored
import Marginalia.Proofs.Settings
import Marginalia.Proofs.Workspace.Scan

/-!
# Documents of scans

The notes of a scan are made of comments on lines that fit into a word, as no source is larger than
the limit of the settings. So the document of a scan is read back from the text in which it is
stored. A scan fails for a pattern of the settings, for a root that cannot be listed or for a key
that is declared twice.
-/

namespace Marginalia

open Text

variable {tree : FileTree} {root path : Path} {settings : Settings} {cause : Failure}

/-- Notes of a text that is not too long can be stored. -/
theorem Reading.isStorable_notes {reading : Reading} {lastEdit t : Text} {notes : List Note}
    (ht : t.length < wordLimit) (h : reading.notes root path lastEdit t = .ok notes) :
    ∀ n ∈ notes, n.IsStorable :=
  Note.isStorable_of_ofFragments
    (fun _ hf => Nat.lt_of_le_of_lt (Comment.line_le_length hf) ht) h

/-- A line that is no rule is reported as a pattern. -/
theorem IgnoreRule.eq_pattern_of_parse {line : Text} (h : IgnoreRule.parse line = .error cause) :
    cause = .pattern line := by
  rw [IgnoreRule.parse] at h
  dsimp only at h
  split at h
  · cases h
  · cases htokens : Glob.parse? true (IgnoreRule.wholePattern
        (IgnoreRule.openLine (IgnoreRule.trimLine line)).2.1
        (IgnoreRule.closeLine (IgnoreRule.openLine (IgnoreRule.trimLine line)).2.2).2) with
    | some tokens =>
      rw [htokens] at h
      cases h
    | none =>
      rw [htokens] at h
      exact (Except.error.inj h).symm

namespace Workspace

/-- Notes of a file can be stored if the limit on its size fits into a word. -/
theorem isStorable_of_scanFile {size : Nat} {reading : Reading} {notes : List Note}
    (hsize : size < wordLimit) (h : scanFile tree root size reading path = .ok notes) :
    ∀ n ∈ notes, n.IsStorable := by
  obtain ⟨⟨content, modified⟩, -, h⟩ := bind_eq_ok_iff.mp h
  dsimp only at h
  split at h
  · cases h
  · rename_i hlimit
    cases content with
    | binary bytes => cases h
    | closed size => cases h
    | text t =>
      have hlength : (normalizeBreaks t).length < wordLimit :=
        calc (normalizeBreaks t).length ≤ t.length := length_normalizeBreaks_le t
          _ ≤ byteLength t := length_le_byteLength t
          _ ≤ size := Nat.le_of_not_lt hlimit
          _ < wordLimit := hsize
      exact Reading.isStorable_notes hlength h

/-- The document of a scan can be stored if the limit on the size of sources fits into a word. -/
theorem isStorable_of_scan {result : ScanResult} (hsize : settings.maxFileSize < wordLimit)
    (h : scan tree root settings = .ok result) : result.document.IsStorable := by
  obtain ⟨files, hfiles, -⟩ := bind_eq_ok_iff.mp h
  rw [scan_eq hfiles] at h
  obtain ⟨document, hdocument, rfl⟩ := map_eq_ok_iff.mp h
  refine Document.isStorable_of_ofNotes (fun n hn => ?_) hdocument
  obtain ⟨outcome, houtcome, hn⟩ := List.mem_flatMap.mp hn
  obtain ⟨path, -, rfl⟩ := List.mem_map.mp houtcome
  cases hread : scanFile tree root settings.maxFileSize settings.reading path with
  | ok notes =>
    rw [hread] at hn
    exact isStorable_of_scanFile hsize hread n hn
  | error cause =>
    rw [hread] at hn
    cases hn

/-- What a walk over sources leaves out and takes is not known only for a pattern of the settings.
-/
theorem exists_pattern_of_sourceSelection (h : sourceSelection tree root settings = .error cause) :
    ∃ pattern ∈ settings.excludes ++ settings.includes, cause = .pattern pattern := by
  rcases bind_eq_error_iff.mp h with hexcluded | ⟨excluded, -, hselection⟩
  · rcases bind_eq_error_iff.mp hexcluded with hrules | ⟨rules, -, hrules⟩
    · obtain ⟨line, hline, hparse⟩ := exists_of_mapM_eq_error hrules
      refine ⟨line, List.mem_append_left _ hline, ?_⟩
      exact IgnoreRule.eq_pattern_of_parse hparse
    · cases hrules
  · rcases bind_eq_error_iff.mp hselection with hincluded | ⟨included, -, hincluded⟩
    · obtain ⟨pattern, hpattern, hparse⟩ := exists_of_mapM_eq_error hincluded
      refine ⟨pattern, List.mem_append_right _ hpattern, ?_⟩
      rw [includePattern] at hparse
      split at hparse
      · cases hparse
      · exact (Except.error.inj hparse).symm
    · cases hincluded

/-- The sources of a workspace are not found only for a pattern of the settings or a root that
cannot be listed. -/
theorem pattern_or_denied_of_sources (h : sources tree root settings = .error cause) :
    (∃ pattern ∈ settings.excludes ++ settings.includes, cause = .pattern pattern) ∨
      tree.isClosed root = true ∧ cause = .file .denied := by
  rcases bind_eq_error_iff.mp h with hselection | ⟨selection, -, hcollect⟩
  · exact .inl (exists_pattern_of_sourceSelection hselection)
  · cases hclosed : tree.isClosed root with
    | true =>
      rw [FileTree.collect_of_isClosed hclosed] at hcollect
      exact .inr ⟨rfl, (Except.error.inj hcollect).symm⟩
    | false =>
      rw [FileTree.collect_of_isClosed_eq_false hclosed] at hcollect
      cases hcollect

/-- A scan fails for a pattern of the settings, for a root that cannot be listed or for a key that
is declared twice. -/
theorem cause_of_scan_eq_error (h : scan tree root settings = .error cause) :
    (∃ pattern ∈ settings.excludes ++ settings.includes, cause = .pattern pattern) ∨
      (tree.isClosed root = true ∧ cause = .file .denied) ∨
        ∃ key first second, cause = .duplicateKey key first second := by
  rcases bind_eq_error_iff.mp h with hsources | ⟨found, hfound, -⟩
  · exact (pattern_or_denied_of_sources hsources).imp_right .inl
  · exact .inr (.inr (exists_duplicateKey_of_scan hfound h))

end Workspace

end Marginalia
