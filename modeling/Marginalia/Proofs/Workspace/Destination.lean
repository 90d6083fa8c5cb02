import Marginalia.Proofs.Outcome
import Marginalia.Proofs.Path.Generated
import Marginalia.Proofs.Path.Resolved
import Marginalia.Proofs.Workspace.Walk
import Marginalia.Workspace.Transform

/-!
# Places of rendered templates

A template below the entry directory is rendered to the same place below the output directory, and
any other one beside itself under a name of its own, as its name is read. Two templates meet across
these two ways, or beside themselves under names that are read alike. A template is its own place
only when its path climbs out of the entry directory.
-/

namespace Marginalia.Workspace

variable {tree : FileTree} {root : Path} {settings : Settings} {inputs : List Path}
  {entry output source : Path} {plans : List Planned} {planned : Planned}

/-- Every planned template has its place. -/
theorem of_mem_plan (h : plan tree root settings inputs = .ok plans) (hplanned : planned ∈ plans) :
    (∃ sources, planSources tree root settings inputs = .ok sources ∧ planned.source ∈ sources) ∧
      planned.destination = destination (directories? root settings) planned.source := by
  obtain ⟨sources, hsources, rfl⟩ := map_eq_ok_iff.mp h
  obtain ⟨source, hsource, rfl⟩ := List.mem_map.mp hplanned
  exact ⟨⟨sources, hsources, hsource⟩, rfl⟩

/-- The place of a template below the entry directory. -/
theorem destination_of_some {rest : Path} (h : source.stripPrefix? entry = some rest) :
    destination (some (entry, output)) source = output.join rest := by
  simp [destination, h]

/-- The place of a template that is not below the entry directory. -/
theorem destination_of_none (h : source.stripPrefix? entry = none) :
    destination (some (entry, output)) source = source.generated := by
  simp [destination, h]

/-- A template below the entry directory keeps what is behind the components of that directory. -/
theorem components_destination_of_below (hentry : entry.bytes ≠ []) {rest : List Component}
    (h : source.components = entry.components ++ rest) :
    (destination (some (entry, output)) source).components = output.components ++ rest := by
  have hsome := (Path.isSome_stripPrefix?_iff hentry).mpr (h ▸ List.prefix_append _ _)
  obtain ⟨q, hq⟩ := Option.isSome_iff_exists.mp hsome
  obtain ⟨hrest, hcomponents⟩ := Path.components_of_stripPrefix? hentry hq
  rw [destination_of_some hq, Path.components_join hrest]
  rw [h, List.append_cancel_left_eq] at hcomponents
  rw [hcomponents]

/-- Any other template is rendered beside itself. -/
theorem components_destination_of_not_below (hentry : entry.bytes ≠ [])
    (h : ¬entry.components <+: source.components) :
    (destination (some (entry, output)) source).components =
      Path.generatedComponents source.components := by
  rw [← Path.isSome_stripPrefix?_iff hentry, Bool.not_eq_true, Option.isSome_eq_false_iff,
    Option.isNone_iff_eq_none] at h
  rw [destination_of_none h, Path.components_generated]

/-- Below a blank entry directory, every template is read from the output directory as it is. -/
theorem components_destination_of_blank (hentry : entry.bytes = []) :
    (destination (some (entry, output)) source).components = (output.join source).components := by
  rw [destination_of_some (Path.stripPrefix?_of_bytes_eq_nil hentry), Path.components_join_trimmed]

/-- Whether a template below the entry directory has the place at which another one is rendered
beside itself. -/
def Meets (entry output source other : Path) : Prop :=
  ∃ rest, source.components = entry.components ++ rest ∧ ¬entry.components <+: other.components ∧
    output.components ++ rest = Path.generatedComponents other.components

/-- A template meets only others that are below the entry directory when it is not. -/
theorem Meets.isPrefix {other : Path} (h : Meets entry output source other) :
    entry.components <+: source.components ∧ ¬entry.components <+: other.components := by
  obtain ⟨rest, hrest, hother, -⟩ := h
  exact ⟨hrest ▸ List.prefix_append _ _, hother⟩

/-- The places of a template below the entry directory and of another one are the same exactly when
the two meet. -/
theorem components_destination_eq_iff_meets {other : Path} (hentry : entry.bytes ≠ [])
    (hsource : entry.components <+: source.components)
    (hother : ¬entry.components <+: other.components) :
    (destination (some (entry, output)) source).components =
      (destination (some (entry, output)) other).components ↔ Meets entry output source other := by
  obtain ⟨rest, hrest⟩ := hsource
  rw [components_destination_of_below hentry hrest.symm,
    components_destination_of_not_below hentry hother]
  constructor
  · intro heq
    exact ⟨rest, hrest.symm, hother, heq⟩
  · rintro ⟨rest', hrest', -, heq⟩
    rw [← hrest, List.append_cancel_left_eq] at hrest'
    rw [hrest', heq]

/-- Templates that are both below the entry directory have the same place only when they are the
same. -/
theorem components_destination_eq_iff_of_below {other : Path} (hentry : entry.bytes ≠ [])
    (hsource : entry.components <+: source.components)
    (hother : entry.components <+: other.components) :
    (destination (some (entry, output)) source).components =
      (destination (some (entry, output)) other).components ↔
        source.components = other.components := by
  obtain ⟨rest, hrest⟩ := hsource
  obtain ⟨rest', hrest'⟩ := hother
  rw [components_destination_of_below hentry hrest.symm,
    components_destination_of_below hentry hrest'.symm, ← hrest, ← hrest',
    List.append_cancel_left_eq, List.append_cancel_left_eq]

/-- Templates that are both rendered beside themselves have the same place when they are read
alike. -/
theorem components_destination_eq_iff_of_not_below {other : Path} (hentry : entry.bytes ≠ [])
    (hsource : ¬entry.components <+: source.components)
    (hother : ¬entry.components <+: other.components) :
    (destination (some (entry, output)) source).components =
      (destination (some (entry, output)) other).components ↔ source.ReadAlike other := by
  rw [components_destination_of_not_below hentry hsource,
    components_destination_of_not_below hentry hother, ← Path.components_generated,
    ← Path.components_generated, Path.components_generated_eq_iff]

/-- Whether a template is rendered beside itself. -/
def IsBeside (directories : Option (Path × Path)) (source : Path) : Prop :=
  ∀ entry output, directories = some (entry, output) → ¬entry.components <+: source.components

/-- A template is rendered beside itself unless it is below the entry directory. -/
theorem isBeside_some_iff :
    IsBeside (some (entry, output)) source ↔ ¬entry.components <+: source.components := by
  simp [IsBeside]

/-- Two different templates have the same place exactly when both are rendered beside themselves and
are read alike, when one meets the other, or when the entry directory is blank and the two are the
same path once they are read from the output directory. -/
theorem components_destination_eq_iff {other : Path} (hne : source.components ≠ other.components) :
    (destination (some (entry, output)) source).components =
      (destination (some (entry, output)) other).components ↔
        IsBeside (some (entry, output)) source ∧ IsBeside (some (entry, output)) other ∧
            source.ReadAlike other ∨
          Meets entry output source other ∨ Meets entry output other source ∨
          entry.bytes = [] ∧ (output.join source).components = (output.join other).components := by
  rw [isBeside_some_iff, isBeside_some_iff]
  by_cases hentry : entry.bytes = []
  · -- every path is below a blank one
    have hbelow (p : Path) : entry.components <+: p.components := by
      rw [Path.components_of_bytes_eq_nil hentry]
      exact List.nil_prefix
    have hmeets (p q : Path) : ¬Meets entry output p q := fun h => h.isPrefix.2 (hbelow q)
    rw [components_destination_of_blank hentry, components_destination_of_blank hentry,
      or_iff_right fun h => h.1 (hbelow source), or_iff_right (hmeets _ _),
      or_iff_right (hmeets _ _), and_iff_right hentry]
  · rw [or_iff_left (b := _ ∧ _ = _) fun h => hentry h.1]
    by_cases hsource : entry.components <+: source.components
    · rw [or_iff_right fun h => h.1 hsource, or_iff_left (b := Meets entry output other source)
        fun h => h.isPrefix.2 hsource]
      by_cases hother : entry.components <+: other.components
      · rw [components_destination_eq_iff_of_below hentry hsource hother]
        exact iff_of_false hne fun h => h.isPrefix.2 hother
      · exact components_destination_eq_iff_meets hentry hsource hother
    · rw [or_iff_right (a := Meets entry output source other) fun h => hsource h.isPrefix.1]
      by_cases hother : entry.components <+: other.components
      · rw [or_iff_right fun h => h.2.1 hother, eq_comm,
          components_destination_eq_iff_meets hentry hother hsource]
      · rw [components_destination_eq_iff_of_not_below hentry hsource hother,
          or_iff_left fun h => hother h.isPrefix.1, and_iff_right hsource, and_iff_right hother]

/-- Two different templates of a plan have the same place exactly when both are rendered beside
themselves in one directory and their names are read as one text; when one is below the entry
directory and the other is not, and the place of the first below the output directory is that at
which the second is rendered beside itself; or when the entry directory is blank and the two are the
same path once they are read from the output directory. -/
theorem destination_eq_iff_meets {a b : Planned} (h : plan tree root settings inputs = .ok plans)
    (ha : a ∈ plans) (hb : b ∈ plans) (hne : a.source.components ≠ b.source.components) :
    a.destination.components = b.destination.components ↔
      IsBeside (directories? root settings) a.source ∧
          IsBeside (directories? root settings) b.source ∧ a.source.ReadAlike b.source ∨
        ∃ entry output, directories? root settings = some (entry, output) ∧
          (Meets entry output a.source b.source ∨ Meets entry output b.source a.source ∨
            entry.bytes = [] ∧
              (output.join a.source).components = (output.join b.source).components) := by
  rw [(of_mem_plan h ha).2, (of_mem_plan h hb).2]
  cases directories? root settings with
  | none =>
    have hbeside (source : Path) : IsBeside none source := by simp [IsBeside]
    rw [and_iff_right (hbeside _), and_iff_right (hbeside _), or_iff_left (by simp)]
    exact Path.components_generated_eq_iff
  | some directories =>
    obtain ⟨entry, output⟩ := directories
    rw [components_destination_eq_iff hne]
    simp only [Option.some.injEq, Prod.mk.injEq]
    refine or_congr_right ⟨fun hmeets => ⟨entry, output, ⟨rfl, rfl⟩, hmeets⟩, ?_⟩
    rintro ⟨entry', output', ⟨rfl, rfl⟩, hmeets⟩
    exact hmeets

/-- Both sources are planned for one place: the first is below the entry directory under the name of
a rendered form, and the second is the template with that rendered form. Beside themselves, two
templates whose names differ only in a byte that is read as the replacement character have one
place. Read from a blank root, a path below a blank entry directory leads where the same path from
the output directory does. -/
theorem destination_collision :
    plan (.empty ⟨0, 0⟩) ⟨"/w".toList⟩
        { entry := some ⟨"docs".toList⟩, output := some ⟨"out".toList⟩ }
        [⟨"docs/a.generated.md".toList⟩, ⟨"out/a.md".toList⟩] =
      .ok [⟨⟨"/w/docs/a.generated.md".toList⟩, ⟨"/w/out/a.generated.md".toList⟩⟩,
        ⟨⟨"/w/out/a.md".toList⟩, ⟨"/w/out/a.generated.md".toList⟩⟩] ∧
      plan (.empty ⟨0, 0⟩) ⟨"/w".toList⟩ {}
          [⟨0xFF :: Text.utf8 ".md".toList⟩, ⟨0xFE :: Text.utf8 ".md".toList⟩] =
        .ok [⟨⟨Text.utf8 "/w/".toList ++ 0xFF :: Text.utf8 ".md".toList⟩,
            ⟨"/w/\uFFFD.generated.md".toList⟩⟩,
          ⟨⟨Text.utf8 "/w/".toList ++ 0xFE :: Text.utf8 ".md".toList⟩,
            ⟨"/w/\uFFFD.generated.md".toList⟩⟩] ∧
      plan (.empty ⟨0, 0⟩) ⟨[]⟩ { entry := some ⟨[]⟩, output := some ⟨"/x".toList⟩ }
          [⟨"/x/a.md".toList⟩, ⟨"a.md".toList⟩] =
        .ok [⟨⟨"/x/a.md".toList⟩, ⟨"/x/a.md".toList⟩⟩,
          ⟨⟨"a.md".toList⟩, ⟨"/x/a.md".toList⟩⟩] :=
  ⟨by decide +kernel, by decide +kernel, by decide +kernel⟩

/-- The template below the entry directory meets the one below the output directory. -/
theorem destination_eq_iff_meets_sameName :
    let root : Path := ⟨"/w".toList⟩
    let settings : Settings := { entry := some ⟨"docs".toList⟩, output := some ⟨"out".toList⟩ }
    let a : Planned := ⟨⟨"/w/docs/a.generated.md".toList⟩, ⟨"/w/out/a.generated.md".toList⟩⟩
    let b : Planned := ⟨⟨"/w/out/a.md".toList⟩, ⟨"/w/out/a.generated.md".toList⟩⟩
    plan (.empty ⟨0, 0⟩) root settings
        [⟨"docs/a.generated.md".toList⟩, ⟨"out/a.md".toList⟩] = .ok [a, b] ∧
      a.source.components ≠ b.source.components ∧
      (IsBeside (directories? root settings) a.source ∧
          IsBeside (directories? root settings) b.source ∧ a.source.ReadAlike b.source ∨
        ∃ entry output, directories? root settings = some (entry, output) ∧
          (Meets entry output a.source b.source ∨ Meets entry output b.source a.source ∨
            entry.bytes = [] ∧
              (output.join a.source).components = (output.join b.source).components)) := by
  intro root settings a b
  have hplan : plan (.empty ⟨0, 0⟩) root settings
      [⟨"docs/a.generated.md".toList⟩, ⟨"out/a.md".toList⟩] = .ok [a, b] := by decide +kernel
  have hne : a.source.components ≠ b.source.components := by decide +kernel
  have ha : a ∈ [a, b] := List.mem_cons_self
  have hb : b ∈ [a, b] := List.mem_cons_of_mem a (List.mem_singleton_self b)
  exact ⟨hplan, hne, (destination_eq_iff_meets hplan ha hb hne).mp rfl⟩

/-! ## Templates that are rendered over themselves -/

/-- The templates below a directory are what a walk gathers there, if it can be listed. -/
theorem templates_eq_ok_iff {directory : Path} {sources : List Path} :
    templates tree directory = .ok sources ↔
      tree.isClosed directory = false ∧ tree.gathered templateSelection directory = sources := by
  rw [templates, map_eq_ok_iff]
  constructor
  · rintro ⟨found, hfound, rfl⟩
    obtain ⟨hopen, hfiles, -⟩ := FileTree.collect_eq_ok_iff.mp hfound
    exact ⟨hopen, hfiles⟩
  · rintro ⟨hopen, rfl⟩
    exact ⟨_, FileTree.collect_of_isClosed_eq_false hopen, rfl⟩

/-- Every template of a plan has a file name, if the given ones do. -/
theorem exists_fileName?_of_mem_planSources (hinputs : ∀ input ∈ inputs, input.fileName?.isSome)
    {sources : List Path} (h : planSources tree root settings inputs = .ok sources)
    (hsource : source ∈ sources) : ∃ name, source.fileName? = some name := by
  unfold planSources at h
  split at h
  · obtain ⟨-, rfl⟩ := templates_eq_ok_iff.mp h
    have htaken := FileTree.takes_of_mem_gathered hsource
    rw [templateSelection, Bool.and_eq_true, Path.isMarkdown] at htaken
    split at htaken
    · rename_i text htext
      obtain ⟨extension, hextension, -⟩ := Option.bind_eq_some_iff.mp htext
      obtain ⟨name, hname, -⟩ := Option.bind_eq_some_iff.mp hextension
      exact ⟨name, hname⟩
    · exact absurd htaken.1 Bool.false_ne_true
  · obtain rfl := Except.ok.inj h
    obtain ⟨input, hinput, rfl⟩ := List.mem_map.mp hsource
    obtain ⟨name, hname⟩ := Option.isSome_iff_exists.mp (hinputs input hinput)
    exact ⟨name, Path.fileName?_join hname⟩

/-- Whether what is behind the entry directory climbs out of it, up to a directory that is as far
above the output directory. -/
def ClimbsOut (entry output source : Path) : Prop :=
  ∃ rest, source.stripPrefix? entry = some rest ∧ 0 < rest.climb ∧
    above entry.resolved rest.climb = above output.resolved rest.climb

/-- A template below the entry directory is its own place exactly when it climbs out. -/
theorem resolved_destination_eq_iff_climbsOut (hentry : entry.bytes ≠ [])
    (hapart : entry.resolved ≠ output.resolved) {rest : Path}
    (h : source.stripPrefix? entry = some rest) :
    (destination (some (entry, output)) source).resolved = source.resolved ↔
      ClimbsOut entry output source := by
  obtain ⟨hrest, hcomponents⟩ := Path.components_of_stripPrefix? hentry h
  have hsource : source.resolved = (entry.join rest).resolved := by
    rw [Path.resolved, Path.resolved, hcomponents, Path.components_join hrest]
  rw [destination_of_some h, hsource, eq_comm, Path.resolved_join_eq_iff hrest]
  constructor
  · intro heq
    refine ⟨rest, h, Nat.pos_of_ne_zero fun hclimb => hapart ?_, heq⟩
    simpa [hclimb] using heq
  · rintro ⟨rest', h', -, heq⟩
    obtain rfl := Option.some.inj (h.symm.trans h')
    exact heq

/-- Below a root that is read from the top, the entry directory is not blank. -/
theorem bytes_directories?_ne_nil (hroot : root.isAbsolute = true)
    (h : directories? root settings = some (entry, output)) : entry.bytes ≠ [] := by
  obtain ⟨⟨e, o⟩, -, hjoin⟩ := Option.map_eq_some_iff.mp h
  obtain ⟨rfl, -⟩ := Prod.mk.inj hjoin
  have hne : root.bytes ≠ [] := by
    intro hnil
    rw [Path.isAbsolute, hnil] at hroot
    cases hroot
  rw [Path.join]
  split_ifs with hwhole
  · intro hnil
    rcases hwhole with habsolute | hblank
    · rw [Path.isAbsolute, hnil] at habsolute
      cases habsolute
    · exact hne hblank
  · exact List.append_ne_nil_of_left_ne_nil hne _
  · exact List.append_ne_nil_of_left_ne_nil hne _

/-- Where the root is read from the top and neither template directory is inside the other, a
template of a plan is its own place, dots resolved, exactly when it climbs out of the entry
directory, up to a directory that is as far above the output directory. -/
theorem resolved_destination_eq_iff (hroot : root.isAbsolute = true)
    (hapart : ∀ entry output, directories? root settings = some (entry, output) →
      ¬entry.resolved <+: output.resolved ∧ ¬output.resolved <+: entry.resolved)
    (hinputs : ∀ input ∈ inputs, input.fileName?.isSome)
    (h : plan tree root settings inputs = .ok plans) (hplanned : planned ∈ plans) :
    planned.destination.resolved = planned.source.resolved ↔
      ∃ entry output, directories? root settings = some (entry, output) ∧
        ClimbsOut entry output planned.source := by
  obtain ⟨⟨sources, hsources, hsource⟩, hdestination⟩ := of_mem_plan h hplanned
  obtain ⟨name, hname⟩ := exists_fileName?_of_mem_planSources hinputs hsources hsource
  rw [hdestination]
  cases hdirectories : directories? root settings with
  | none =>
    simp only [reduceCtorEq, false_and, exists_false, iff_false]
    exact Path.resolved_generated_ne hname
  | some directories =>
    obtain ⟨entry, output⟩ := directories
    have hne : entry.resolved ≠ output.resolved := fun heq =>
      (hapart entry output hdirectories).1 (heq ▸ List.prefix_rfl)
    have hentry : entry.bytes ≠ [] := bytes_directories?_ne_nil hroot hdirectories
    have hexists : (∃ entry' output', some (entry, output) = some (entry', output') ∧
        ClimbsOut entry' output' planned.source) ↔ ClimbsOut entry output planned.source := by
      simp
    rw [hexists]
    cases hbelow : planned.source.stripPrefix? entry with
    | none =>
      rw [destination_of_none hbelow]
      refine iff_of_false (Path.resolved_generated_ne hname) ?_
      rintro ⟨rest, hrest, -⟩
      rw [hbelow] at hrest
      cases hrest
    | some rest => exact resolved_destination_eq_iff_climbsOut hentry hne hbelow

/-- The template above both template directories is rendered over itself. -/
theorem destination_overwrites :
    let settings : Settings := { entry := some ⟨"docs".toList⟩, output := some ⟨"out".toList⟩ }
    plan (.empty ⟨0, 0⟩) ⟨"/w".toList⟩ settings [⟨"docs/../a.md".toList⟩] =
        .ok [⟨⟨"/w/docs/../a.md".toList⟩, ⟨"/w/out/../a.md".toList⟩⟩] ∧
      (Path.mk "/w/docs/../a.md".toList).resolved = (["w".toList, "a.md".toList] : Place) ∧
      (Path.mk "/w/out/../a.md".toList).resolved = (["w".toList, "a.md".toList] : Place) :=
  ⟨by decide +kernel, by decide +kernel, by decide +kernel⟩

/-- The template above both template directories climbs out of the first. -/
theorem resolved_destination_eq_iff_above :
    let root : Path := ⟨"/w".toList⟩
    let settings : Settings := { entry := some ⟨"docs".toList⟩, output := some ⟨"out".toList⟩ }
    let planned : Planned := ⟨⟨"/w/docs/../a.md".toList⟩, ⟨"/w/out/../a.md".toList⟩⟩
    plan (.empty ⟨0, 0⟩) root settings [⟨"docs/../a.md".toList⟩] = .ok [planned] ∧
      planned.destination.resolved = planned.source.resolved ∧
      ∃ entry output, directories? root settings = some (entry, output) ∧
        ClimbsOut entry output planned.source := by
  intro root settings planned
  have hplan : plan (.empty ⟨0, 0⟩) root settings [⟨"docs/../a.md".toList⟩] = .ok [planned] := by
    decide +kernel
  have hapart : ∀ entry output, directories? root settings = some (entry, output) →
      ¬entry.resolved <+: output.resolved ∧ ¬output.resolved <+: entry.resolved := by
    intro entry output h
    have hboth : directories? root settings = some (⟨"/w/docs".toList⟩, ⟨"/w/out".toList⟩) := by
      decide +kernel
    obtain ⟨rfl, rfl⟩ := Prod.mk.inj (Option.some.inj (h.symm.trans hboth))
    decide +kernel
  have hinputs : ∀ input ∈ [Path.mk "docs/../a.md".toList], input.fileName?.isSome := by
    rw [List.forall_mem_singleton]
    decide +kernel
  have hsame : planned.destination.resolved = planned.source.resolved := by decide +kernel
  exact ⟨hplan, hsame, (resolved_destination_eq_iff rfl hapart hinputs hplan
    (List.mem_singleton_self planned)).mp hsame⟩

end Marginalia.Workspace
