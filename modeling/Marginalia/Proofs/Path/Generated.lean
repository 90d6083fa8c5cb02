import Marginalia.Proofs.Path.Below
import Marginalia.Proofs.Text.Bytes

/-!
# Names of rendered forms

The rendered form of a template without another place stands beside it under a name of its own. That
name is made from the file name alone, as it is read. So the rendered forms of two templates have
one place exactly when the templates stand in one directory under names that are read as one text,
which for names that are texts means under one name.
-/

namespace Marginalia

section

variable {α : Type} [DecidableEq α] {c : α} {s t e f : List α}

/-- Read backwards, a list stands before the last member of a kind behind what stands behind it. -/
theorem takeWhile_reverse_append_cons (he : c ∉ e) (s : List α) :
    (s ++ c :: e).reverse.takeWhile (· ≠ c) = e.reverse ∧
      (s ++ c :: e).reverse.dropWhile (· ≠ c) = c :: s.reverse := by
  have hall : ∀ d ∈ e.reverse, decide (d ≠ c) = true := by
    intro d hd
    exact decide_eq_true fun h => he (h ▸ List.mem_reverse.mp hd)
  have hreverse : (s ++ c :: e).reverse = e.reverse ++ c :: s.reverse := by
    rw [List.reverse_append, List.reverse_cons, List.append_assoc, List.singleton_append]
  rw [hreverse]
  constructor
  · rw [List.takeWhile_append_of_pos hall, List.takeWhile_cons_of_neg (by simp), List.append_nil]
  · rw [List.dropWhile_append_of_pos hall, List.dropWhile_cons_of_neg (by simp)]

/-- A list has one last member of a kind. -/
theorem append_cons_inj_of_notMem_behind (he : c ∉ e) (hf : c ∉ f)
    (h : s ++ c :: e = t ++ c :: f) : s = t ∧ e = f := by
  obtain ⟨htake, hdrop⟩ := takeWhile_reverse_append_cons he s
  obtain ⟨htake', hdrop'⟩ := takeWhile_reverse_append_cons hf t
  rw [h, htake'] at htake
  rw [h, hdrop'] at hdrop
  exact ⟨(List.reverse_inj.mp (List.cons.inj hdrop).2).symm, (List.reverse_inj.mp htake).symm⟩

end

namespace Path

open Text Bytes

variable {p q : Path} {name m n s e : Bytes}

/-! ## Extensions -/

/-- A name is split at its last dot, if anything stands before it. -/
theorem splitName_append_dot (hs : s ≠ []) (he : dot ∉ e) :
    splitName (s ++ dot :: e) = (s, some e) := by
  obtain ⟨htake, hdrop⟩ := takeWhile_reverse_append_cons he s
  simp only [splitName, htake, hdrop, List.drop_one, List.tail_cons, List.reverse_reverse,
    List.isEmpty_iff, if_neg hs]

/-- A name has an extension behind its last dot, or it is its own stem and has no dot but perhaps
one at its front. -/
theorem splitName_cases (name : Bytes) :
    (splitName name = (name, none) ∧ ∀ s e, name = s ++ dot :: e → s = []) ∨
      ∃ s e, s ≠ [] ∧ dot ∉ e ∧ name = s ++ dot :: e ∧ splitName name = (s, some e) := by
  by_cases hdot : dot ∈ name.reverse
  · obtain ⟨behind, front, hname, hbehind⟩ := List.eq_append_cons_of_mem hdot
    have hname : name = front.reverse ++ dot :: behind.reverse := by
      rw [← List.reverse_reverse name, hname, List.reverse_append, List.reverse_cons,
        List.append_assoc, List.singleton_append]
    have hbehind : dot ∉ behind.reverse := by simpa using hbehind
    by_cases hs : front.reverse = []
    · obtain ⟨-, hdrop⟩ := takeWhile_reverse_append_cons hbehind front.reverse
      rw [← hname] at hdrop
      refine .inl ⟨?_, fun s e hsplit => ?_⟩
      · simp only [splitName, hdrop, List.drop_one, List.tail_cons, List.reverse_reverse,
          List.isEmpty_iff, if_pos hs]
      · rw [hname, hs, List.nil_append] at hsplit
        cases s with
        | nil => rfl
        | cons b s =>
          obtain ⟨-, hrest⟩ := List.cons.inj hsplit
          exact absurd (hrest ▸ List.mem_append_right s List.mem_cons_self) hbehind
    · exact .inr ⟨_, _, hs, hbehind, hname, hname ▸ splitName_append_dot hs hbehind⟩
  · have hall : ∀ b ∈ name.reverse, decide (b ≠ dot) = true := by
      intro b hb
      exact decide_eq_true fun h => hdot (h ▸ hb)
    have hdrop : name.reverse.dropWhile (fun b => decide (b ≠ dot)) = [] :=
      List.dropWhile_eq_nil_iff.mpr hall
    refine .inl ⟨?_, fun s e hsplit => ?_⟩
    · simp only [splitName, hdrop]
      rfl
    · rw [hsplit, List.mem_reverse] at hdot
      exact absurd (List.mem_append_right s List.mem_cons_self) hdot

/-! ## Names -/

/-- The text of the name of the rendered form of a template with a name. -/
def generatedText (name : Bytes) : Text :=
  (splitName name).1.lossy ++ '.' :: "generated".toList ++
    ((splitName name).2.map ('.' :: ·.lossy)).getD []

/-- The name of the rendered form of a template with a name. -/
def generatedName (name : Bytes) : Bytes :=
  (generatedText name).utf8

/-- The rendered form has the name that is made from the name of the template. -/
theorem generated_eq (p : Path) :
    p.generated = p.withFileName (generatedName (p.fileName?.getD [])) := by
  rw [generated, stem?, extension?, generatedName, generatedText]
  cases p.fileName? with
  | none => rfl
  | some name =>
    simp only [Option.map_some, Option.bind_some, Option.getD_some]
    cases (splitName name).2 with
    | none => exact congrArg (fun t => p.withFileName (utf8 t)) (List.append_nil _).symm
    | some e => rfl

/-- A name without an extension goes on with the word for rendered forms. -/
theorem generatedText_of_none (h : splitName name = (name, none)) :
    generatedText name = name.lossy ++ '.' :: "generated".toList := by
  rw [generatedText, h]
  exact List.append_nil _

/-- An extension stays behind the word for rendered forms. -/
theorem generatedText_of_some (h : splitName name = (s, some e)) :
    generatedText name = (s.lossy ++ '.' :: "generated".toList) ++ '.' :: e.lossy := by
  rw [generatedText, h]
  rfl

/-- A name with a dot is read as its parts with a dot between. -/
theorem lossy_append_dot (s e : Bytes) : (s ++ dot :: e).lossy = s.lossy ++ '.' :: e.lossy :=
  lossy_append_cons (c := '.') (by decide) s e

/-- A name without a dot is read as a text without one. -/
theorem dot_notMem_lossy (h : dot ∉ e) : '.' ∉ e.lossy := by
  rwa [mem_lossy_iff (c := '.') (by decide)]

/-- A name without an extension is not read as one that has an extension. -/
theorem lossy_ne_of_splitName (hm : ∀ s e, m = s ++ dot :: e → s = []) (hs : s ≠ [])
    (he : dot ∉ e) (hn : n = s ++ dot :: e) : m.lossy ≠ n.lossy := by
  rw [hn, lossy_append_dot]
  intro heq
  have hdot : dot ∈ m := by
    refine (mem_lossy_iff (c := '.') (by decide)).mp ?_
    rw [heq]
    exact List.mem_append_right _ List.mem_cons_self
  obtain ⟨behind, front, hbehind, hfront⟩ := List.eq_append_cons_of_mem (List.mem_reverse.mpr hdot)
  have hsplit : m = front.reverse ++ dot :: behind.reverse := by
    rw [← List.reverse_reverse m, hbehind, List.reverse_append, List.reverse_cons,
      List.append_assoc, List.singleton_append]
  rw [hsplit, lossy_append_dot] at heq
  have hstem := (append_cons_inj_of_notMem_behind
    (dot_notMem_lossy (by simpa using hfront)) (dot_notMem_lossy he) heq).1
  rw [hm _ _ hsplit] at hstem
  exact hs (lossy_eq_nil_iff.mp hstem.symm)

/-- A name without an extension and one with an extension make different names. -/
theorem generatedText_ne (hm : splitName m = (m, none)) (hfront : ∀ s e, m = s ++ dot :: e → s = [])
    (hs : s ≠ []) (he : dot ∉ e) (hn : splitName n = (s, some e)) :
    generatedText m ≠ generatedText n := by
  rw [generatedText_of_none hm, generatedText_of_some hn]
  intro heq
  obtain ⟨hstem, -⟩ := append_cons_inj_of_notMem_behind (by decide) (dot_notMem_lossy he) heq
  refine lossy_ne_of_splitName hfront hs (e := "generated".toList) (by decide) rfl ?_
  rw [hstem, lossy_append_dot, lossy_utf8]

/-- Two names make one name of a rendered form exactly when they are read as one text. -/
theorem generatedName_eq_iff : generatedName m = generatedName n ↔ m.lossy = n.lossy := by
  have hword : '.' ∉ "generated".toList := by decide
  rw [generatedName, generatedName, utf8_inj]
  rcases splitName_cases m with ⟨hm, hfront⟩ | ⟨s, e, hs, he, hm, hsplit⟩
  · rcases splitName_cases n with ⟨hn, -⟩ | ⟨t, f, ht, hf, hn, hsplit'⟩
    · rw [generatedText_of_none hm, generatedText_of_none hn, List.append_left_inj]
    · exact iff_of_false (generatedText_ne hm hfront ht hf hsplit')
        (lossy_ne_of_splitName hfront ht hf hn)
  · rcases splitName_cases n with ⟨hn, hfront⟩ | ⟨t, f, ht, hf, hn, hsplit'⟩
    · exact iff_of_false (generatedText_ne hn hfront hs he hsplit).symm
        (lossy_ne_of_splitName hfront hs he hm).symm
    · rw [generatedText_of_some hsplit, generatedText_of_some hsplit', hm, hn, lossy_append_dot,
        lossy_append_dot]
      constructor
      · intro heq
        obtain ⟨hstem, hextension⟩ :=
          append_cons_inj_of_notMem_behind (dot_notMem_lossy he) (dot_notMem_lossy hf) heq
        rw [List.append_cancel_right hstem, hextension]
      · intro heq
        obtain ⟨hstem, hextension⟩ :=
          append_cons_inj_of_notMem_behind (dot_notMem_lossy he) (dot_notMem_lossy hf) heq
        rw [hstem, hextension]

/-- The name of a rendered form is read as a longer text than the name from which it is made. -/
theorem length_lossy_generatedName (name : Bytes) :
    (generatedName name).lossy.length = name.lossy.length + 10 := by
  rw [generatedName, lossy_utf8]
  rcases splitName_cases name with ⟨h, -⟩ | ⟨s, e, -, -, hname, h⟩
  · rw [generatedText_of_none h]
    simp
  · rw [generatedText_of_some h, hname, lossy_append_dot]
    simp
    omega

/-- The rendered form has another name than the template. -/
theorem generatedName_ne (name : Bytes) : generatedName name ≠ name := by
  intro heq
  have hlength := length_lossy_generatedName name
  rw [heq] at hlength
  omega

/-- The rendered form of a file has the name of an entry. -/
theorem isName_generatedName (h : slash ∉ name) : IsName (generatedName name) := by
  have hlength := length_lossy_generatedName name
  refine ⟨fun hnil => ?_, fun hdot => ?_, fun hdots => ?_, fun hslash => ?_⟩
  · rw [hnil, lossy_eq_nil_iff.mpr rfl] at hlength
    simp at hlength
  · have hone : lossy [dot] = ['.'] := by decide
    rw [hdot, hone] at hlength
    simp at hlength
  · have htwo : lossy [dot, dot] = ['.', '.'] := by decide
    rw [hdots, htwo] at hlength
    simp at hlength
  · have hread {b : Bytes} (hb : slash ∉ b) : '/' ∉ b.lossy := by
      rwa [mem_lossy_iff (by decide)]
    have hmem : '/' ∈ generatedText name := (byteOf_mem_utf8_iff (by decide)).mp hslash
    rcases splitName_cases name with ⟨hsplit, -⟩ | ⟨s, e, -, -, hname, hsplit⟩
    · rw [generatedText_of_none hsplit, List.mem_append] at hmem
      exact hmem.elim (hread h) (by decide)
    · rw [hname, List.mem_append, not_or, List.mem_cons, not_or] at h
      rw [generatedText_of_some hsplit, List.mem_append, List.mem_append] at hmem
      rcases hmem with (hmem | hmem) | hmem
      · exact hread h.1 hmem
      · exact absurd hmem (by decide)
      · exact (List.mem_cons.mp hmem).elim (by decide) (hread h.2.2)

/-! ## Places -/

/-- A text, read backwards, without what stands behind its last slash. -/
def upToLastSlash (t : Bytes) : Bytes :=
  (t.dropWhile (· ≠ slash)).drop 1

/-- A text that ends with neither slashes nor dots is cut before its last component. -/
theorem isCut_upToLastSlash {t : Bytes} (hne : t ≠ []) (h : IsStart [] t) :
    IsCut (upToLastSlash t).reverse t.reverse ∧
      ∃ c, inner t.reverse = inner (upToLastSlash t).reverse ++ [c] := by
  have hlast {part : Bytes} (hslash : slash ∉ part) (hpart : part ≠ []) (hdot : part ≠ [dot]) :
      ∃ c, inner part.reverse = [c] := by
    cases hc : innerComponent? part.reverse with
    | none =>
      rcases innerComponent?_eq_none_iff.mp hc with hnil | hone
      · exact absurd (List.reverse_eq_nil_iff.mp hnil) hpart
      · exact absurd (List.reverse_eq_iff.mp hone) hdot
    | some c => exact ⟨c, by rw [inner_of_notMem (by simpa using hslash), hc]; rfl⟩
  rcases h with h | ⟨h, -⟩ | ⟨-, hslash, hdot, hfront⟩
  · cases h
  · cases h
  by_cases hmem : slash ∈ t
  · obtain ⟨part, behind, rfl, hpart⟩ := List.eq_append_cons_of_mem hmem
    have hall : ∀ c ∈ part, decide (c ≠ slash) = true := by
      intro c hc
      exact decide_eq_true fun h => hpart (h ▸ hc)
    have hreverse : (part ++ slash :: behind).reverse = behind.reverse ++ slash :: part.reverse := by
      rw [List.reverse_append, List.reverse_cons, List.append_assoc, List.singleton_append]
    have hcut : upToLastSlash (part ++ slash :: behind) = behind := by
      rw [upToLastSlash, List.dropWhile_append_of_pos hall, List.dropWhile_cons_of_neg (by simp),
        List.drop_one, List.tail_cons]
    obtain ⟨c, hc⟩ := hlast hpart (by rintro rfl; exact hslash rfl)
      (by rintro rfl; exact hfront ⟨behind, rfl⟩)
    rw [hcut, hreverse, inner_append_slash, hc]
    exact ⟨isCut_append _ rfl, c, rfl⟩
  · have hcut : upToLastSlash t = [] := by
      have hall : ∀ c ∈ t, decide (c ≠ slash) = true := by
        intro c hc
        exact decide_eq_true fun h => hmem (h ▸ hc)
      rw [upToLastSlash, List.dropWhile_eq_nil_iff.mpr hall]
      rfl
    rw [hcut]
    exact ⟨⟨_, rfl, .inl rfl⟩, hlast hmem hne hdot⟩

/-- A path has a file name when its last component is one. -/
theorem fileName?_eq_some_iff :
    p.fileName? = some name ↔ p.components.getLast? = some (.name name) := by
  rw [fileName?]
  split
  · rename_i n hn
    simp [hn]
  · rename_i hno
    simp only [reduceCtorEq, false_iff]
    exact hno name

/-- A path keeps its file name behind another one. -/
theorem fileName?_join {q : Path} (h : q.fileName? = some name) :
    (p.join q).fileName? = some name := by
  by_cases hwhole : q.isAbsolute = true ∨ p.bytes = []
  · rwa [join, if_pos hwhole]
  · obtain ⟨hq, hp⟩ := not_or.mp hwhole
    rw [fileName?_eq_some_iff] at h ⊢
    obtain ⟨start, rest, hstart, rfl⟩ := q.exists_isStart
    have hroot : start ≠ [slash] := by
      rintro rfl
      exact hq rfl
    rw [components_join_of_relative hp (Bool.eq_false_iff.mpr hq), inner_of_isStart hstart hroot]
    rw [components_of_isStart hstart] at h
    have hne : inner rest ≠ [] := by
      intro hnil
      rw [hnil, List.append_nil] at h
      rcases hstart with rfl | ⟨rfl, -⟩ | ⟨rfl, -⟩ <;> simp at h
    rw [List.getLast?_append_of_ne_nil _ hne] at h ⊢
    exact h

/-- A file stands in the directory to which the components before its name lead. -/
theorem exists_parent? (h : p.fileName? = some name) :
    ∃ q, p.parent? = some q ∧ p.components = q.components ++ [.name name] := by
  obtain ⟨start, rest, hstart, rfl⟩ := p.exists_isStart
  rw [fileName?_eq_some_iff, components_of_isStart hstart] at h
  have hcut := isCut_reverse_trimFront rest.reverse
  have hinner := inner_reverse_trimFront rest.reverse
  rw [List.reverse_reverse] at hcut hinner
  have hne : trimFront rest.reverse ≠ [] := by
    intro hnil
    rw [← hinner, hnil, List.reverse_nil, inner_nil, List.append_nil] at h
    rcases hstart with rfl | ⟨rfl, -⟩ | ⟨rfl, -⟩ <;> simp at h
  obtain ⟨hcut', c, hc⟩ := isCut_upToLastSlash hne (isStart_trimFront _)
  have hparent := inner_reverse_trimFront (upToLastSlash (trimFront rest.reverse))
  have hstart' := hstart.of_isCut (((isCut_reverse_trimFront _).trans hcut').trans hcut)
  rw [← hinner, hc, ← List.append_assoc, List.getLast?_concat] at h
  obtain rfl := Option.some.inj h
  refine ⟨⟨start ++ (trimFront (upToLastSlash (trimFront rest.reverse))).reverse⟩, ?_, ?_⟩
  · rw [parent?, splitStart_of_isStart hstart]
    simp only [upToLastSlash]
  · rw [components_of_isStart hstart, components_of_isStart hstart', hparent, ← hinner, hc,
      List.append_assoc]

/-- The components of the place of a rendered form: those of the directory of the template, and the
name that is made from its name. -/
def generatedComponents (components : List Component) : List Component :=
  match components.getLast? with
  | some (.name name) => components.dropLast ++ [.name (generatedName name)]
  | _ => components ++ [.name (generatedName [])]

/-- The place of the rendered form of a file is made from its directory and its name. -/
theorem generatedComponents_of_some (h : p.fileName? = some name) :
    p.components = p.components.dropLast ++ [.name name] ∧
      generatedComponents p.components = p.components.dropLast ++ [.name (generatedName name)] := by
  obtain ⟨q, -, hcomponents⟩ := exists_parent? h
  rw [generatedComponents, hcomponents, List.getLast?_concat, List.dropLast_concat]
  exact ⟨rfl, rfl⟩

/-- The place of the rendered form of what has no file name is made from the blank name. -/
theorem generatedComponents_of_none (h : p.fileName? = none) :
    generatedComponents p.components = p.components ++ [.name (generatedName [])] := by
  rw [generatedComponents]
  split
  · rename_i name hname
    rw [fileName?_eq_some_iff.mpr hname] at h
    cases h
  · rfl

/-- The names of files are those of entries. -/
theorem isName_of_fileName? (h : p.fileName? = some name) : IsName name :=
  isName_of_mem_components (List.mem_of_getLast? (fileName?_eq_some_iff.mp h))

/-- The rendered form of a template stands beside it. -/
theorem components_generated (p : Path) :
    p.generated.components = generatedComponents p.components := by
  rw [generated_eq, withFileName]
  cases hname : p.fileName? with
  | none =>
    rw [generatedComponents_of_none hname]
    exact components_join_of_isName (isName_generatedName List.not_mem_nil)
  | some name =>
    obtain ⟨q, hq, hcomponents⟩ := exists_parent? hname
    rw [(generatedComponents_of_some hname).2, hcomponents, List.dropLast_concat, hq]
    exact components_join_of_isName (isName_generatedName (isName_of_fileName? hname).2.2.2)

/-- Whether two paths are the same as they are read: they have the same components, or stand in one
directory under names that are read as one text. -/
def ReadAlike (p q : Path) : Prop :=
  p.components = q.components ∨ ∃ directory m n, p.components = directory ++ [.name m] ∧
    q.components = directory ++ [.name n] ∧ m.lossy = n.lossy

/-- The last name of components and those before it are determined. -/
theorem append_name_inj {front front' : List Component} :
    front ++ [.name m] = front' ++ [.name n] ↔ front = front' ∧ m = n := by
  constructor
  · intro h
    obtain ⟨hfront, hname⟩ := List.append_inj' h rfl
    exact ⟨hfront, Component.name.inj (List.singleton_inj.mp hname)⟩
  · rintro ⟨rfl, rfl⟩
    rfl

/-- The components of the place of a rendered form, by whether the template has a file name. -/
theorem generatedComponents_cases (p : Path) :
    ((∀ directory name, p.components ≠ directory ++ [.name name]) ∧
        generatedComponents p.components = p.components ++ [.name (generatedName [])]) ∨
      ∃ directory name, name ≠ [] ∧ p.components = directory ++ [.name name] ∧
        generatedComponents p.components = directory ++ [.name (generatedName name)] := by
  cases hname : p.fileName? with
  | none =>
    refine .inl ⟨fun directory name hcomponents => ?_, generatedComponents_of_none hname⟩
    rw [fileName?_eq_some_iff.mpr (by rw [hcomponents, List.getLast?_concat])] at hname
    cases hname
  | some name =>
    obtain ⟨hcomponents, hgenerated⟩ := generatedComponents_of_some hname
    exact .inr ⟨_, name, (isName_of_fileName? hname).1, hcomponents, hgenerated⟩

/-- The rendered forms of two templates have one place exactly when the templates are the same as
they are read. -/
theorem components_generated_eq_iff :
    p.generated.components = q.generated.components ↔ ReadAlike p q := by
  have hlast {front front' : List Component} {m n : Bytes} :
      front ++ [.name (generatedName m)] = front' ++ [.name (generatedName n)] ↔
        front = front' ∧ m.lossy = n.lossy := by
    rw [append_name_inj, generatedName_eq_iff]
  have hblank {name : Bytes} (hname : name ≠ []) : lossy [] ≠ name.lossy :=
    fun h => hname (lossy_eq_nil_iff.mp h.symm)
  rw [components_generated, components_generated]
  rcases generatedComponents_cases p with ⟨hp, hp'⟩ | ⟨directory, m, hm, hp, hp'⟩
  · have halike : ReadAlike p q ↔ p.components = q.components :=
      or_iff_left fun ⟨_, _, _, hsplit, _⟩ => hp _ _ hsplit
    rcases generatedComponents_cases q with ⟨-, hq'⟩ | ⟨directory, n, hn, hq, hq'⟩
    · rw [halike, hp', hq', hlast, and_iff_left rfl]
    · rw [halike, hp', hq', hlast]
      exact iff_of_false (fun h => hblank hn h.2) fun h => hp _ _ (h.trans hq)
  · rcases generatedComponents_cases q with ⟨hq, hq'⟩ | ⟨directory', n, hn, hq, hq'⟩
    · rw [hp', hq', hlast]
      refine iff_of_false (fun h => hblank hm h.2.symm) ?_
      rintro (h | ⟨_, _, _, -, hsplit, -⟩)
      · exact hq _ _ (h.symm.trans hp)
      · exact hq _ _ hsplit
    · rw [hp', hq', hlast, ReadAlike, hp, hq]
      constructor
      · rintro ⟨rfl, hread⟩
        exact .inr ⟨directory, m, n, rfl, rfl, hread⟩
      · rintro (h | ⟨above, m', n', hm', hn', hread⟩)
        · obtain ⟨rfl, rfl⟩ := append_name_inj.mp h
          exact ⟨rfl, rfl⟩
        · obtain ⟨rfl, rfl⟩ := append_name_inj.mp hm'
          obtain ⟨rfl, rfl⟩ := append_name_inj.mp hn'
          exact ⟨rfl, hread⟩

end Path

end Marginalia
