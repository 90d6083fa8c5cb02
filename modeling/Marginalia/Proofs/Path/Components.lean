import Mathlib.Data.List.TakeWhile
import Marginalia.Proofs.FileTree.Follow

/-!
# Components of paths

Behind its start a path is read between its slashes. So what is written behind a slash has the
components behind those before it, a path is read as before up to a slash, and slashes and dots at
either end of what is read make no difference.
-/

namespace Marginalia.Path

open Bytes

variable {p : Path} {name : Bytes}

/-! ## Between slashes -/

/-- The components between the slashes of a text. -/
def inner (t : Bytes) : List Component :=
  (t.splitOn slash).filterMap innerComponent?

@[simp] theorem inner_nil : inner [] = [] := by
  rw [inner, List.splitOn_nil]
  rfl

/-- A slash divides the components before it from those behind it. -/
theorem inner_append_slash (s t : Bytes) : inner (s ++ slash :: t) = inner s ++ inner t := by
  rw [inner, List.splitOn_append_cons_self, List.filterMap_append, inner, inner]

/-- A slash in front makes no component. -/
theorem inner_slash_cons (t : Bytes) : inner (slash :: t) = inner t := by
  simpa using inner_append_slash [] t

/-- Nothing and a dot between slashes make no component. -/
theorem innerComponent?_eq_none_iff {part : Bytes} :
    innerComponent? part = none ↔ part = [] ∨ part = [dot] := by
  rw [innerComponent?]
  split_ifs with hblank <;> simpa using hblank

/-- A text without slashes makes one component or none. -/
theorem inner_of_notMem {t : Bytes} (ht : slash ∉ t) : inner t = (innerComponent? t).toList := by
  rw [inner, List.splitOn_eq_singleton ht]
  cases h : innerComponent? t <;> simp [h]

/-- A dot makes no component between slashes. -/
theorem inner_dot : inner [dot] = [] :=
  inner_of_notMem (by decide)

/-- A name makes the component with that name. -/
theorem inner_of_isName (h : IsName name) : inner name = [.name name] := by
  obtain ⟨hne, hdot, hdots, hslash⟩ := h
  rw [inner_of_notMem hslash, innerComponent?, if_neg (not_or.mpr ⟨hne, hdot⟩), if_neg hdots]
  rfl

/-- A text is one part without slashes, or such a part before a slash and another text. -/
theorem slash_induction {motive : Bytes → Prop} (part : ∀ t, slash ∉ t → motive t)
    (divided : ∀ t behind, slash ∉ t → motive behind → motive (t ++ slash :: behind)) (t : Bytes) :
    motive t := by
  induction hn : t.length using Nat.strongRecOn generalizing t with
  | ind n ih =>
    by_cases ht : slash ∈ t
    · obtain ⟨front, behind, rfl, hfront⟩ := List.eq_append_cons_of_mem ht
      refine divided front behind hfront (ih behind.length ?_ behind rfl)
      rw [← hn, List.length_append, List.length_cons]
      omega
    · exact part t ht

/-- Between slashes stand names and steps upwards only. -/
theorem eq_parent_or_name_of_mem_inner {t : Bytes} {c : Component} (h : c ∈ inner t) :
    c = .parent ∨ ∃ name, c = .name name ∧ IsName name := by
  have hpart {part : Bytes} (hslash : slash ∉ part) (hc : c ∈ inner part) :
      c = .parent ∨ ∃ name, c = .name name ∧ IsName name := by
    rw [inner_of_notMem hslash, Option.mem_toList, innerComponent?] at hc
    split_ifs at hc with hblank hdots
    · exact .inl (Option.some.inj hc).symm
    · obtain ⟨hne, hdot⟩ := not_or.mp hblank
      exact .inr ⟨part, (Option.some.inj hc).symm, hne, hdot, hdots, hslash⟩
  induction t using slash_induction with
  | part t ht => exact hpart ht h
  | divided t behind ht ih =>
    rw [inner_append_slash, List.mem_append] at h
    exact h.elim (hpart ht) ih

/-! ## Steps -/

/-- The step of a text without slashes has nothing behind it. -/
theorem innerSteps_of_notMem {t : Bytes} (ht : slash ∉ t) :
    innerSteps t = (innerComponent? t).toList.map fun c => (c, []) := by
  have hall : ∀ c ∈ t, decide (c ≠ slash) = true := by
    intro c hc
    exact decide_eq_true fun h => ht (h ▸ hc)
  have htake : t.takeWhile (· ≠ slash) = t := List.takeWhile_eq_self_iff.mpr hall
  rw [innerSteps, htake]
  split
  · rfl
  · rename_i hdrop
    rw [List.dropWhile_eq_nil_iff.mpr hall] at hdrop
    cases hdrop

/-- The step of a part before a slash stands before the steps behind the slash. -/
theorem innerSteps_append_slash_of_notMem {t : Bytes} (ht : slash ∉ t) (behind : Bytes) :
    innerSteps (t ++ slash :: behind) =
      ((innerComponent? t).toList.map fun c => (c, slash :: behind)) ++ innerSteps behind := by
  have hall : ∀ c ∈ t, decide (c ≠ slash) = true := by
    intro c hc
    exact decide_eq_true fun h => ht (h ▸ hc)
  have htake : (t ++ slash :: behind).takeWhile (· ≠ slash) = t := by
    rw [List.takeWhile_append_of_pos hall, List.takeWhile_cons_of_neg (by simp), List.append_nil]
  have hdrop : (t ++ slash :: behind).dropWhile (· ≠ slash) = slash :: behind := by
    rw [List.dropWhile_append_of_pos hall, List.dropWhile_cons_of_neg (by simp)]
  rw [innerSteps, htake]
  split
  · rename_i hnil
    rw [hdrop] at hnil
    cases hnil
  · rename_i hcons
    rw [hdrop] at hcons
    obtain ⟨rfl, rfl⟩ := List.cons.inj hcons
    rfl

/-- The components of the steps of a text are those between its slashes. -/
theorem map_fst_innerSteps (t : Bytes) : (innerSteps t).map Prod.fst = inner t := by
  induction t using slash_induction with
  | part t ht =>
    rw [innerSteps_of_notMem ht, inner_of_notMem ht, List.map_map]
    exact List.map_id _
  | divided t behind ht ih =>
    rw [innerSteps_append_slash_of_notMem ht, inner_append_slash, inner_of_notMem ht,
      List.map_append, ih, List.map_map]
    exact congrArg (· ++ inner behind) (List.map_id _)

/-- The steps of a text behind another one follow the steps of that one, behind which they then
stand. -/
theorem innerSteps_append_slash (s t : Bytes) :
    innerSteps (s ++ slash :: t) =
      ((innerSteps s).map fun step => (step.1, step.2 ++ slash :: t)) ++ innerSteps t := by
  induction s using slash_induction with
  | part s hs =>
    rw [innerSteps_append_slash_of_notMem hs, innerSteps_of_notMem hs, List.map_map]
    rfl
  | divided s behind hs ih =>
    rw [List.append_assoc, List.cons_append, innerSteps_append_slash_of_notMem hs, ih,
      innerSteps_append_slash_of_notMem hs, List.map_append, List.map_map, List.append_assoc]
    rfl

/-- Behind a step stand the components that follow its own. -/
theorem inner_of_getElem?_innerSteps {t : Bytes} {i : Nat} {step : Component × Bytes}
    (h : (innerSteps t)[i]? = some step) : inner step.2 = (inner t).drop (i + 1) := by
  induction t using slash_induction generalizing i with
  | part t ht =>
    rw [innerSteps_of_notMem ht, List.getElem?_map, Option.map_eq_some_iff] at h
    obtain ⟨c, hc, rfl⟩ := h
    rw [inner_of_notMem ht, inner_nil, eq_comm, List.drop_eq_nil_iff]
    exact Option.length_toList_le.trans (Nat.le_add_left 1 i)
  | divided t behind ht ih =>
    rw [innerSteps_append_slash_of_notMem ht] at h
    rw [inner_append_slash, inner_of_notMem ht]
    cases hpart : innerComponent? t with
    | none =>
      rw [hpart] at h
      simpa using ih h
    | some c =>
      rw [hpart] at h
      cases i with
      | zero =>
        obtain rfl := Option.some.inj h
        simpa using inner_slash_cons behind
      | succ i => simpa using ih h

/-! ## Starts -/

/-- Whether a path is read with this start and this rest: a slash, a dot before a slash or at the
end, or nothing where neither of these stands. -/
def IsStart (start rest : Bytes) : Prop :=
  start = [slash] ∨ (start = [dot] ∧ (rest = [] ∨ rest.head? = some slash)) ∨
    (start = [] ∧ rest.head? ≠ some slash ∧ rest ≠ [dot] ∧ ¬[dot, slash] <+: rest)

@[simp] theorem startComponent?_nil : startComponent? [] = none := rfl

@[simp] theorem startComponent?_slash : startComponent? [slash] = some .root := rfl

@[simp] theorem startComponent?_dot : startComponent? [dot] = some .current := rfl

/-- A slash adds no name, and neither does a dot before a slash or at the end. -/
theorem isBare_eq_true_iff {b : UInt8} {rest : Bytes} :
    isBare b rest = true ↔ b = slash ∨ b = dot ∧ (rest = [] ∨ rest.head? = some slash) := by
  simp [isBare]

/-- A path that starts with neither a slash nor a dot before a slash or at the end has no start. -/
theorem isStart_nil_iff {t : Bytes} :
    IsStart [] t ↔ ∀ b rest, t = b :: rest → isBare b rest = false := by
  simp only [← Bool.not_eq_true, isBare_eq_true_iff, IsStart]
  constructor
  · rintro (h | ⟨h, -⟩ | ⟨-, hslash, hdot, hfront⟩) b rest rfl
    · cases h
    · cases h
    · rintro (rfl | ⟨rfl, rfl | hhead⟩)
      · exact hslash rfl
      · exact hdot rfl
      · obtain ⟨behind, rfl⟩ := List.head?_eq_some_iff.mp hhead
        exact hfront ⟨behind, rfl⟩
  · refine fun h => .inr (.inr ⟨trivial, fun hhead => ?_, fun hdot => ?_, fun hpre => ?_⟩)
    · obtain ⟨behind, ht⟩ := List.head?_eq_some_iff.mp hhead
      exact h _ _ ht (.inl rfl)
    · exact h _ _ hdot (.inr ⟨rfl, .inl rfl⟩)
    · obtain ⟨behind, ht⟩ := hpre
      exact h _ _ ht.symm (.inr ⟨rfl, .inr rfl⟩)

/-- A path is read with its start and its rest. -/
theorem isStart_splitStart (p : Path) :
    IsStart p.splitStart.1 p.splitStart.2 ∧ p.splitStart.1 ++ p.splitStart.2 = p.bytes := by
  rw [splitStart]
  split
  · rename_i hnil
    exact ⟨isStart_nil_iff.mpr (by simp), hnil.symm⟩
  · rename_i b rest hcons
    rw [hcons]
    split_ifs with hbare
    · refine ⟨?_, rfl⟩
      rcases isBare_eq_true_iff.mp hbare with rfl | ⟨rfl, hrest⟩
      · exact .inl rfl
      · exact .inr (.inl ⟨rfl, hrest⟩)
    · refine ⟨isStart_nil_iff.mpr fun c behind h => ?_, rfl⟩
      obtain ⟨rfl, rfl⟩ := List.cons.inj h
      exact Bool.eq_false_iff.mpr hbare

/-- Every path is written as a start and a rest. -/
theorem exists_isStart (p : Path) : ∃ start rest, IsStart start rest ∧ p = ⟨start ++ rest⟩ := by
  obtain ⟨hstart, hbytes⟩ := p.isStart_splitStart
  exact ⟨_, _, hstart, by rw [hbytes]⟩

/-- There is one way to read a path with a start and a rest. -/
theorem splitStart_of_isStart {start rest : Bytes} (h : IsStart start rest) :
    splitStart ⟨start ++ rest⟩ = (start, rest) := by
  rcases h with rfl | ⟨rfl, hrest⟩ | ⟨rfl, hno⟩
  · have hbare : isBare slash rest = true := isBare_eq_true_iff.mpr (.inl rfl)
    rw [splitStart, List.singleton_append]
    exact if_pos hbare
  · have hbare : isBare dot rest = true := isBare_eq_true_iff.mpr (.inr ⟨rfl, hrest⟩)
    rw [splitStart, List.singleton_append]
    exact if_pos hbare
  · cases rest with
    | nil => rfl
    | cons b rest =>
      have hbare := isStart_nil_iff.mp (.inr (.inr ⟨rfl, hno⟩)) b rest rfl
      exact if_neg (Bool.eq_false_iff.mp hbare)

/-- The steps of a path are that of its start and those of its rest. -/
theorem steps_of_isStart {start rest : Bytes} (h : IsStart start rest) :
    steps ⟨start ++ rest⟩ =
      ((startComponent? start).toList.map fun c => (c, rest)) ++ innerSteps rest := by
  rw [steps, splitStart_of_isStart h]

/-- The components of a path are that of its start and those between the slashes of its rest. -/
theorem components_of_isStart {start rest : Bytes} (h : IsStart start rest) :
    components ⟨start ++ rest⟩ = (startComponent? start).toList ++ inner rest := by
  rw [components, steps_of_isStart h, List.map_append, map_fst_innerSteps, List.map_map]
  exact congrArg (· ++ inner rest) (List.map_id _)

/-- The names among the components of a path are those of entries. -/
theorem isName_of_mem_components (h : .name name ∈ p.components) : IsName name := by
  obtain ⟨start, rest, hstart, rfl⟩ := p.exists_isStart
  rw [components_of_isStart hstart, List.mem_append] at h
  rcases h with h | h
  · rcases hstart with rfl | ⟨rfl, -⟩ | ⟨rfl, -⟩ <;> simp at h
  · rcases eq_parent_or_name_of_mem_inner h with h | ⟨other, h, hname⟩
    · cases h
    · rwa [Component.name.inj h]

/-- A path goes on behind a slash as it was read before. -/
theorem IsStart.append_slash {start rest : Bytes} (h : IsStart start rest)
    (hne : start ++ rest ≠ []) (behind : Bytes) : IsStart start (rest ++ slash :: behind) := by
  rcases h with rfl | ⟨rfl, rfl | hhead⟩ | ⟨rfl, hslash, hdot, hfront⟩
  · exact .inl rfl
  · exact .inr (.inl ⟨rfl, .inr rfl⟩)
  · exact .inr (.inl ⟨rfl, .inr (by rw [List.head?_append, hhead]; rfl)⟩)
  · cases rest with
    | nil => exact absurd rfl hne
    | cons c rest =>
      refine .inr (.inr ⟨rfl, hslash, fun ht => ?_, fun hpre => ?_⟩)
      · simp at ht
      · rw [List.cons_append, List.cons_prefix_cons] at hpre
        obtain ⟨rfl, hpre⟩ := hpre
        cases rest with
        | nil => exact hdot rfl
        | cons d rest =>
          rw [List.cons_append, List.cons_prefix_cons] at hpre
          obtain ⟨rfl, -⟩ := hpre
          exact hfront ⟨rest, rfl⟩

/-- The steps of a path behind a slash follow the steps before it, behind which they then stand. -/
theorem steps_append_slash {start rest : Bytes} (h : IsStart start rest) (hne : start ++ rest ≠ [])
    (behind : Bytes) :
    steps ⟨start ++ (rest ++ slash :: behind)⟩ =
      ((steps ⟨start ++ rest⟩).map fun step => (step.1, step.2 ++ slash :: behind)) ++
        innerSteps behind := by
  rw [steps_of_isStart (h.append_slash hne behind), steps_of_isStart h, innerSteps_append_slash,
    List.map_append, List.map_map, List.append_assoc]
  rfl

/-- Whether a text is another one up to a slash or its end, or blank. -/
def IsCut (front whole : Bytes) : Prop :=
  ∃ behind, front ++ behind = whole ∧ (front = [] ∨ behind = [] ∨ behind.head? = some slash)

/-- A text up to a slash is a cut of the text. -/
theorem isCut_append {behind : Bytes} (front : Bytes) (h : behind.head? = some slash) :
    IsCut front (front ++ behind) :=
  ⟨behind, rfl, .inr (.inr h)⟩

/-- A cut of a cut is a cut. -/
theorem IsCut.trans {front middle whole : Bytes} (h : IsCut front middle)
    (h' : IsCut middle whole) : IsCut front whole := by
  obtain ⟨behind, rfl, hcut⟩ := h
  obtain ⟨behind', rfl, hcut'⟩ := h'
  refine ⟨behind ++ behind', (List.append_assoc ..).symm, ?_⟩
  rcases hcut with hnil | rfl | hslash
  · exact .inl hnil
  · rwa [List.append_nil] at hcut'
  · exact .inr (.inr (by rw [List.head?_append, hslash]; rfl))

/-- A path is read as before up to a cut. -/
theorem IsStart.of_isCut {start rest whole : Bytes} (h : IsStart start whole)
    (hcut : IsCut rest whole) : IsStart start rest := by
  obtain ⟨behind, rfl, hcut⟩ := hcut
  rcases h with rfl | ⟨rfl, hrest⟩ | ⟨rfl, hslash, hdot, hfront⟩
  · exact .inl rfl
  · refine .inr (.inl ⟨rfl, ?_⟩)
    cases rest with
    | nil => exact .inl rfl
    | cons c rest => exact hrest.imp (fun hnil => by simp at hnil) id
  · cases rest with
    | nil => exact .inr (.inr ⟨rfl, by simp, by simp, by simp⟩)
    | cons c rest =>
      refine .inr (.inr ⟨rfl, hslash, fun ht => ?_, fun hpre => ?_⟩)
      · obtain ⟨rfl, rfl⟩ := List.cons.inj ht
        rcases hcut with hcut | rfl | hcut
        · simp at hcut
        · exact hdot rfl
        · obtain ⟨more, rfl⟩ := List.head?_eq_some_iff.mp hcut
          exact hfront ⟨more, rfl⟩
      · exact hfront (hpre.trans (List.prefix_append _ _))

/-! ## Cuts -/

@[simp] theorem trimFront_nil : trimFront [] = [] := rfl

@[simp] theorem trimFront_slash_cons (rest : Bytes) :
    trimFront (slash :: rest) = trimFront rest :=
  if_pos (isBare_eq_true_iff.mpr (.inl rfl))

@[simp] theorem trimFront_dot : trimFront [dot] = [] :=
  if_pos (isBare_eq_true_iff.mpr (.inr ⟨rfl, .inl rfl⟩))

@[simp] theorem trimFront_dot_slash_cons (rest : Bytes) :
    trimFront (dot :: slash :: rest) = trimFront rest :=
  (if_pos (isBare_eq_true_iff.mpr (.inr ⟨rfl, .inr rfl⟩))).trans (trimFront_slash_cons rest)

/-- What has no start is not cut at its front. -/
theorem trimFront_of_isStart {t : Bytes} (h : IsStart [] t) : trimFront t = t := by
  cases t with
  | nil => rfl
  | cons b rest => exact if_neg (Bool.eq_false_iff.mp (isStart_nil_iff.mp h b rest rfl))

/-- Bytes have no start, or a slash or a dot stands in front of others. -/
theorem trim_induction {motive : Bytes → Prop}
    (slashed : ∀ rest, motive rest → motive (slash :: rest))
    (dotted : motive [dot]) (parted : ∀ rest, motive rest → motive (dot :: slash :: rest))
    (bare : ∀ t, IsStart [] t → motive t) (t : Bytes) : motive t := by
  induction hn : t.length using Nat.strongRecOn generalizing t with
  | ind n ih =>
    by_cases ht : IsStart [] t
    · exact bare t ht
    · simp only [isStart_nil_iff, not_forall, Bool.not_eq_false, isBare_eq_true_iff] at ht
      obtain ⟨b, rest, rfl, rfl | ⟨rfl, rfl | hhead⟩⟩ := ht
      · exact slashed rest (ih rest.length (by simp [← hn]) rest rfl)
      · exact dotted
      · obtain ⟨behind, rfl⟩ := List.head?_eq_some_iff.mp hhead
        have hshorter : behind.length < n := by
          rw [← hn, List.length_cons, List.length_cons]
          omega
        exact parted behind (ih behind.length hshorter behind rfl)

/-- A rest without slashes and dots at its front has the same components. -/
theorem inner_trimFront (t : Bytes) : inner (trimFront t) = inner t := by
  induction t using trim_induction with
  | slashed rest ih => rw [trimFront_slash_cons, ih, inner_slash_cons]
  | dotted => rw [trimFront_dot, inner_dot, inner_nil]
  | parted rest ih =>
    have hsplit := inner_append_slash [dot] rest
    rw [trimFront_dot_slash_cons, ih, ← List.singleton_append, hsplit, inner_dot, List.nil_append]
  | bare t ht => rw [trimFront_of_isStart ht]

/-- A rest without slashes and dots at its front has no start. -/
theorem isStart_trimFront (t : Bytes) : IsStart [] (trimFront t) := by
  induction t using trim_induction with
  | slashed rest ih => rwa [trimFront_slash_cons]
  | dotted => exact isStart_nil_iff.mpr (by simp)
  | parted rest ih => rwa [trimFront_dot_slash_cons]
  | bare t ht => rwa [trimFront_of_isStart ht]

/-- Nothing is left at the front of what makes no component and ends at a slash. -/
theorem trimFront_append_slash {t : Bytes} (ht : inner t = []) (behind : Bytes) :
    trimFront (t ++ slash :: behind) = trimFront behind := by
  have hpart {part : Bytes} (hslash : slash ∉ part) (hpart : inner part = []) (behind : Bytes) :
      trimFront (part ++ slash :: behind) = trimFront behind := by
    rw [inner_of_notMem hslash, Option.toList_eq_nil_iff, innerComponent?_eq_none_iff] at hpart
    rcases hpart with rfl | rfl
    · rw [List.nil_append, trimFront_slash_cons]
    · rw [List.singleton_append, trimFront_dot_slash_cons]
  induction t using slash_induction with
  | part t hslash => exact hpart hslash ht behind
  | divided t front hslash ih =>
    rw [inner_append_slash, List.append_eq_nil_iff] at ht
    rw [List.append_assoc, List.cons_append, hpart hslash ht.1, ih ht.2]

/-- Read backwards, a path without slashes and dots at its front is cut at its end. -/
theorem isCut_reverse_trimFront (t : Bytes) : IsCut (trimFront t).reverse t.reverse := by
  induction t using trim_induction with
  | slashed rest ih =>
    rw [trimFront_slash_cons, List.reverse_cons]
    exact ih.trans (isCut_append _ rfl)
  | dotted => exact ⟨[dot], by simp, .inl (by simp)⟩
  | parted rest ih =>
    rw [trimFront_dot_slash_cons, List.reverse_cons, List.reverse_cons, List.append_assoc]
    exact ih.trans (isCut_append _ rfl)
  | bare t ht =>
    rw [trimFront_of_isStart ht]
    exact ⟨[], List.append_nil _, .inr (.inl rfl)⟩

/-- Without slashes and dots at its end, a path is cut. -/
theorem isCut_trimBack (t : Bytes) : IsCut (trimBack t) t := by
  simpa only [trimBack, List.reverse_reverse] using isCut_reverse_trimFront t.reverse

/-- Read backwards, a path without slashes and dots at its front has the same components. -/
theorem inner_reverse_trimFront (t : Bytes) : inner (trimFront t).reverse = inner t.reverse := by
  induction t using trim_induction with
  | slashed rest ih =>
    rw [trimFront_slash_cons, ih, List.reverse_cons, inner_append_slash, inner_nil,
      List.append_nil]
  | dotted => rw [trimFront_dot, List.reverse_nil, inner_nil, List.reverse_singleton, inner_dot]
  | parted rest ih =>
    rw [trimFront_dot_slash_cons, ih, List.reverse_cons, List.reverse_cons, List.append_assoc,
      List.singleton_append, inner_append_slash, inner_dot, List.append_nil]
  | bare t ht => rw [trimFront_of_isStart ht]

/-- A path without slashes and dots at its end has the same components. -/
theorem inner_trimBack (t : Bytes) : inner (trimBack t) = inner t := by
  simpa only [trimBack, List.reverse_reverse] using inner_reverse_trimFront t.reverse

end Marginalia.Path
