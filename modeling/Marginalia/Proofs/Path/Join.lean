import Marginalia.Proofs.Path.Components

/-!
# Joined and cut paths

The components of a path that is written behind another one stand behind the components of that one,
and a path can be cut behind every path with whose components it starts. What is left then has the
other components, and it is the path that was written behind, if that has no slashes and dots at its
ends.
-/

namespace Marginalia.Path

open Bytes

variable {p q base : Path}

/-! ## Paths behind others -/

/-- Whether a path has no start, so that it can be written behind another one. -/
def IsRest (p : Path) : Prop :=
  IsStart [] p.bytes

/-- The components of a path without a start are those between its slashes. -/
theorem IsRest.components_eq (h : q.IsRest) : q.components = inner q.bytes :=
  components_of_isStart h

/-- A path without a start is read from where another one leads. -/
theorem IsRest.isAbsolute_eq_false (h : q.IsRest) : q.isAbsolute = false := by
  rcases h with h | ⟨h, -⟩ | ⟨-, hslash, -⟩
  · cases h
  · cases h
  · exact beq_eq_false_iff_ne.mpr hslash

/-- A path that is not blank has components. -/
theorem components_ne_nil (h : p.bytes ≠ []) : p.components ≠ [] := by
  obtain ⟨start, rest, hstart, rfl⟩ := p.exists_isStart
  rw [components_of_isStart hstart]
  rcases hstart with rfl | ⟨rfl, -⟩ | ⟨rfl, hslash, hdot, hfront⟩
  · exact List.cons_ne_nil _ _
  · exact List.cons_ne_nil _ _
  · intro hnil
    change inner rest = [] at hnil
    induction rest using slash_induction with
    | part t ht =>
      rw [inner_of_notMem ht, Option.toList_eq_nil_iff, innerComponent?_eq_none_iff] at hnil
      exact hnil.elim h hdot
    | divided t behind ht =>
      rw [inner_append_slash, List.append_eq_nil_iff, inner_of_notMem ht,
        Option.toList_eq_nil_iff, innerComponent?_eq_none_iff] at hnil
      rcases hnil.1 with rfl | rfl
      · exact hslash rfl
      · exact hfront ⟨behind, rfl⟩

/-- A path with another one behind it is written with a slash between, unless it is the top. -/
theorem exists_bytes_join (hp : p.bytes ≠ []) (hq : q.isAbsolute = false) :
    ∃ start front, IsStart start front ∧
      p.components = (startComponent? start).toList ++ inner front ∧
      ((p.join q).bytes = start ++ (front ++ slash :: q.bytes) ∧ start ++ front ≠ [] ∨
        start = [slash] ∧ front = [] ∧ (p.join q).bytes = start ++ q.bytes) := by
  obtain ⟨start, front, hstart, rfl⟩ := p.exists_isStart
  rw [join, if_neg (by simp [hq, hp]), components_of_isStart hstart]
  split
  · rename_i hslash
    rcases List.eq_nil_or_concat front with rfl | ⟨front, c, rfl⟩
    · rcases hstart with rfl | ⟨rfl, -⟩ | ⟨rfl, -⟩
      · exact ⟨[slash], [], .inl rfl, rfl, .inr ⟨rfl, rfl, rfl⟩⟩
      · exact absurd hslash (by decide)
      · exact absurd rfl hp
    · rw [List.concat_eq_append] at hstart hslash ⊢
      rw [← List.append_assoc, List.getLast?_concat] at hslash
      obtain rfl := Option.some.inj hslash
      refine ⟨start, front, hstart.of_isCut (isCut_append front rfl), ?_, .inl ⟨?_, ?_⟩⟩
      · rw [inner_append_slash, inner_nil, List.append_nil]
      · simp only [List.append_assoc, List.singleton_append]
      · intro hnil
        obtain ⟨rfl, rfl⟩ := List.append_eq_nil_iff.mp hnil
        rcases hstart with h | ⟨h, -⟩ | ⟨-, h, -⟩
        · cases h
        · cases h
        · exact h rfl
  · exact ⟨start, front, hstart, rfl, .inl ⟨List.append_assoc .., hp⟩⟩

/-- Behind a path stand the components between the slashes of a relative one. -/
theorem components_join_of_relative (hp : p.bytes ≠ []) (hq : q.isAbsolute = false) :
    (p.join q).components = p.components ++ inner q.bytes := by
  obtain ⟨start, front, hstart, hcomponents, ⟨hbytes, hne⟩ | ⟨rfl, rfl, hbytes⟩⟩ :=
    exists_bytes_join hp hq
  · have hjoin : p.join q = ⟨start ++ (front ++ slash :: q.bytes)⟩ := congrArg Path.mk hbytes
    rw [hjoin, components_of_isStart (hstart.append_slash hne q.bytes), hcomponents,
      inner_append_slash, List.append_assoc]
  · have hjoin : p.join q = ⟨[slash] ++ q.bytes⟩ := congrArg Path.mk hbytes
    rw [hjoin, components_of_isStart (.inl rfl), hcomponents, inner_nil, List.append_nil]

/-- A blank path has no components. -/
theorem components_of_bytes_eq_nil (hp : p.bytes = []) : p.components = [] := by
  have hrest : p.IsRest := by
    rw [IsRest, hp]
    exact isStart_nil_iff.mpr (by simp)
  rw [hrest.components_eq, hp, inner_nil]

/-- The components of a path without a start follow those of the path before it. -/
theorem components_join (hq : q.IsRest) : (p.join q).components = p.components ++ q.components := by
  by_cases hp : p.bytes = []
  · rw [join, if_pos (.inr hp), components_of_bytes_eq_nil hp, List.nil_append]
  · rw [components_join_of_relative hp hq.isAbsolute_eq_false, hq.components_eq]

/-! ## Paths cut from others -/

/-- Behind a step of a path stand the components that follow its own. -/
theorem inner_of_getElem?_steps {i : Nat} {step : Component × Bytes} (h : p.steps[i]? = some step) :
    inner step.2 = p.components.drop (i + 1) := by
  obtain ⟨start, rest, hstart, rfl⟩ := p.exists_isStart
  rw [steps_of_isStart hstart] at h
  rw [components_of_isStart hstart]
  cases hcomponent : startComponent? start with
  | none =>
    rw [hcomponent] at h
    exact inner_of_getElem?_innerSteps h
  | some c =>
    rw [hcomponent] at h
    cases i with
    | zero =>
      obtain rfl := Option.some.inj h
      rfl
    | succ i => exact inner_of_getElem?_innerSteps h

/-- What is left of a path without slashes and dots at its ends. -/
def restOf (t : Bytes) : Path :=
  ⟨trimBack (trimFront t)⟩

/-- What is left has no start, and the components between the slashes. -/
theorem isRest_restOf (t : Bytes) : (restOf t).IsRest ∧ (restOf t).components = inner t := by
  have hrest : (restOf t).IsRest := (isStart_trimFront t).of_isCut (isCut_trimBack _)
  refine ⟨hrest, ?_⟩
  rw [hrest.components_eq, restOf, inner_trimBack, inner_trimFront]

/-- A dot at the start of a path makes no component between slashes. -/
theorem inner_of_isStart {start rest : Bytes} (h : IsStart start rest) (hroot : start ≠ [slash]) :
    inner (start ++ rest) = inner rest := by
  rcases h with rfl | ⟨rfl, rfl | hhead⟩ | ⟨rfl, -⟩
  · exact absurd rfl hroot
  · exact inner_dot
  · obtain ⟨behind, rfl⟩ := List.head?_eq_some_iff.mp hhead
    rw [inner_append_slash, inner_dot, List.nil_append, inner_slash_cons]
  · rfl

/-- Behind a blank path, a path is left as a whole. -/
theorem stripPrefix?_of_bytes_eq_nil (hbase : base.bytes = []) :
    p.stripPrefix? base = some p.trimmed := by
  simp [stripPrefix?, components_of_bytes_eq_nil hbase]

/-- Slashes and dots at the end of a path make no difference to where it leads from another one. -/
theorem components_join_trimmed (p q : Path) :
    (p.join q.trimmed).components = (p.join q).components := by
  obtain ⟨start, rest, hstart, rfl⟩ := q.exists_isStart
  have hinner := inner_trimBack rest
  have hstart' := hstart.of_isCut (isCut_trimBack rest)
  have htrimmed : trimmed ⟨start ++ rest⟩ = ⟨start ++ trimBack rest⟩ := by
    rw [trimmed, splitStart_of_isStart hstart]
  have hcomponents : (trimmed ⟨start ++ rest⟩).components = components ⟨start ++ rest⟩ := by
    rw [htrimmed, components_of_isStart hstart', components_of_isStart hstart, hinner]
  by_cases hroot : start = [slash]
  · subst hroot
    rw [join, if_pos (.inl (by rw [htrimmed]; rfl)), join, if_pos (.inl rfl), hcomponents]
  by_cases hp : p.bytes = []
  · rw [join, if_pos (.inr hp), join, if_pos (.inr hp), hcomponents]
  have hrelative {behind : Bytes} (h : IsStart start behind) :
      (Path.mk (start ++ behind)).isAbsolute = false := by
    rcases h with h | ⟨rfl, -⟩ | ⟨rfl, hslash, -⟩
    · exact absurd h hroot
    · rfl
    · exact beq_eq_false_iff_ne.mpr hslash
  rw [htrimmed, components_join_of_relative hp (hrelative hstart'),
    components_join_of_relative hp (hrelative hstart), inner_of_isStart hstart' hroot,
    inner_of_isStart hstart hroot, hinner]

/-- A path can be cut behind another one that is not blank when its components start with those of
that one. -/
theorem stripPrefix?_eq_some_iff (hbase : base.bytes ≠ []) :
    p.stripPrefix? base = some q ↔ base.components <+: p.components ∧
      ∃ step, p.steps[base.components.length - 1]? = some step ∧ restOf step.2 = q := by
  obtain ⟨n, hn⟩ := Nat.exists_eq_succ_of_ne_zero
    (List.length_eq_zero_iff.not.mpr (components_ne_nil hbase))
  rw [stripPrefix?, hn, List.prefix_iff_eq_take, hn, eq_comm (a := base.components)]
  by_cases hpre : p.components.take (n + 1) = base.components
  · rw [if_pos hpre, Option.map_eq_some_iff, and_iff_right hpre]
    rfl
  · simp [hpre]

/-- Behind the path at which it is cut, a path has the components of what is left. -/
theorem components_of_stripPrefix? (hbase : base.bytes ≠ []) (h : p.stripPrefix? base = some q) :
    q.IsRest ∧ p.components = base.components ++ q.components := by
  obtain ⟨⟨behind, hbehind⟩, step, hstep, rfl⟩ := (stripPrefix?_eq_some_iff hbase).mp h
  obtain ⟨hrest, hcomponents⟩ := isRest_restOf step.2
  refine ⟨hrest, ?_⟩
  have hpos := List.length_pos_iff.mpr (components_ne_nil hbase)
  rw [hcomponents, inner_of_getElem?_steps hstep, Nat.sub_add_cancel hpos, ← hbehind,
    List.drop_left]

/-- A path can be cut behind the paths with whose components it starts. -/
theorem isSome_stripPrefix?_iff (hbase : base.bytes ≠ []) :
    (p.stripPrefix? base).isSome ↔ base.components <+: p.components := by
  rw [Option.isSome_iff_exists]
  simp only [stripPrefix?_eq_some_iff hbase]
  constructor
  · rintro ⟨q, hpre, -⟩
    exact hpre
  · intro hpre
    have hpos := List.length_pos_iff.mpr (components_ne_nil hbase)
    have hlength : p.components.length = p.steps.length := List.length_map ..
    have hlt : base.components.length - 1 < p.steps.length := by
      have := hpre.length_le
      omega
    exact ⟨_, hpre, _, List.getElem?_eq_getElem hlt, rfl⟩

/-- The last step of a path has nothing but slashes and dots before a path behind it. -/
theorem exists_step_join (hp : p.bytes ≠ []) (hq : q.isAbsolute = false) :
    ∃ step, (p.join q).steps[p.components.length - 1]? = some step ∧
      trimFront step.2 = trimFront q.bytes := by
  obtain ⟨start, front, hstart, hcomponents, ⟨hbytes, hne⟩ | ⟨rfl, rfl, hbytes⟩⟩ :=
    exists_bytes_join hp hq
  · have hjoin : p.join q = ⟨start ++ (front ++ slash :: q.bytes)⟩ := congrArg Path.mk hbytes
    have hsame : p.components = components ⟨start ++ front⟩ := by
      rw [hcomponents, components_of_isStart hstart]
    have hlength : p.components.length = (steps ⟨start ++ front⟩).length := by
      rw [hsame]
      exact List.length_map ..
    have hpos := List.length_pos_iff.mpr (components_ne_nil hp)
    have hlt : p.components.length - 1 < (steps ⟨start ++ front⟩).length := by omega
    have hlast := List.getElem?_eq_getElem hlt
    have hblank := inner_of_getElem?_steps hlast
    rw [← hsame, Nat.sub_add_cancel hpos, List.drop_length] at hblank
    rw [hjoin, steps_append_slash hstart hne, List.getElem?_append_left (by simpa using hlt),
      List.getElem?_map, hlast]
    exact ⟨_, rfl, trimFront_append_slash hblank q.bytes⟩
  · have hjoin : p.join q = ⟨[slash] ++ q.bytes⟩ := congrArg Path.mk hbytes
    rw [hjoin, hcomponents, inner_nil, steps_of_isStart (.inl rfl)]
    exact ⟨_, rfl, rfl⟩

/-- A path without slashes and dots at its ends is what is left behind the path before it. -/
theorem stripPrefix?_join (hbase : base.bytes ≠ []) (hq : q.IsRest)
    (hend : trimBack q.bytes = q.bytes) :
    (base.join q).stripPrefix? base = some q := by
  obtain ⟨step, hstep, hfront⟩ := exists_step_join hbase hq.isAbsolute_eq_false
  refine (stripPrefix?_eq_some_iff hbase).mpr ⟨?_, step, hstep, ?_⟩
  · rw [components_join hq]
    exact List.prefix_append _ _
  · rw [restOf, hfront, trimFront_of_isStart hq, hend]

end Marginalia.Path
