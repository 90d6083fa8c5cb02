import Marginalia.FileTree.Basic
import Marginalia.Proofs.Path.Generated

/-!
# Resolved paths

Where nothing on the way is a link, a path leads where its dots say: one dot stays, two dots lead to
the directory above, and the top is above itself. A path behind others first climbs some directories
and then goes down by names, so two paths with the same rest lead to the same place exactly when
they meet where the rest has climbed.
-/

namespace Marginalia

/-- The place to which a component leads from a place. -/
def Component.lead (here : Place) : Component → Place
  | .root => []
  | .current => here
  | .parent => here.dropLast
  | .name n => here ++ [n]

/-- A way from a place, as the number of directories that it climbs and the names behind, with one
component more. -/
def Component.turn (way : Nat × Place) : Component → Nat × Place
  | .parent => if way.2 = [] then (way.1 + 1, []) else (way.1, way.2.dropLast)
  | .name n => (way.1, way.2 ++ [n])
  | _ => way

/-- The directory that is some steps above a place. The top is above itself. -/
def above (place : Place) (n : Nat) : Place :=
  place.take (place.length - n)

@[simp] theorem above_zero (place : Place) : above place 0 = place := by
  rw [above, Nat.sub_zero, List.take_length]

/-- One step further up. -/
theorem dropLast_above (place : Place) (n : Nat) :
    (above place n).dropLast = above place (n + 1) := by
  rw [above, above, List.dropLast_eq_take, List.take_take, List.length_take]
  congr 1
  omega

namespace Path

variable {p q : Path}

/-- The place to which a path leads over its dots and names, read from the top. -/
def resolved (p : Path) : Place :=
  p.components.foldl Component.lead []

/-- The number of directories that a path climbs before it goes down by its names. -/
def climb (p : Path) : Nat :=
  (p.components.foldl Component.turn (0, [])).1

/-- Components behind the start lead down by names from where they climb. -/
theorem foldl_lead {components : List Component} (h : .root ∉ components) (place : Place)
    (way : Nat × Place) :
    components.foldl Component.lead (above place way.1 ++ way.2) =
      above place (components.foldl Component.turn way).1 ++
        (components.foldl Component.turn way).2 := by
  induction components generalizing way with
  | nil => rfl
  | cons c components ih =>
    obtain ⟨hc, h⟩ := not_or.mp (mt List.mem_cons.mpr h)
    rw [List.foldl_cons, List.foldl_cons, ← ih h]
    congr 1
    cases c with
    | root => exact absurd rfl hc
    | current => rfl
    | parent =>
      by_cases hnil : way.2 = []
      · rw [Component.lead, Component.turn, if_pos hnil, hnil, List.append_nil, List.append_nil,
          dropLast_above]
      · rw [Component.lead, Component.turn, if_neg hnil, List.dropLast_append_of_ne_nil hnil]
    | name name => exact List.append_assoc ..

/-- Paths with the same rest lead to one place exactly when they meet where the rest has climbed. -/
theorem resolved_join_eq_iff {base base' : Path} (hq : q.IsRest) :
    (base.join q).resolved = (base'.join q).resolved ↔
      above base.resolved q.climb = above base'.resolved q.climb := by
  have hroot : .root ∉ q.components := by
    rw [hq.components_eq]
    intro h
    rcases eq_parent_or_name_of_mem_inner h with h | ⟨name, h, -⟩ <;> cases h
  have hlead (base : Path) : (base.join q).resolved = above base.resolved q.climb ++
      (q.components.foldl Component.turn (0, [])).2 := by
    have h := foldl_lead hroot base.resolved (0, [])
    rw [above_zero, List.append_nil] at h
    rw [resolved, components_join hq, List.foldl_append]
    exact h
  rw [hlead, hlead, List.append_left_inj]

/-- The rendered form beside a file never stands where the file does. -/
theorem resolved_generated_ne {name : Bytes} (h : p.fileName? = some name) :
    p.generated.resolved ≠ p.resolved := by
  obtain ⟨hcomponents, hgenerated⟩ := generatedComponents_of_some h
  rw [resolved, resolved, components_generated, hgenerated, hcomponents, List.foldl_append,
    List.dropLast_concat, List.foldl_append]
  intro heq
  exact generatedName_ne name (List.singleton_inj.mp (List.append_cancel_left heq))

end Path

end Marginalia
