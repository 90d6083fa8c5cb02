import Marginalia.Text.Blank
import Marginalia.Text.Word

/-!
# Field masks

A mask is a list of bits; the first bit that is set selects the field at its position. A line
template holds masks in braces, written as numbers with commas between them, of which only the
number written as a single `1` is a set bit. Everything else in a line template is copied, and so
is the value that replaces a mask.
-/

namespace Marginalia.Template

open Text

/-- The field at the position of the first set bit, or nothing. -/
def selectField (fields : List Text) (mask : List Bool) : Text :=
  ((mask.findIdx? id).bind fun position => fields[position]?).getD []

/-- The numbers of a mask up to its closing brace, for a text behind blanks, and what follows. -/
def takeNumbers (t : Text) : Option (List Text × Text) :=
  match _h : t with
  | [] => none
  | c :: rest =>
    if isDecimal c then
      match _hb : trimStart (rest.dropWhile isDecimal) with
      | ',' :: more =>
        (takeNumbers (trimStart more)).map fun (numbers, behind) =>
          ((c :: rest.takeWhile isDecimal) :: numbers, behind)
      | '\x7d' :: behind => some ([c :: rest.takeWhile isDecimal], behind)
      | _ => none
    else none
termination_by t.length
decreasing_by
  have hmore := length_trimStart_le more
  have hdigits := (List.dropWhile_sublist (l := rest) isDecimal).length_le
  have hblank := length_trimStart_le (rest.dropWhile isDecimal)
  rw [_hb] at hblank
  simp only [List.length_cons] at hblank ⊢
  omega

/-- The mask whose inside a text starts with, and what follows its closing brace. -/
def takeMask (t : Text) : Option (List Bool × Text) :=
  (takeNumbers (trimStart t)).map fun (numbers, behind) =>
    (numbers.map fun digits => digits == ['1'], behind)

/-- What follows the numbers of a mask is shorter than the text. -/
theorem length_lt_of_takeNumbers {t behind : Text} {numbers : List Text}
    (h : takeNumbers t = some (numbers, behind)) : behind.length < t.length := by
  fun_induction takeNumbers t generalizing numbers with
  | case1 => simp at h
  | case2 c rest _ more hb ih =>
    obtain ⟨⟨ns, u⟩, hn, he⟩ := Option.map_eq_some_iff.1 h
    obtain ⟨-, rfl⟩ : _ ∧ u = behind := by simpa using he
    have hlt := ih hn
    have hmore := length_trimStart_le more
    have hdigits := (List.dropWhile_sublist (l := rest) isDecimal).length_le
    have hblank := length_trimStart_le (rest.dropWhile isDecimal)
    rw [hb] at hblank
    simp only [List.length_cons] at hblank ⊢
    omega
  | case3 c rest _ u hb =>
    obtain ⟨-, rfl⟩ : _ ∧ u = behind := by simpa using h
    have hdigits := (List.dropWhile_sublist (l := rest) isDecimal).length_le
    have hblank := length_trimStart_le (rest.dropWhile isDecimal)
    rw [hb] at hblank
    simp only [List.length_cons] at hblank ⊢
    omega
  | case4 => simp at h
  | case5 => simp at h

/-- What follows a mask is shorter than the text behind its opening brace. -/
theorem length_lt_of_takeMask {t behind : Text} {mask : List Bool}
    (h : takeMask t = some (mask, behind)) : behind.length < t.length := by
  obtain ⟨⟨ns, u⟩, hn, he⟩ := Option.map_eq_some_iff.1 h
  obtain ⟨-, rfl⟩ : _ ∧ u = behind := by simpa using he
  exact Nat.lt_of_lt_of_le (length_lt_of_takeNumbers hn) (length_trimStart_le t)

/-- A line template with each mask replaced by the field it selects. -/
def fillMasks (fields : List Text) (t : Text) : Text :=
  match t with
  | [] => []
  | c :: rest =>
    if c = '\x7b' then
      match _h : takeMask rest with
      | some (mask, behind) => selectField fields mask ++ fillMasks fields behind
      | none => c :: fillMasks fields rest
    else c :: fillMasks fields rest
termination_by t.length
decreasing_by
  · have := length_lt_of_takeMask _h
    simp only [List.length_cons]
    omega
  · simp
  · simp

end Marginalia.Template
