import Marginalia.Text.Basic

/-!
# Slices of a text

Offsets count bytes and texts are lists of characters, so a text is cut at an offset by walking over
its characters. At a boundary of characters the parts are a front of the text and what follows it,
and a slice between two boundaries is what stands between them.
-/

namespace Marginalia.Text

/-- The characters that start before an offset. -/
def takeBytes : Nat → Text → Text
  | _, [] => []
  | offset, c :: rest => if offset = 0 then [] else c :: takeBytes (offset - c.utf8Size) rest

/-- The characters that start at an offset or behind it. -/
def dropBytes : Nat → Text → Text
  | _, [] => []
  | offset, c :: rest => if offset = 0 then c :: rest else dropBytes (offset - c.utf8Size) rest

/-- The text between two offsets. -/
def slice (t : Text) (start stop : Nat) : Text :=
  takeBytes (stop - start) (dropBytes start t)

/-- Whether a character starts at an offset or the text ends there. -/
def IsBoundary (t : Text) (offset : Nat) : Prop :=
  ∃ front rest, t = front ++ rest ∧ byteLength front = offset

/-- Nothing starts before the first byte. -/
@[simp] theorem takeBytes_zero (t : Text) : takeBytes 0 t = [] := by
  cases t <;> simp [takeBytes]

/-- All of a text starts at its first byte or behind it. -/
@[simp] theorem dropBytes_zero (t : Text) : dropBytes 0 t = t := by
  cases t <;> simp [dropBytes]

/-- A first character with its bytes reaches its own size further. -/
theorem takeBytes_cons_add (c : Char) (t : Text) (offset : Nat) :
    takeBytes (c.utf8Size + offset) (c :: t) = c :: takeBytes offset t := by
  have hpos := c.utf8Size_pos
  rw [takeBytes, if_neg (by omega), Nat.add_sub_cancel_left]

/-- Behind a first character the text goes on. -/
theorem dropBytes_cons_add (c : Char) (t : Text) (offset : Nat) :
    dropBytes (c.utf8Size + offset) (c :: t) = dropBytes offset t := by
  have hpos := c.utf8Size_pos
  rw [dropBytes, if_neg (by omega), Nat.add_sub_cancel_left]

/-- A front belongs to what starts before an offset behind it. -/
theorem takeBytes_append_add (front rest : Text) (offset : Nat) :
    takeBytes (byteLength front + offset) (front ++ rest) = front ++ takeBytes offset rest := by
  induction front with
  | nil => simp
  | cons c front ih =>
    rw [byteLength_cons, Nat.add_assoc, List.cons_append, takeBytes_cons_add, ih,
      List.cons_append]

/-- Offsets behind a front are counted from its end. -/
theorem dropBytes_append_add (front rest : Text) (offset : Nat) :
    dropBytes (byteLength front + offset) (front ++ rest) = dropBytes offset rest := by
  induction front with
  | nil => simp
  | cons c front ih =>
    rw [byteLength_cons, Nat.add_assoc, List.cons_append, dropBytes_cons_add, ih]

/-- Before the end of a front stands that front. -/
theorem takeBytes_append (front rest : Text) :
    takeBytes (byteLength front) (front ++ rest) = front := by
  simpa using takeBytes_append_add front rest 0

/-- Behind the end of a front stands the rest. -/
theorem dropBytes_append (front rest : Text) :
    dropBytes (byteLength front) (front ++ rest) = rest := by
  simpa using dropBytes_append_add front rest 0

/-- Between the end of a front and the start of the rest stands what is between them. -/
theorem slice_append (front middle rest : Text) :
    slice (front ++ (middle ++ rest)) (byteLength front) (byteLength (front ++ middle)) =
      middle := by
  rw [slice, dropBytes_append, byteLength_append, Nat.add_sub_cancel_left, takeBytes_append]

/-- Between the end of a front and the end of the text stands the rest. -/
theorem slice_append_end (front rest : Text) :
    slice (front ++ rest) (byteLength front) (byteLength (front ++ rest)) = rest := by
  simpa using slice_append front rest []

/-- Fronts of a text with the same number of bytes are the same. -/
theorem append_inj_of_byteLength {front rest front' rest' : Text}
    (h : front ++ rest = front' ++ rest') (hlength : byteLength front = byteLength front') :
    front = front' ∧ rest = rest' := by
  have hfront := takeBytes_append front rest
  have hrest := dropBytes_append front rest
  rw [h, hlength, takeBytes_append] at hfront
  rw [h, hlength, dropBytes_append] at hrest
  exact ⟨hfront.symm, hrest.symm⟩

/-- Of two fronts of a text the one with fewer bytes is the start of the other. -/
theorem prefix_of_byteLength_le {front rest front' rest' : Text}
    (h : front ++ rest = front' ++ rest') (hle : byteLength front ≤ byteLength front') :
    front <+: front' := by
  rcases List.append_eq_append_iff.mp h with ⟨more, rfl, -⟩ | ⟨more, rfl, hrest⟩
  · exact List.prefix_append _ _
  · have hmore : byteLength more = 0 := by
      rw [byteLength_append] at hle
      omega
    have hsame : front' = front' ++ more :=
      (append_inj_of_byteLength (h.symm) (by rw [byteLength_append, hmore, Nat.add_zero])).1
    exact ⟨[], by rw [List.append_nil, ← hsame]⟩

/-- A start of a text has no more bytes than the text. -/
theorem byteLength_le_of_prefix {front t : Text} (h : front <+: t) :
    byteLength front ≤ byteLength t := by
  obtain ⟨rest, rfl⟩ := h
  rw [byteLength_append]
  exact Nat.le_add_right _ _

/-- A front ends at a boundary. -/
theorem isBoundary_append (front rest : Text) : IsBoundary (front ++ rest) (byteLength front) :=
  ⟨front, rest, rfl, rfl⟩

end Marginalia.Text
