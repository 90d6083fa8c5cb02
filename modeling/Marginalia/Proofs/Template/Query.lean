import Marginalia.Proofs.Template.Tree
import Marginalia.Proofs.Text.Number

/-!
# Asking for a field

A template may consist of one call that asks a note for one field of one occurrence of a tag, or for
the number of occurrences. The field is chosen by a mask with one bit set, written behind as many
other bits as there are fields before it.
-/

namespace Marginalia.Template

open Text

variable {d : Document}

/-- No literal text. -/
def Literal.empty : Literal where
  text := []
  newline_notMem := List.not_mem_nil
  no_opening := by decide

/-- A line that is one call. -/
def Line.ofCall (c : LineCall) : Line :=
  ⟨.empty, [(c, .empty)]⟩

/-- The value of a line that is one call is that of the call. -/
theorem Line.value_ofCall (c : LineCall) : (Line.ofCall c).value d = c.value d := by
  change (do
    let behind ← (do
      let behind ← Except.ok []
      return (← c.value d) ++ ([] ++ behind))
    return [] ++ behind) = c.value d
  cases c.value d with
  | error e => rfl
  | ok v => simp [bind, Except.bind, pure, Except.pure]

/-- A template that is one call renders to the value of the call. -/
theorem render_source_eq_ok_iff (c : LineCall) {out : Text} :
    render d c.written.source = .ok out ↔ c.value d = .ok out := by
  have htext : c.written.source = (Tree.line (Line.ofCall c) .nil).text := by
    simp [Tree.text, Tree.rows, Row.text, Line.text, Line.ofCall, tailText, Literal.empty]
  have hguards : ∀ g ∈ (Tree.line (Line.ofCall c) .nil).guards, ∃ truth, g.truth d = .ok truth :=
    fun g hg => absurd hg List.not_mem_nil
  rw [htext, render, bind_eq_ok_iff]
  constructor
  · intro h
    obtain ⟨u, hu, hout⟩ := h
    obtain ⟨-, rfl⟩ := (resolveSections_text_eq_ok_iff _).mp hu
    obtain ⟨values, hvalues, rfl⟩ := splice_pieces_unlines_eq_ok_iff.mp hout
    cases hvalues with
    | cons hv hnil =>
      cases hnil
      rwa [unlines_singleton, ← Line.value_ofCall]
  · intro hv
    have hline : (Line.ofCall c).value d = .ok out := by
      rw [Line.value_ofCall, hv]
    exact ⟨_, (resolveSections_text_eq_ok_iff _).mpr ⟨hguards, rfl⟩,
      splice_pieces_unlines_eq_ok_iff.mpr ⟨[out], .cons hline .nil, (unlines_singleton out).symm⟩⟩

/-- The arguments that choose an occurrence and a field of a tag: the index of the occurrence, a
zero for each field before the chosen one, and a one. -/
def fieldArguments (tag : Text) (i j : Nat) : List Argument :=
  .quoted tag :: .bare (numberStretch i) ::
    (List.replicate j (.bare (numberStretch 0)) ++ [.bare (numberStretch 1)])

/-- The call for a field of an occurrence of a tag. -/
def getCall (key tag : Text.Stretch isNameChar) (i j : Nat) : LineCall where
  key := key
  method := ⟨"get".toList, by decide, List.all_eq_true.mp (by decide)⟩
  arguments := fieldArguments tag.text i j
  newline_notMem := by
    have hnumber (n : Nat) : '\n' ∉ (Argument.bare (numberStretch n)).value :=
      (numberStretch n).notMem (by decide)
    intro a ha
    simp only [fieldArguments, List.mem_cons, List.mem_append, List.mem_replicate,
      List.not_mem_nil, or_false] at ha
    rcases ha with rfl | rfl | ⟨-, rfl⟩ | rfl
    · exact tag.notMem (by decide)
    · exact hnumber i
    · exact hnumber 0
    · exact hnumber 1

/-- The call for the number of occurrences of a tag. -/
def countCall (key tag : Text.Stretch isNameChar) : LineCall where
  key := key
  method := ⟨"count".toList, by decide, List.all_eq_true.mp (by decide)⟩
  arguments := [.quoted tag.text]
  newline_notMem := by
    intro a ha
    rw [List.mem_singleton.mp ha]
    exact tag.notMem (by decide)

/-- A call for a field as it is written. -/
example : (getCall ⟨['a'], by decide, List.forall_mem_singleton.mpr (by decide)⟩
      ⟨['t'], by decide, List.forall_mem_singleton.mpr (by decide)⟩ 7 2).written.source =
    "\x7b\x7b @doc.a:get('t', 7, 0, 0, 1) \x7d\x7d".toList := by
  decide

/-- Zeros and a one are read as bits. -/
theorem bits_replicate (m : Method) (position j : Nat) :
    bits m position (List.replicate j ['0'] ++ [['1']]) =
      .ok (List.replicate j false ++ [true]) := by
  induction j generalizing position with
  | zero => rfl
  | succ j ih =>
    rw [List.replicate_succ, List.cons_append, bits, ih]
    rfl

/-- A mask whose last bit alone is set chooses the field at its position. -/
theorem selectField_replicate (fields : List Text) (j : Nat) :
    selectField fields (List.replicate j false ++ [true]) = (fields[j]?).getD [] := by
  have hfind : (List.replicate j false ++ [true]).findIdx? id = some j := by
    induction j with
    | zero => rfl
    | succ j ih =>
      rw [List.replicate_succ, List.cons_append, List.findIdx?_cons, ih]
      rfl
  rw [selectField, hfind]
  rfl

/-- A written index is read back if it fits into a word. -/
theorem indexOf?_ofNat {n : Nat} (hn : n < wordLimit) : indexOf? (ofNat n) = some n := by
  have hplus : ∀ rest, ofNat n ≠ '+' :: rest := by
    intro rest h
    have hdigit : ('+' : Char).isDigit = true := isDigit_of_mem_ofNat (h ▸ List.mem_cons_self)
    cases hdigit
  rw [indexOf?, natural?_ofNat, Option.filter_some, if_pos (by simpa using hn)]
  exact hplus

/-- An occurrence that there is. -/
theorem occurrence_eq_ok {note : Note} {tag : Text} {found : List (List Text)}
    (hfound : note.occurrences? tag = some found) (key : Text) {i : Nat} (hi : i < found.length) :
    occurrence note key tag i = .ok found[i] := by
  have hget : found[i]? = some found[i] := List.getElem?_eq_getElem hi
  rw [occurrence, occurrences, hfound]
  simp only [bind, Except.bind, hget]

/-- The value of the method that gives a field, where the index and the bits of the mask are read.
-/
theorem run_get_of_bits {index : Text} {i : Nat} (hindex : indexOf? (trim index) = some i)
    {mask : List Text} {bs : List Bool} (hmask : bits .get 2 mask = .ok bs) (key : Text) (note : Note)
    (tag : Text) :
    Method.run .get key note (tag :: index :: mask) =
      (occurrence note key tag i).map fun fields =>
        if bs.isEmpty then fields.head?.getD [] else selectField fields bs := by
  have htag : argumentAt .get (tag :: index :: mask) 0 = .ok tag := rfl
  have hposition : indexAt .get (tag :: index :: mask) 1 = .ok i := by
    rw [indexAt]
    simp only [List.getElem?_cons_succ, List.getElem?_cons_zero, hindex]
  have hbits : bits .get 2 ((tag :: index :: mask).drop 2) = .ok bs := hmask
  rw [Method.run, htag, hposition, hbits]
  change (do
    let fields ← occurrence note key tag i
    if bs.isEmpty then return fields.head?.getD [] else return selectField fields bs) = _
  cases occurrence note key tag i with
  | error failure => rfl
  | ok fields => cases bs <;> rfl

/-- The value of the method that gives a field, for the arguments that choose it. -/
theorem run_get {note : Note} {tag : Text} {found : List (List Text)}
    (hfound : note.occurrences? tag = some found) (key : Text) {i : Nat} (hi : i < found.length)
    (hword : i < wordLimit) (j : Nat) :
    Method.run .get key note (tag :: ofNat i :: (List.replicate j ['0'] ++ [['1']])) =
      .ok ((found[i][j]?).getD []) := by
  have hindex : indexOf? (trim (ofNat i)) = some i := by rw [trim_ofNat, indexOf?_ofNat hword]
  have hne : (List.replicate j false ++ [true]).isEmpty = false := by simp
  rw [run_get_of_bits hindex (bits_replicate .get 2 j), occurrence_eq_ok hfound key hi, hne,
    ← selectField_replicate]
  rfl

/-- The call for a field of an occurrence that there is has that field as its value. -/
theorem value_getCall {key tag : Text.Stretch isNameChar} {note : Note} {found : List (List Text)}
    (hnote : d.note? key.text = some note) (hfound : note.occurrences? tag.text = some found)
    {i : Nat} (hi : i < found.length) (hword : i < wordLimit) (j : Nat) :
    (getCall key tag i j).value d = .ok ((found[i][j]?).getD []) := by
  have harguments : (getCall key tag i j).arguments.map Argument.value =
      tag.text :: ofNat i :: (List.replicate j ['0'] ++ [['1']]) := by
    simp only [getCall, fieldArguments, List.map_cons, List.map_append, List.map_replicate,
      List.map_nil]
    rfl
  have hkey : (getCall key tag i j).key.text = key.text := rfl
  have hmethod : Method.parse (getCall key tag i j).method.text = .ok .get := rfl
  rw [WrittenCall.value, hmethod, hkey, hnote, harguments, ← run_get hfound key.text hi hword j]
  rfl

/-- The call for the number of occurrences of a tag has that number as its value. -/
theorem value_countCall {key tag : Text.Stretch isNameChar} {note : Note}
    (hnote : d.note? key.text = some note) :
    (countCall key tag).value d =
      .ok (ofNat ((note.occurrences? tag.text).getD []).length) := by
  have hkey : (countCall key tag).key.text = key.text := rfl
  have hmethod : Method.parse (countCall key tag).method.text = .ok .count := rfl
  rw [WrittenCall.value, hmethod, hkey, hnote]
  rfl

end Marginalia.Template
