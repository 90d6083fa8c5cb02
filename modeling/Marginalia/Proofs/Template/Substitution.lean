import Marginalia.Proofs.Template.Removal
import Marginalia.Proofs.Template.WrittenLine

/-!
# Values in the place of expressions

A template without marks is rendered by putting the value of each expression into its span. Values
are put in from the last expression to the first, so that the spans of those before stay where they
are, and nothing is looked for in a value. What comes out is the text between the spans with the
values between, as if written from left to right.
-/

namespace Marginalia.Template

open Text

variable {d : Document} {t : Text}

/-- A text from an offset on, with texts in the place of spans. -/
def fillFrom (t : Text) : Nat → List (Placed × Text) → Text
  | offset, [] => slice t offset (byteLength t)
  | offset, (p, value) :: rest => slice t offset p.start ++ (value ++ fillFrom t p.stop rest)

/-- A text with another one in the place of what stands between two offsets. -/
def replaceBetween (t : Text) (start stop : Nat) (value : Text) : Text :=
  takeBytes start t ++ (value ++ dropBytes stop t)

/-- A text in which spans are replaced one after another, from the last to the first. -/
def replaceBackward (t : Text) (replacements : List (Placed × Text)) : Text :=
  replacements.foldr (fun r u => replaceBetween u r.1.start r.1.stop r.2) t

/-- The values of expressions, worked out from the last to the first. -/
def valuesOf (d : Document) (ps : List Placed) : Except Failure (List Text) :=
  mapBackward (fun p => p.expression.evaluate d) ps

/-- A slice that starts at a character starts with it, if it goes behind it. -/
theorem slice_append_cons (front rest : Text) (c : Char) {stop : Nat}
    (hstop : byteLength (front ++ [c]) ≤ stop) :
    slice (front ++ c :: rest) (byteLength front) stop =
      c :: slice (front ++ c :: rest) (byteLength (front ++ [c])) stop := by
  have hsize : byteLength (front ++ [c]) = byteLength front + c.utf8Size := by
    rw [byteLength_append]
    rfl
  have hdistance : stop - byteLength front =
      c.utf8Size + (stop - byteLength (front ++ [c])) := by omega
  have hbehind : dropBytes (byteLength (front ++ [c])) (front ++ c :: rest) = rest := by
    simpa using dropBytes_append (front ++ [c]) rest
  rw [slice, slice, dropBytes_append, hbehind, hdistance, takeBytes_cons_add]

/-- A character in front of the spans is left in front of them. -/
theorem fillFrom_append_cons (front rest : Text) (c : Char) (replacements : List (Placed × Text))
    (hlater : ∀ r ∈ replacements, byteLength (front ++ [c]) ≤ r.1.start) :
    fillFrom (front ++ c :: rest) (byteLength front) replacements =
      c :: fillFrom (front ++ c :: rest) (byteLength (front ++ [c])) replacements := by
  cases replacements with
  | nil =>
    have hend : byteLength (front ++ [c]) ≤ byteLength (front ++ c :: rest) := by
      simp only [byteLength_append, byteLength_cons, byteLength_nil]
      omega
    exact slice_append_cons front rest c hend
  | cons r replacements =>
    rw [fillFrom, fillFrom, slice_append_cons front rest c (hlater r List.mem_cons_self)]
    rfl

/-- Nothing stands between an offset and itself. -/
@[simp] theorem slice_self (t : Text) (offset : Nat) : slice t offset offset = [] := by
  rw [slice, Nat.sub_self, takeBytes_zero]

/-- A span at the offset is replaced at once. -/
theorem fillFrom_cons_of_start (offset stop : Nat) (e : Expression) (value : Text)
    (replacements : List (Placed × Text)) :
    fillFrom t offset ((⟨e, offset, stop⟩, value) :: replacements) =
      value ++ fillFrom t stop replacements := by
  rw [fillFrom, slice_self, List.nil_append]

/-- Expressions behind a character are placed behind it. -/
theorem placedFrom_char_cons (front : Text) (c : Char) (qs : List Piece) :
    placedFrom (byteLength front) (.char c :: qs) = placedFrom (byteLength (front ++ [c])) qs := by
  rw [byteLength_append]
  rfl

/-- A character is left in front of what the expressions behind it are replaced by. -/
theorem fillFrom_char_cons (front rest : Text) (c : Char) (qs : List Piece) (values : List Text) :
    fillFrom (front ++ c :: rest) (byteLength front)
        ((placedFrom (byteLength (front ++ [c])) qs).zip values) =
      c :: fillFrom (front ++ c :: rest) (byteLength (front ++ [c]))
        ((placedFrom (byteLength (front ++ [c])) qs).zip values) :=
  fillFrom_append_cons front rest c _ fun _ hr =>
    le_start_of_mem_placedFrom (List.of_mem_zip hr).1

/-- A character is left in front of what the pieces behind it are replaced by. -/
theorem splice_char_cons (c : Char) (qs : List Piece) :
    splice d (.char c :: qs) = (splice d qs).map (c :: ·) := by
  rw [splice_cons]
  cases splice d qs <;> rfl

/-- The values of expressions are worked out one after another, the first expression last. -/
theorem valuesOf_cons (p : Placed) (ps : List Placed) :
    valuesOf d (p :: ps) = do
      let later ← valuesOf d ps
      return (← p.expression.evaluate d) :: later := rfl

/-- Replacing calls in pieces is putting their values, worked out from the last to the first, into
their spans. -/
theorem splice_eq_map_valuesOf (front : Text) (qs : List Piece)
    (hmarks : ∀ p ∈ placedFrom (byteLength front) qs, p.expression.isMark = false) :
    splice d qs = (valuesOf d (placedFrom (byteLength front) qs)).map fun values =>
      fillFrom (front ++ qs.flatMap Piece.source) (byteLength front)
        ((placedFrom (byteLength front) qs).zip values) := by
  induction qs generalizing front with
  | nil =>
    have hend := slice_append_end front []
    exact congrArg Except.ok hend.symm
  | cons q qs ih =>
    have hnext := ih (front ++ q.source)
    rw [List.append_assoc, ← List.flatMap_cons] at hnext
    cases q with
    | char c =>
      rw [placedFrom_char_cons] at hmarks ⊢
      rw [Piece.source] at hnext
      rw [splice_char_cons, hnext hmarks]
      cases valuesOf d (placedFrom (byteLength (front ++ [c])) qs) with
      | error e => rfl
      | ok values => exact congrArg Except.ok (fillFrom_char_cons front _ c qs values).symm
    | expression source e =>
      rw [placedFrom, ← byteLength_append] at hmarks ⊢
      obtain ⟨hmark, hlater⟩ := List.forall_mem_cons.mp hmarks
      have hvalue : (Piece.expression source e).value d = e.evaluate d := by
        cases e with
        | value call => rfl
        | sectionStart guard => cases hmark
        | sectionEnd => cases hmark
      rw [Piece.source] at hnext
      rw [splice_cons, hnext hlater, hvalue, valuesOf_cons]
      cases valuesOf d (placedFrom (byteLength (front ++ source)) qs) with
      | error failure => rfl
      | ok values =>
        cases e.evaluate d with
        | error failure => rfl
        | ok value => exact congrArg Except.ok (fillFrom_cons_of_start _ _ _ _ _).symm

/-- A span between a front and the rest is replaced there. -/
theorem replaceBetween_append (front source value rest : Text) :
    replaceBetween (front ++ (source ++ rest)) (byteLength front) (byteLength (front ++ source))
      value = front ++ (value ++ rest) := by
  have hbehind := dropBytes_append (front ++ source) rest
  rw [List.append_assoc] at hbehind
  rw [replaceBetween, takeBytes_append, hbehind]

/-- Replacing spans one after another, from the last to the first, puts a text into each of them. -/
theorem replaceBackward_eq_append_fillFrom (front : Text) (qs : List Piece) (values : List Text)
    (hlength : (placedFrom (byteLength front) qs).length = values.length) :
    replaceBackward (front ++ qs.flatMap Piece.source)
        ((placedFrom (byteLength front) qs).zip values) =
      front ++ fillFrom (front ++ qs.flatMap Piece.source) (byteLength front)
        ((placedFrom (byteLength front) qs).zip values) := by
  induction qs generalizing front values with
  | nil =>
    have hend := slice_append_end front []
    exact congrArg (front ++ ·) hend.symm
  | cons q qs ih =>
    have hnext := ih (front ++ q.source)
    rw [List.append_assoc, ← List.flatMap_cons] at hnext
    cases q with
    | char c =>
      rw [placedFrom_char_cons] at hlength ⊢
      rw [Piece.source] at hnext
      rw [hnext values hlength, List.append_assoc, List.singleton_append]
      exact congrArg (front ++ ·) (fillFrom_char_cons front _ c qs values).symm
    | expression source e =>
      rw [placedFrom, ← byteLength_append] at hlength ⊢
      rw [Piece.source] at hnext
      cases values with
      | nil => cases hlength
      | cons value values =>
        have hrest := hnext values (by simpa using hlength)
        rw [List.zip_cons_cons, fillFrom_cons_of_start, replaceBackward, List.foldr_cons]
        rw [replaceBackward] at hrest
        rw [hrest, List.append_assoc, replaceBetween_append]

/-- Without marks nothing is matched. -/
theorem matchMarks_of_forall_isMark_eq_false {pending : List (Call × Nat)} {ps : List Placed}
    (h : ∀ p ∈ ps, p.expression.isMark = false) :
    matchMarks pending ps = ⟨[], pending.map Prod.snd⟩ := by
  induction ps with
  | nil => rfl
  | cons p ps ih =>
    obtain ⟨hp, hrest⟩ := List.forall_mem_cons.mp h
    obtain ⟨e, start, stop⟩ := p
    cases e with
    | value call => exact ih hrest
    | sectionStart guard => cases hp
    | sectionEnd => cases hp

/-- The conditional pass leaves a template without marks as it is. -/
theorem resolveSections_of_forall_isMark_eq_false
    (h : ∀ p ∈ expressions t, p.expression.isMark = false) : resolveSections d t = .ok t := by
  have hmarks : marks t = ⟨[], []⟩ := matchMarks_of_forall_isMark_eq_false h
  have hkept : ∀ k < (lines t).length, isRemoved d t k = false := by
    intro k _
    have hstarts : startsMark t k = false := by
      rw [startsMark, List.any_eq_false]
      intro p hp
      simp [h p hp]
    rw [isRemoved, hstarts, inDroppedSection, hmarks]
    rfl
  refine resolveSections_eq_ok_iff.mpr ⟨fun s hs => ?_, ?_⟩
  · rw [hmarks] at hs
    cases hs
  · rw [keepLines_of_forall_false hkept, unlines_lines]

/-- A template without marks renders by putting the values of its expressions, worked out from the
last to the first, into their spans. -/
theorem render_eq_map_valuesOf (h : ∀ p ∈ expressions t, p.expression.isMark = false) :
    render d t = (valuesOf d (expressions t)).map fun values =>
      fillFrom t 0 ((expressions t).zip values) := by
  have hsplice := splice_eq_map_valuesOf (d := d) [] (pieces t) h
  rw [List.nil_append, flatMap_source_pieces] at hsplice
  rw [render, resolveSections_of_forall_isMark_eq_false h]
  exact hsplice

/-- A template without marks renders exactly when each of its expressions has a value. It renders to
the text between their spans with the values between, which is what replacing the spans one after
another gives. If some expressions have no value, the failure is that of the last of them. -/
theorem render_of_no_marks (h : ∀ p ∈ expressions t, p.expression.isMark = false) :
    ((∃ out, render d t = .ok out) ↔
        ∀ p ∈ expressions t, ∃ value, p.expression.evaluate d = .ok value) ∧
      (∀ values, List.Forall₂ (fun p value => p.expression.evaluate d = .ok value)
          (expressions t) values →
        render d t = .ok (fillFrom t 0 ((expressions t).zip values)) ∧
          fillFrom t 0 ((expressions t).zip values) =
            replaceBackward t ((expressions t).zip values)) ∧
      (∀ e, render d t = .error e ↔ ∃ before p behind,
        expressions t = before ++ p :: behind ∧ p.expression.evaluate d = .error e ∧
          ∀ q ∈ behind, ∃ value, q.expression.evaluate d = .ok value) ∧
      (expressions t = [] → render d t = .ok t) := by
  rw [render_eq_map_valuesOf h]
  refine ⟨?_, fun values hvalues => ⟨?_, ?_⟩, fun e => ?_, fun hnone => ?_⟩
  · rw [← exists_mapBackward_eq_ok_iff]
    constructor
    · intro hout
      obtain ⟨out, hout⟩ := hout
      obtain ⟨values, hvalues, -⟩ := map_eq_ok_iff.mp hout
      exact ⟨values, hvalues⟩
    · intro hvalues
      obtain ⟨values, hvalues⟩ := hvalues
      exact ⟨_, map_eq_ok_iff.mpr ⟨values, hvalues, rfl⟩⟩
  · rw [valuesOf, mapBackward_eq_ok_iff.mpr hvalues]
    rfl
  · have hreplace := replaceBackward_eq_append_fillFrom [] (pieces t) values hvalues.length_eq
    rw [List.nil_append, flatMap_source_pieces, List.nil_append] at hreplace
    exact hreplace.symm
  · rw [map_eq_error_iff, valuesOf, mapBackward_eq_error_iff]
  · rw [hnone]
    have hall := slice_append_end [] t
    exact congrArg Except.ok hall

/-- A document with one note, of whose tag the only field is written like an expression. -/
def bracedDocument : Document :=
  ⟨.ofList [(storedKey ['k'], ⟨['k'], ⟨⟨[], [], [], []⟩, 1, ['k']⟩,
    .ofList [(['t'], [["\x7b\x7b@k:has(t)\x7d\x7d".toList]])]⟩)]⟩

/-- A value that is written like an expression is left as it is, beside another value. -/
theorem render_of_no_marks_bracedValue :
    expressions "a\x7b\x7b@k:get(t)\x7d\x7db\x7b\x7b@k:count(t)\x7d\x7d".toList =
        [⟨.value ⟨['k'], "get".toList, [['t']]⟩, 1, 14⟩,
          ⟨.value ⟨['k'], "count".toList, [['t']]⟩, 15, 30⟩] ∧
      render bracedDocument "a\x7b\x7b@k:get(t)\x7d\x7db\x7b\x7b@k:count(t)\x7d\x7d".toList =
        .ok "a\x7b\x7b@k:has(t)\x7d\x7db1".toList := by
  generalize ht : "a\x7b\x7b@k:get(t)\x7d\x7db\x7b\x7b@k:count(t)\x7d\x7d".toList = t
  have hfound : expressions t = [⟨.value ⟨['k'], "get".toList, [['t']]⟩, 1, 14⟩,
      ⟨.value ⟨['k'], "count".toList, [['t']]⟩, 15, 30⟩] := by
    subst ht
    decide +kernel
  have hmarks : ∀ p ∈ expressions t, p.expression.isMark = false := by
    rw [hfound]
    decide
  have hvalues : List.Forall₂ (fun p value => p.expression.evaluate bracedDocument = .ok value)
      (expressions t) ["\x7b\x7b@k:has(t)\x7d\x7d".toList, ['1']] := by
    rw [hfound]
    refine .cons ?_ (.cons ?_ .nil) <;> decide +kernel
  have hrender := ((render_of_no_marks hmarks).2.1 _ hvalues).1
  refine ⟨hfound, hrender.trans ?_⟩
  rw [hfound]
  subst ht
  decide +kernel

end Marginalia.Template
