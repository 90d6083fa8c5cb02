import Marginalia.Proofs.Outcome
import Marginalia.Proofs.Template.Query

/-!
# Templates of lines

The template of a line is literal text with masks in braces between, and one line is made of it for
each occurrence of a tag. A mask selects the field that the same bits select where a single field is
asked for, so lines, fields and the number of occurrences agree. What stands in for a mask is copied
as it is, also where it holds braces.
-/

namespace Marginalia.Template

open Text

/-- A bit with the blanks that stand around it. -/
structure Bit where
  before : Text
  value : Bool
  behind : Text
  isBlank_before : ∀ c ∈ before, isBlank c = true
  isBlank_behind : ∀ c ∈ behind, isBlank c = true

namespace Bit

/-- The digit that a bit is written as. -/
def digit (b : Bit) : Char :=
  if b.value then '1' else '0'

/-- A bit as it is written. -/
def text (b : Bit) : Text :=
  b.before ++ b.digit :: b.behind

/-- A bit is written as a digit. -/
theorem isDecimal_digit (b : Bit) : isDecimal b.digit = true := by
  rw [digit]
  split <;> decide

/-- The digit of a bit is not blank. -/
theorem isBlank_digit (b : Bit) : isBlank b.digit = false := by
  rw [digit]
  split <;> decide

/-- A bit is set when its digit is a one. -/
theorem digit_eq_one_iff (b : Bit) : b.digit = '1' ↔ b.value = true := by
  rw [digit]
  cases b.value <;> decide

/-- Without the blanks around it a bit is its digit. -/
theorem trim_text (b : Bit) : trim b.text = [b.digit] := by
  have htrimmed : IsTrimmed [b.digit] :=
    isTrimmed_of_forall (List.forall_mem_singleton.mpr b.isBlank_digit)
  have htrim := trim_append b.before b.behind b.isBlank_before b.isBlank_behind
    (List.cons_ne_nil b.digit []) htrimmed
  rwa [List.append_assoc] at htrim

end Bit

/-- The bits of a mask with commas between. -/
def maskText (first : Bit) : List Bit → Text
  | [] => first.text
  | next :: rest => first.text ++ ',' :: maskText next rest

/-- A part of the template of a line: text without opening braces, or a mask of at least one bit. -/
inductive LinePart
  | literal (text : Text) (brace_notMem : '\x7b' ∉ text)
  | mask (first : Bit) (others : List Bit)

namespace LinePart

/-- A part as it is written. -/
def text : LinePart → Text
  | literal text _ => text
  | mask first others => '\x7b' :: (maskText first others ++ ['\x7d'])

/-- What stands for a part in the line of an occurrence. -/
def filled (fields : List Text) : LinePart → Text
  | literal text _ => text
  | mask first others => selectField fields ((first :: others).map Bit.value)

/-- What stands for a part when every mask is replaced by what is asked for with its bits. -/
def asked (ask : List Bit → Except Failure Text) : LinePart → Except Failure Text
  | literal text _ => .ok text
  | mask first others => ask (first :: others)

end LinePart

/-- No blank is a decimal digit. -/
theorem isDecimal_of_isBlank {c : Char} (h : isBlank c = true) : isDecimal c = false := by
  have hall : blanks.all (fun b => !isDecimal b) = true := by decide +kernel
  simpa using List.all_eq_true.mp hall c (mem_blanks_of_isBlank h)

/-- Digits end in front of blanks and a character that is no digit. -/
theorem takeWhile_isDecimal_blanks_append {front : Text} (hfront : ∀ b ∈ front, isBlank b = true)
    {c : Char} (hc : isDecimal c = false) (t : Text) :
    (front ++ c :: t).takeWhile isDecimal = [] ∧
      (front ++ c :: t).dropWhile isDecimal = front ++ c :: t := by
  cases front with
  | nil => simp [hc]
  | cons b front =>
    have hb := isDecimal_of_isBlank (hfront b List.mem_cons_self)
    simp [hb]

/-- Behind a digit and a comma the numbers of a mask go on. -/
theorem takeNumbers_comma {c : Char} (hc : isDecimal c = true) {blank : Text}
    (hblank : ∀ b ∈ blank, isBlank b = true) (t : Text) :
    takeNumbers (c :: (blank ++ ',' :: t)) =
      (takeNumbers (trimStart t)).map fun (numbers, behind) => ([c] :: numbers, behind) := by
  obtain ⟨htake, hdrop⟩ := takeWhile_isDecimal_blanks_append hblank (c := ',') (by decide) t
  have htrim : trimStart ((blank ++ ',' :: t).dropWhile isDecimal) = ',' :: t := by
    rw [hdrop, trimStart_append hblank (by decide)]
  rw [takeNumbers, if_pos hc]
  split
  · rename_i more hmore
    obtain rfl : t = more := (List.cons.inj (htrim.symm.trans hmore)).2
    rw [htake]
  · rename_i more hmore
    rw [htrim] at hmore
    cases (List.cons.inj hmore).1
  · rename_i hcomma hbrace
    exact absurd htrim (hcomma t)

/-- Behind a digit and a closing brace the numbers of a mask end. -/
theorem takeNumbers_brace {c : Char} (hc : isDecimal c = true) {blank : Text}
    (hblank : ∀ b ∈ blank, isBlank b = true) (t : Text) :
    takeNumbers (c :: (blank ++ '\x7d' :: t)) = some ([[c]], t) := by
  obtain ⟨htake, hdrop⟩ := takeWhile_isDecimal_blanks_append hblank (c := '\x7d') (by decide) t
  have htrim : trimStart ((blank ++ '\x7d' :: t).dropWhile isDecimal) = '\x7d' :: t := by
    rw [hdrop, trimStart_append hblank (by decide)]
  rw [takeNumbers, if_pos hc]
  split
  · rename_i more hmore
    rw [htrim] at hmore
    cases (List.cons.inj hmore).1
  · rename_i more hmore
    obtain rfl : t = more := (List.cons.inj (htrim.symm.trans hmore)).2
    rw [htake]
  · rename_i hcomma hbrace
    exact absurd htrim (hbrace t)

/-- The digits of a written mask are read, with what follows its closing brace. -/
theorem takeNumbers_maskText (first : Bit) (others : List Bit) (t : Text) :
    takeNumbers (trimStart (maskText first others ++ '\x7d' :: t)) =
      some ((first :: others).map fun b => [b.digit], t) := by
  induction others generalizing first with
  | nil =>
    rw [maskText, Bit.text, List.append_assoc, List.cons_append,
      trimStart_append first.isBlank_before first.isBlank_digit,
      takeNumbers_brace first.isDecimal_digit first.isBlank_behind]
    rfl
  | cons next rest ih =>
    rw [maskText, Bit.text, List.append_assoc, List.append_assoc, List.cons_append,
      List.cons_append, trimStart_append first.isBlank_before first.isBlank_digit,
      takeNumbers_comma first.isDecimal_digit first.isBlank_behind, ih]
    rfl

/-- A written mask is read as its bits. -/
theorem takeMask_maskText (first : Bit) (others : List Bit) (t : Text) :
    takeMask (maskText first others ++ '\x7d' :: t) =
      some ((first :: others).map Bit.value, t) := by
  have hbit (b : Bit) : ([b.digit] == ['1']) = b.value := by
    rw [Bool.eq_iff_iff, beq_iff_eq, List.cons.injEq, b.digit_eq_one_iff]
    simp
  have hvalues : ((first :: others).map fun b => [b.digit]).map (fun digits => digits == ['1']) =
      (first :: others).map Bit.value := by
    rw [List.map_map]
    exact List.map_congr_left fun b _ => hbit b
  rw [takeMask, takeNumbers_maskText, Option.map_some]
  exact congrArg (fun mask => some (mask, t)) hvalues

/-- Text without opening braces is copied. -/
theorem fillMasks_append_of_notMem (fields : List Text) {front : Text} (hfront : '\x7b' ∉ front)
    (t : Text) : fillMasks fields (front ++ t) = front ++ fillMasks fields t := by
  induction front with
  | nil => rfl
  | cons c front ih =>
    rw [List.mem_cons, not_or] at hfront
    rw [List.cons_append, fillMasks, if_neg (Ne.symm hfront.1), ih hfront.2]
    rfl

/-- A written mask is replaced by the field that it selects, and filling goes on behind it. -/
theorem fillMasks_mask (fields : List Text) (first : Bit) (others : List Bit) (t : Text) :
    fillMasks fields ('\x7b' :: (maskText first others ++ '\x7d' :: t)) =
      selectField fields ((first :: others).map Bit.value) ++ fillMasks fields t := by
  rw [fillMasks, if_pos rfl]
  split
  · rename_i mask behind h
    rw [takeMask_maskText] at h
    obtain ⟨rfl, rfl⟩ := Prod.mk.inj (Option.some.inj h)
    rfl
  · rename_i h
    rw [takeMask_maskText] at h
    cases h

/-- The line of an occurrence is made part by part. -/
theorem fillMasks_parts (fields : List Text) (parts : List LinePart) :
    fillMasks fields (parts.flatMap LinePart.text) =
      parts.flatMap (LinePart.filled fields) := by
  induction parts with
  | nil => rw [List.flatMap_nil, List.flatMap_nil, fillMasks]
  | cons part parts ih =>
    rw [List.flatMap_cons, List.flatMap_cons, ← ih]
    cases part with
    | literal text hbrace => exact fillMasks_append_of_notMem fields hbrace _
    | mask first others =>
      have hmask := fillMasks_mask fields first others (parts.flatMap LinePart.text)
      simpa [LinePart.text, LinePart.filled] using hmask

/-- Written bits are read, also with blanks around them. -/
theorem bits_map_text (m : Method) (position : Nat) (mask : List Bit) :
    bits m position (mask.map Bit.text) = .ok (mask.map Bit.value) := by
  induction mask generalizing position with
  | nil => rfl
  | cons b mask ih =>
    rw [List.map_cons, bits, ih, b.trim_text, Bit.digit]
    cases hb : b.value with
    | true => simp [bind, Except.bind, pure, Except.pure, hb]
    | false => simp [bind, Except.bind, pure, Except.pure, hb]

variable {d : Document} {key : Text} {note : Note}

/-- The value of a call with a known key is that of its method for what its arguments stand for. -/
theorem evaluate_of_note {c : Call} {m : Method} (hmethod : c.method = m.name)
    (hnote : d.note? c.key = some note) :
    c.evaluate d = m.run c.key note (c.arguments.map unquote) := by
  have hparse : Method.parse c.method = .ok m := by
    rw [hmethod]
    cases m <;> rfl
  rw [Call.evaluate, hparse, hnote]
  rfl

/-- The value of a method for the note with a key, asked for with arguments that are written in
quotes. -/
def ask (d : Document) (key : Text) (m : Method) (arguments : List Text) : Except Failure Text :=
  Call.evaluate d ⟨key, m.name, arguments.map fun a => (Argument.quoted a).source⟩

/-- What is asked of a known note is the value of the method. -/
theorem ask_of_note (hnote : d.note? key = some note) (m : Method) (arguments : List Text) :
    ask d key m arguments = m.run key note arguments := by
  have hvalues : (arguments.map fun a => (Argument.quoted a).source).map unquote = arguments := by
    rw [List.map_map]
    exact (List.map_congr_left fun a _ => unquote_source (.quoted a)).trans (List.map_id _)
  rw [ask, evaluate_of_note rfl hnote, hvalues]

/-- The occurrences of a tag are counted. -/
theorem run_count (key : Text) (note : Note) (tag : Text) :
    Method.run .count key note [tag] =
      .ok (ofNat ((note.occurrences? tag).getD []).length) :=
  rfl

/-- A line is made for each occurrence of a tag. -/
theorem run_each (key : Text) (note : Note) (tag template : Text) :
    Method.run .each key note [tag, template] =
      .ok (unlines (((note.occurrences? tag).getD []).map fun fields => fillMasks fields template)) :=
  rfl

/-- Whether an argument writes an index: a number that fits into a word, with or without blanks
around it. -/
def IsIndex (argument : Text) (i : Nat) : Prop :=
  indexOf? (trim argument) = some i

instance (argument : Text) (i : Nat) : Decidable (IsIndex argument i) :=
  inferInstanceAs (Decidable (_ = _))

/-- Asking for a field with bits selects by these bits. -/
theorem run_get_of_isIndex {index : Text} {i : Nat} (hindex : IsIndex index i) (key : Text)
    (note : Note) (tag : Text) (mask : List Bit) :
    Method.run .get key note (tag :: index :: mask.map Bit.text) =
      (occurrence note key tag i).map fun fields =>
        if mask.isEmpty then fields.head?.getD []
        else selectField fields (mask.map Bit.value) := by
  rw [run_get_of_bits hindex (bits_map_text .get 2 mask), List.isEmpty_map]

/-- Asking for a field fails when the index is none. -/
theorem run_get_of_not_isIndex {index : Text} (hindex : ∀ i, ¬ IsIndex index i) (key : Text)
    (note : Note) (tag : Text) (mask : List Text) :
    Method.run .get key note (tag :: index :: mask) =
      .error (.argument Method.get.name 1 .notAnIndex) := by
  have hnone : indexOf? (trim index) = none := Option.eq_none_iff_forall_ne_some.mpr hindex
  have hposition : indexAt .get (tag :: index :: mask) 1 =
      .error (.argument Method.get.name 1 .notAnIndex) := by
    rw [indexAt]
    simp only [List.getElem?_cons_succ, List.getElem?_cons_zero, hnone]
  have htag : argumentAt .get (tag :: index :: mask) 0 = .ok tag := rfl
  rw [Method.run, htag, hposition]
  rfl

/-- A field is found exactly for an index below the number of occurrences. -/
theorem exists_run_get_iff {tag : Text} {found : List (List Text)}
    (hfound : note.occurrences? tag = some found) (key index : Text) (mask : List Bit) :
    (∃ value, Method.run .get key note (tag :: index :: mask.map Bit.text) = .ok value) ↔
      ∃ i, IsIndex index i ∧ i < found.length := by
  by_cases hindex : ∃ i, IsIndex index i
  · obtain ⟨i, hi⟩ := hindex
    rw [run_get_of_isIndex hi]
    by_cases hlt : i < found.length
    · rw [occurrence_eq_ok hfound key hlt]
      exact iff_of_true ⟨_, rfl⟩ ⟨i, hi, hlt⟩
    · have houtside : occurrence note key tag i =
          .error (.outOfRange key tag i found.length) := by
        have hget : found[i]? = none := List.getElem?_eq_none (Nat.le_of_not_lt hlt)
        rw [occurrence, occurrences, hfound]
        simp only [bind, Except.bind, hget]
      rw [houtside]
      refine iff_of_false ?_ ?_
      · intro h
        obtain ⟨value, hvalue⟩ := h
        cases hvalue
      · intro h
        obtain ⟨j, hj, hlt'⟩ := h
        obtain rfl : i = j := Option.some.inj (hi.symm.trans hj)
        exact hlt hlt'
  · rw [run_get_of_not_isIndex fun i hi => hindex ⟨i, hi⟩]
    refine iff_of_false ?_ fun h => hindex ⟨_, h.choose_spec.1⟩
    intro h
    obtain ⟨value, hvalue⟩ := h
    cases hvalue

/-- The parts of a line, with each mask replaced by the field that is asked for with its bits. -/
theorem mapM_asked_get {tag : Text} {found : List (List Text)}
    (hfound : note.occurrences? tag = some found) (key : Text) {index : Text} {i : Nat}
    (hindex : IsIndex index i) (hi : i < found.length) (parts : List LinePart) :
    parts.mapM (LinePart.asked fun mask =>
        Method.run .get key note (tag :: index :: mask.map Bit.text)) =
      .ok (parts.map (LinePart.filled found[i])) := by
  rw [mapM_eq_ok_iff, List.forall₂_map_right_iff, List.forall₂_same]
  intro part _
  cases part with
  | literal text hbrace => rfl
  | mask first others =>
    rw [LinePart.asked, run_get_of_isIndex hindex, occurrence_eq_ok hfound key hi]
    rfl

/-- For a tag that a note carries, the number of its occurrences is counted, a field is found
exactly for the indices below that number, and there is one line for each occurrence: the template
with each mask replaced by the field that is asked for with the index and the same bits. For a tag
that it does not carry the number is zero, there are no lines, and asking for a field is an error.
What is asked depends on what arguments stand for, not on how they are written. -/
theorem each_get_and_count_agree (hnote : d.note? key = some note) (tag : Text) :
    (∀ (c : Call) (m : Method), c.key = key → c.method = m.name →
      c.evaluate d = ask d key m (c.arguments.map unquote)) ∧
    (∀ found, note.occurrences? tag = some found →
      ask d key .count [tag] = .ok (ofNat found.length) ∧
      (∀ index (mask : List Bit),
        (∃ value, ask d key .get (tag :: index :: mask.map Bit.text) = .ok value) ↔
          ∃ i, IsIndex index i ∧ i < found.length) ∧
      ∀ parts : List LinePart, ∃ ls : List Text, ls.length = found.length ∧
        ask d key .each [tag, parts.flatMap LinePart.text] = .ok (unlines ls) ∧
        ∀ index i, IsIndex index i → (hi : i < ls.length) →
          (parts.mapM (LinePart.asked fun mask =>
            ask d key .get (tag :: index :: mask.map Bit.text))).map List.flatten = .ok ls[i]) ∧
    (note.occurrences? tag = none →
      ask d key .count [tag] = .ok ['0'] ∧
      (∀ template, ask d key .each [tag, template] = .ok []) ∧
      ∀ index i (mask : List Bit), IsIndex index i →
        ask d key .get (tag :: index :: mask.map Bit.text) = .error (.unknownTag key tag)) := by
  have hask := ask_of_note hnote
  refine ⟨?_, ?_, ?_⟩
  · intro c m hkey hmethod
    rw [hask, evaluate_of_note hmethod (hkey ▸ hnote), hkey]
  · intro found hfound
    refine ⟨?_, ?_, ?_⟩
    · rw [hask, run_count, hfound]
      rfl
    · intro index mask
      rw [hask]
      exact exists_run_get_iff hfound key index mask
    · intro parts
      refine ⟨found.map fun fields => fillMasks fields (parts.flatMap LinePart.text),
        List.length_map _, ?_, ?_⟩
      · rw [hask, run_each, hfound]
        rfl
      · intro index i hindex hi
        have hlt : i < found.length := by rwa [List.length_map] at hi
        simp only [hask]
        rw [mapM_asked_get hfound key hindex hlt, List.getElem_map, fillMasks_parts]
        rfl
  · intro hnone
    refine ⟨?_, ?_, ?_⟩
    · rw [hask, run_count, hnone]
      rfl
    · intro template
      rw [hask, run_each, hnone]
      rfl
    · intro index i mask hindex
      have hoccurrence : occurrence note key tag i = .error (.unknownTag key tag) := by
        rw [occurrence, occurrences, hnone]
        rfl
      rw [hask, run_get_of_isIndex hindex, hoccurrence]
      rfl

/-- A note with two occurrences of a tag, the first with a field that looks like a mask. -/
def raggedNote : Note where
  label := []
  origin := ⟨⟨[], [], [], []⟩, 1, ['a']⟩
  tags := Dictionary.empty.insert ['t'] [["\x7b1\x7d".toList, ['y']], [['z']]]

/-- A template that shows the second field of an occurrence and the first one. -/
def swappedFields : List LinePart :=
  let bit (value : Bool) : Bit :=
    ⟨['\t'], value, ['\t'], List.all_eq_true.mp rfl, List.all_eq_true.mp rfl⟩
  [.mask (bit false) [bit true], .literal ['-'] (by decide), .mask (bit true) []]

/-- A field that looks like a mask is copied, and a field that is not there leaves nothing. -/
theorem each_get_and_count_agree_raggedNote :
    let d := Document.mk (Dictionary.empty.insert (storedKey ['a']) raggedNote)
    d.note? ['a'] = some raggedNote ∧
      ask d ['a'] .count [['t']] = .ok ['2'] ∧
      ask d ['a'] .each [['t'], "\x7b\t0\t,\t1\t\x7d-\x7b\t1\t\x7d".toList] =
        .ok "y-\x7b1\x7d\n-z".toList ∧
      (¬ ∃ value, ask d ['a'] .get [['t'], ['2'], ['1']] = .ok value) ∧
      ask d ['a'] .get [['s'], ['0'], ['1']] = .error (.unknownTag ['a'] ['s']) := by
  intro d
  have hnote : d.note? ['a'] = some raggedNote := by decide
  let one : Bit := ⟨[], true, [], List.all_eq_true.mp rfl, List.all_eq_true.mp rfl⟩
  obtain ⟨-, hcarried, -⟩ := each_get_and_count_agree hnote ['t']
  obtain ⟨hcount, hget, heach⟩ := hcarried [["\x7b1\x7d".toList, ['y']], [['z']]] (by decide)
  obtain ⟨-, -, hmissing⟩ := each_get_and_count_agree hnote ['s']
  obtain ⟨-, -, hunknown⟩ := hmissing (by decide)
  obtain ⟨ls, hlength, hlines, hvalues⟩ := heach swappedFields
  obtain ⟨first, second, rfl⟩ := List.length_eq_two.mp hlength
  have hfirst := hvalues ['0'] 0 (by decide) Nat.zero_lt_two
  have hsecond := hvalues ['1'] 1 (by decide) Nat.one_lt_two
  obtain rfl : "y-\x7b1\x7d".toList = first := Except.ok.inj hfirst
  obtain rfl : "-z".toList = second := Except.ok.inj hsecond
  refine ⟨hnote, hcount, hlines, ?_, hunknown ['0'] 0 [one] (by decide)⟩
  intro h
  obtain ⟨i, hi, hlt⟩ := (hget ['2'] [one]).mp h
  obtain rfl : 2 = i := Option.some.inj hi
  exact absurd hlt (by decide)

end Marginalia.Template
