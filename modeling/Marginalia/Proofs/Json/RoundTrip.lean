import Mathlib.Data.List.DropRight
import Marginalia.Json.Printer
import Marginalia.Json.Reader
import Marginalia.Proofs.Json.Escape
import Marginalia.Proofs.Text.Number

/-!
# Written and read JSON

A value whose strings are written forms of texts and whose numbers are written natural numbers is
read back from its layout on lines. Every reader is given enough budget by the length of what it
reads, and takes a value whole where no character of a number stands behind it.
-/

namespace Marginalia.Json

open Text

/-- A value made of texts, natural numbers and constants. -/
inductive IsPlain : Json → Prop
  | null : IsPlain .null
  | bool (value : Bool) : IsPlain (.bool value)
  | ofNat (n : Nat) : IsPlain (.ofNat n)
  | ofText (t : Text) : IsPlain (.ofText t)
  | array {items : List Json} (hitems : ∀ v ∈ items, IsPlain v) : IsPlain (.array items)
  | object {members : List (Text × Json)} (hnames : ∀ m ∈ members, ∃ t, m.1 = escape t)
      (hvalues : ∀ m ∈ members, IsPlain m.2) : IsPlain (.object members)

/-- Whether a character may stand in a number behind its first digit. -/
def isNumberChar (c : Char) : Bool :=
  c.isDigit || c == '.' || c == 'e' || c == 'E'

/-- A text with which no number goes on. -/
def EndsNumber (t : Text) : Prop :=
  ∀ c ∈ t.head?, isNumberChar c = false

/-- White space in front of a text is skipped. -/
theorem skipSpace_indent_append (depth : Nat) (t : Text) :
    skipSpace (indent depth ++ t) = skipSpace t := by
  apply List.dropWhile_append_of_pos
  intro c hc
  rcases List.mem_cons.mp hc with rfl | hc
  · decide
  · rw [List.eq_of_mem_replicate hc]
    decide

/-- Nothing is skipped in front of another character. -/
theorem skipSpace_cons {c : Char} (hc : isSpace c = false) (t : Text) :
    skipSpace (c :: t) = c :: t :=
  List.dropWhile_cons_of_neg (by simp [hc])

/-- Skipping white space twice is skipping it once. -/
theorem skipSpace_skipSpace (t : Text) : skipSpace (skipSpace t) = skipSpace t :=
  List.dropWhile_idempotent isSpace t

/-- A value is read behind white space. -/
theorem takeValue_skipSpace (budget : Nat) (t : Text) :
    takeValue budget (skipSpace t) = takeValue budget t := by
  cases budget with
  | zero => rw [takeValue, takeValue]
  | succ budget => rw [takeValue, skipSpace_skipSpace, takeValue]

/-- Items are read behind white space. -/
theorem takeItems_skipSpace (budget : Nat) (t : Text) :
    takeItems budget (skipSpace t) = takeItems budget t := by
  cases budget with
  | zero => rw [takeItems, takeItems]
  | succ budget => rw [takeItems, takeValue_skipSpace, takeItems]

/-- Members are read behind white space. -/
theorem takeMembers_skipSpace (budget : Nat) (t : Text) :
    takeMembers budget (skipSpace t) = takeMembers budget t := by
  cases budget with
  | zero => rw [takeMembers, takeMembers]
  | succ budget => rw [takeMembers, skipSpace_skipSpace, takeMembers]

/-- A value is read behind the start of a line. -/
theorem takeValue_indent_append (budget depth : Nat) (t : Text) :
    takeValue budget (indent depth ++ t) = takeValue budget t := by
  rw [← takeValue_skipSpace, skipSpace_indent_append, takeValue_skipSpace]

/-- Only the written form of zero starts with a zero. -/
theorem eq_zero_of_ofNat_eq {n : Nat} {rest : Text} (h : Text.ofNat n = '0' :: rest) : n = 0 := by
  induction n using Nat.strong_induction_on generalizing rest with
  | _ n ih =>
    rw [Text.ofNat] at h
    by_cases hn : n < 10
    · have hdigit : ∀ m < 10, m.digitChar = '0' → m = 0 := by decide
      rw [Nat.toDigits_of_lt_base hn] at h
      exact hdigit n hn (List.cons.inj h).1
    · rw [Nat.toDigits_of_base_le (by decide) (by omega)] at h
      obtain ⟨c, front, hfront⟩ :=
        List.exists_cons_of_ne_nil (Nat.toDigits_ne_nil (b := 10) (n := n / 10))
      rw [hfront, List.cons_append] at h
      have hfirst : Text.ofNat (n / 10) = '0' :: front := by
        rw [Text.ofNat, hfront, (List.cons.inj h).1]
      have hquotient := ih (n / 10) (by omega) hfirst
      omega

/-- What ends a number starts with no digit. -/
theorem EndsNumber.isDigit_eq_false {t : Text} (h : EndsNumber t) :
    ∀ c ∈ t.head?, c.isDigit = false := by
  intro c hc
  have hnumber := h c hc
  simp only [isNumberChar, Bool.or_eq_false_iff] at hnumber
  exact hnumber.1.1.1

/-- A written number as a stretch of digits. -/
def digitStretch (n : Nat) : Stretch Char.isDigit :=
  ⟨Text.ofNat n, ofNat_ne_nil n, fun _ hc => isDigit_of_mem_ofNat hc⟩

/-- The digits of a number are taken whole. -/
theorem takeDigits_ofNat_append (n : Nat) {t : Text} (ht : EndsNumber t) :
    takeDigits (Text.ofNat n ++ t) = some (Text.ofNat n, t) := by
  have htake := (digitStretch n).takeWhile_append ht.isDigit_eq_false
  have hdrop := (digitStretch n).dropWhile_append ht.isDigit_eq_false
  rw [digitStretch] at htake hdrop
  unfold takeDigits
  rw [htake, hdrop]
  split
  · exact absurd (by assumption) (ofNat_ne_nil n)
  · rfl

/-- The digits of a whole number are taken whole. -/
theorem takeWhole_ofNat_append (n : Nat) {t : Text} (ht : EndsNumber t) :
    takeWhole (Text.ofNat n ++ t) = some (Text.ofNat n, t) := by
  have hdigits := takeDigits_ofNat_append n ht
  unfold takeWhole
  split
  · rename_i c rest heq
    obtain ⟨d, digits, hd⟩ := List.exists_cons_of_ne_nil (digitStretch n).ne_nil
    have hofNat : Text.ofNat n = d :: digits := hd
    rw [hofNat, List.cons_append] at heq
    obtain ⟨rfl, htail⟩ := List.cons.inj heq
    obtain rfl := eq_zero_of_ofNat_eq hofNat
    have hnil : digits = [] := by simpa using hofNat.symm.trans (by rfl : Text.ofNat 0 = ['0'])
    rw [hnil, List.nil_append] at htail
    have hc := ht.isDigit_eq_false c (by rw [htail]; rfl)
    rw [if_neg (by simp [hc]), htail]
    rfl
  · exact hdigits

/-- A number ends in front of the text behind it. -/
theorem takeNumber_ofNat_append (n : Nat) {t : Text} (ht : EndsNumber t) :
    takeNumber (Text.ofNat n ++ t) = some (Text.ofNat n, t) := by
  obtain ⟨d, digits, hd⟩ := List.exists_cons_of_ne_nil (digitStretch n).ne_nil
  have hofNat : Text.ofNat n = d :: digits := hd
  have hdigit : d.isDigit = true := isDigit_of_mem_ofNat (n := n) (by simp [hofNat])
  have hfraction : takeFraction t = some ([], t) := by
    unfold takeFraction
    split
    · exact absurd (ht '.' rfl) (by decide)
    · rfl
  have hexponent : takeExponent t = some ([], t) := by
    unfold takeExponent
    split
    · rfl
    · rename_i c rest
      rw [if_neg]
      rintro (rfl | rfl)
      · exact absurd (ht 'e' rfl) (by decide)
      · exact absurd (ht 'E' rfl) (by decide)
  have hwhole := takeWhole_ofNat_append n ht
  unfold takeNumber
  split
  rename_i heq
  split at heq
  · rename_i rest hsign
    rw [hofNat, List.cons_append] at hsign
    obtain ⟨rfl, -⟩ := List.cons.inj hsign
    exact absurd hdigit (by decide)
  · obtain ⟨rfl, rfl⟩ := Prod.mk.inj heq
    simp [hwhole, hfraction, hexponent]

/-- No digit is white space. -/
theorem isSpace_of_isDigit {c : Char} (hc : c.isDigit = true) : isSpace c = false := by
  by_contra h
  simp only [Bool.not_eq_false, isSpace, Bool.or_eq_true, beq_iff_eq] at h
  rcases h with ((rfl | rfl) | rfl) | rfl <;> exact absurd hc (by decide)

/-- Where a digit stands, a number is read. -/
theorem takeValue_of_isDigit {c : Char} (hc : c.isDigit = true) (budget : Nat) (t : Text) :
    takeValue (budget + 1) (c :: t) =
      (takeNumber (c :: t)).map fun (written, behind) => (number written, behind) := by
  rw [takeValue, skipSpace_cons (isSpace_of_isDigit hc)]
  split
  case h_7 => rfl
  all_goals
    rename_i h
    obtain ⟨rfl, -⟩ := List.cons.inj h
    exact absurd hc (by decide)

/-- Whether a value is read back from its layout on lines at any depth, wherever no number goes on
behind it, with a budget of the length of the layout. -/
def ReadsBack (v : Json) : Prop :=
  ∀ depth budget t, (pretty depth v).length ≤ budget → EndsNumber t →
    takeValue budget (pretty depth v ++ t) = some (v, t)

/-- The start of a line ends a number. -/
theorem endsNumber_indent_append (depth : Nat) (t : Text) : EndsNumber (indent depth ++ t) := by
  intro c hc
  obtain rfl : '\n' = c := Option.some.inj hc
  decide

/-- A comma ends a number. -/
theorem endsNumber_comma (t : Text) : EndsNumber (',' :: t) := by
  intro c hc
  obtain rfl : ',' = c := Option.some.inj hc
  decide

/-- The layout of a value starts with a character that is no white space and closes no array. -/
theorem exists_pretty_eq_cons {v : Json} (h : IsPlain v) (depth : Nat) :
    ∃ c rest, pretty depth v = c :: rest ∧ isSpace c = false ∧ c ≠ ']' := by
  cases h with
  | null => exact ⟨'n', _, rfl, by decide, by decide⟩
  | bool value => cases value <;> exact ⟨_, _, rfl, by decide, by decide⟩
  | ofNat n =>
    obtain ⟨d, digits, hd⟩ := List.exists_cons_of_ne_nil (digitStretch n).ne_nil
    have hdigit : d.isDigit = true := (digitStretch n).forall_mem d (by simp [hd])
    refine ⟨d, digits, hd, isSpace_of_isDigit hdigit, ?_⟩
    rintro rfl
    exact absurd hdigit (by decide)
  | ofText t => exact ⟨'"', _, rfl, by decide, by decide⟩
  | @array items _ => cases items <;> exact ⟨'[', _, rfl, by decide, by decide⟩
  | @object members _ _ => cases members <;> exact ⟨'\x7b', _, rfl, by decide, by decide⟩

/-- An item in front of the closing bracket is the last one. -/
theorem takeItems_of_last {budget : Nat} {t rest behind : Text} {v : Json}
    (hv : takeValue budget t = some (v, rest)) (hclose : skipSpace rest = ']' :: behind) :
    takeItems (budget + 1) t = some ([v], behind) := by
  rw [takeItems, hv]
  simp only [Option.bind_eq_bind, Option.bind_some, hclose]

/-- Behind an item and a comma the items go on. -/
theorem takeItems_of_comma {budget : Nat} {t rest more : Text} {v : Json}
    (hv : takeValue budget t = some (v, rest)) (hcomma : skipSpace rest = ',' :: more) :
    takeItems (budget + 1) t =
      (takeItems budget more).map fun (values, behind) => (v :: values, behind) := by
  rw [takeItems, hv]
  simp only [Option.bind_eq_bind, Option.bind_some, hcomma]

/-- Items are read back from their lines, up to the bracket on a line behind them. -/
theorem takeItems_prettyItems {v : Json} {rest : List Json} (hv : ReadsBack v)
    (hrest : ∀ w ∈ rest, ReadsBack w) {depth budget : Nat} (outer : Nat) (t : Text)
    (hbudget : (prettyItems depth (v :: rest)).length ≤ budget) :
    takeItems budget (prettyItems depth (v :: rest) ++ (indent outer ++ ']' :: t)) =
      some (v :: rest, t) := by
  have hindent : 0 < (indent depth).length := Nat.succ_pos _
  induction rest generalizing v budget with
  | nil =>
    rw [prettyItems, List.length_append] at hbudget
    obtain ⟨budget, rfl⟩ := Nat.exists_eq_add_one.mpr (by omega : 0 < budget)
    have hvalue := hv depth budget _ (by omega) (endsNumber_indent_append outer (']' :: t))
    rw [← takeValue_indent_append budget depth, ← List.append_assoc] at hvalue
    rw [prettyItems]
    exact takeItems_of_last hvalue (skipSpace_indent_append outer (']' :: t))
  | cons w rest ih =>
    obtain ⟨hw, hrest⟩ := List.forall_mem_cons.mp hrest
    rw [prettyItems, List.length_append, List.length_append, List.length_cons] at hbudget
    obtain ⟨budget, rfl⟩ := Nat.exists_eq_add_one.mpr (by omega : 0 < budget)
    have hlength : (prettyItems depth (w :: rest)).length ≤ budget := by omega
    have hmore := ih hw hrest hlength
    have hvalue := hv depth budget _ (by omega) (endsNumber_comma
      (prettyItems depth (w :: rest) ++ (indent outer ++ ']' :: t)))
    rw [← takeValue_indent_append budget depth, ← List.append_assoc] at hvalue
    rw [prettyItems, List.append_assoc (_ ++ _), List.cons_append,
      takeItems_of_comma hvalue (skipSpace_cons (by decide) _), hmore]
    rfl

/-- A member starts with its name in quotes. -/
theorem skipSpace_member (depth : Nat) (written t : Text) :
    skipSpace (indent depth ++ (quoted written ++ ':' :: ' ' :: t)) =
      '"' :: (written ++ '"' :: (':' :: ' ' :: t)) := by
  have htext : quoted written ++ ':' :: ' ' :: t =
      '"' :: (written ++ '"' :: (':' :: ' ' :: t)) := by simp [quoted]
  rw [skipSpace_indent_append, htext, skipSpace_cons (by decide)]

/-- A member in front of the closing brace is the last one. -/
theorem takeMembers_of_last (depth : Nat) (name : Text) {budget : Nat} {t rest behind : Text} {v : Json}
    (hv : takeValue budget (' ' :: t) = some (v, rest)) (hclose : skipSpace rest = '\x7d' :: behind) :
    takeMembers (budget + 1) (indent depth ++ (quoted (escape name) ++ ':' :: ' ' :: t)) =
      some ([(escape name, v)], behind) := by
  have hcolon : skipSpace (':' :: ' ' :: t) = ':' :: ' ' :: t := skipSpace_cons (by decide) _
  rw [takeMembers, skipSpace_member]
  simp only [takeString_escape_append, Option.bind_eq_bind, Option.bind_some, hcolon, hv, hclose]

/-- Behind a member and a comma the members go on. -/
theorem takeMembers_of_comma (depth : Nat) (name : Text) {budget : Nat} {t rest more : Text} {v : Json}
    (hv : takeValue budget (' ' :: t) = some (v, rest)) (hcomma : skipSpace rest = ',' :: more) :
    takeMembers (budget + 1) (indent depth ++ (quoted (escape name) ++ ':' :: ' ' :: t)) =
      (takeMembers budget more).map fun (pairs, behind) => ((escape name, v) :: pairs, behind) := by
  have hcolon : skipSpace (':' :: ' ' :: t) = ':' :: ' ' :: t := skipSpace_cons (by decide) _
  rw [takeMembers, skipSpace_member]
  simp only [takeString_escape_append, Option.bind_eq_bind, Option.bind_some, hcolon, hv, hcomma]

/-- A value is read behind a space. -/
theorem takeValue_space_cons (budget : Nat) (t : Text) :
    takeValue budget (' ' :: t) = takeValue budget t := by
  rw [← takeValue_skipSpace budget t, ← takeValue_skipSpace]
  rfl

/-- Members are read back from their lines, up to the brace on a line behind them. -/
theorem takeMembers_prettyMembers {m : Text × Json} {rest : List (Text × Json)}
    (hname : ∃ name, m.1 = escape name) (hvalue : ReadsBack m.2)
    (hnames : ∀ n ∈ rest, ∃ name, n.1 = escape name) (hvalues : ∀ n ∈ rest, ReadsBack n.2)
    {depth budget : Nat} (outer : Nat) (t : Text)
    (hbudget : (prettyMembers depth (m :: rest)).length ≤ budget) :
    takeMembers budget (prettyMembers depth (m :: rest) ++ (indent outer ++ '\x7d' :: t)) =
      some (m :: rest, t) := by
  have hindent : 0 < (indent depth).length := Nat.succ_pos _
  induction rest generalizing m budget with
  | nil =>
    obtain ⟨written, v⟩ := m
    obtain ⟨name, rfl⟩ := hname
    rw [prettyMembers, List.length_append, List.length_append, List.length_cons,
      List.length_cons] at hbudget
    obtain ⟨budget, rfl⟩ := Nat.exists_eq_add_one.mpr (by omega : 0 < budget)
    have hv : takeValue budget (pretty depth v ++ _) = some (v, _) :=
      hvalue depth budget _ (by dsimp only; omega) (endsNumber_indent_append outer ('\x7d' :: t))
    have hclose : skipSpace (indent outer ++ '\x7d' :: t) = '\x7d' :: t := by
      rw [skipSpace_indent_append, skipSpace_cons (by decide)]
    have hmember := takeMembers_of_last depth name
      ((takeValue_space_cons budget _).trans hv) hclose
    simpa [prettyMembers] using hmember
  | cons n rest ih =>
    obtain ⟨hn, hnames⟩ := List.forall_mem_cons.mp hnames
    obtain ⟨hnvalue, hvalues⟩ := List.forall_mem_cons.mp hvalues
    obtain ⟨written, v⟩ := m
    obtain ⟨name, rfl⟩ := hname
    rw [prettyMembers, List.length_append, List.length_append, List.length_append,
      List.length_cons, List.length_cons, List.length_cons] at hbudget
    obtain ⟨budget, rfl⟩ := Nat.exists_eq_add_one.mpr (by omega : 0 < budget)
    have hlength : (prettyMembers depth (n :: rest)).length ≤ budget := by omega
    have hmore := ih hn hnvalue hnames hvalues hlength
    have hv : takeValue budget (pretty depth v ++ _) = some (v, _) :=
      hvalue depth budget _ (by dsimp only; omega) (endsNumber_comma
      (prettyMembers depth (n :: rest) ++ (indent outer ++ '\x7d' :: t)))
    have hmember := takeMembers_of_comma depth name
      ((takeValue_space_cons budget _).trans hv) (skipSpace_cons (by decide) _)
    rw [hmore] at hmember
    simpa [prettyMembers] using hmember

/-- An array that does not close at once is read item by item. -/
theorem takeValue_openBracket {t : Text} (budget : Nat)
    (h : ∀ behind, skipSpace t ≠ ']' :: behind) :
    takeValue (budget + 1) ('[' :: t) =
      (takeItems budget t).map fun (values, behind) => (array values, behind) := by
  rw [takeValue, skipSpace_cons (by decide)]
  split
  case h_2 rest heq =>
    obtain ⟨-, rfl⟩ := List.cons.inj heq
    split
    · exact absurd (by assumption) (h _)
    · rw [takeItems_skipSpace]
  case h_7 _ hbracket _ _ _ _ => exact absurd rfl (hbracket t)
  all_goals exact absurd (List.cons.inj (by assumption)).1 (by decide)

/-- An object that does not close at once is read member by member. -/
theorem takeValue_openBrace {t : Text} (budget : Nat)
    (h : ∀ behind, skipSpace t ≠ '\x7d' :: behind) :
    takeValue (budget + 1) ('\x7b' :: t) =
      (takeMembers budget t).map fun (pairs, behind) => (object pairs, behind) := by
  rw [takeValue, skipSpace_cons (by decide)]
  split
  case h_3 rest heq =>
    obtain ⟨-, rfl⟩ := List.cons.inj heq
    split
    · exact absurd (by assumption) (h _)
    · rw [takeMembers_skipSpace]
  case h_7 _ _ hbrace _ _ _ => exact absurd rfl (hbrace t)
  all_goals exact absurd (List.cons.inj (by assumption)).1 (by decide)

/-- The first line of items closes no array. -/
theorem skipSpace_prettyItems_ne {v : Json} (h : IsPlain v) (rest : List Json) (depth : Nat)
    (t behind : Text) : skipSpace (prettyItems depth (v :: rest) ++ t) ≠ ']' :: behind := by
  obtain ⟨c, tail, hlayout, hspace, hc⟩ := exists_pretty_eq_cons h depth
  obtain ⟨more, hmore⟩ : ∃ more, prettyItems depth (v :: rest) = indent depth ++ c :: more := by
    cases rest with
    | nil => exact ⟨tail, by rw [prettyItems, hlayout]⟩
    | cons w rest =>
      exact ⟨tail ++ ',' :: prettyItems depth (w :: rest), by simp [prettyItems, hlayout]⟩
  rw [hmore, List.append_assoc, skipSpace_indent_append, List.cons_append, skipSpace_cons hspace]
  exact fun h => hc (List.cons.inj h).1

/-- The first line of members closes no object. -/
theorem skipSpace_prettyMembers_ne (m : Text × Json) (rest : List (Text × Json)) (depth : Nat)
    (t behind : Text) : skipSpace (prettyMembers depth (m :: rest) ++ t) ≠ '\x7d' :: behind := by
  obtain ⟨name, v⟩ := m
  obtain ⟨more, hmore⟩ : ∃ more,
      prettyMembers depth ((name, v) :: rest) = indent depth ++ '"' :: more := by
    cases rest with
    | nil => exact ⟨_, by rw [prettyMembers, quoted, List.append_assoc]; rfl⟩
    | cons n rest =>
      exact ⟨_, by rw [prettyMembers, quoted, List.append_assoc, List.append_assoc]; rfl⟩
  rw [hmore, List.append_assoc, skipSpace_indent_append, List.cons_append,
    skipSpace_cons (by decide)]
  exact fun h => absurd (List.cons.inj h).1 (by decide)

/-- Since no layout is empty, a budget of its length is never zero. -/
theorem readsBack_of_succ {v : Json} (h : IsPlain v)
    (hread : ∀ depth budget t, (pretty depth v).length ≤ budget + 1 → EndsNumber t →
      takeValue (budget + 1) (pretty depth v ++ t) = some (v, t)) : ReadsBack v := by
  intro depth budget t hbudget ht
  obtain ⟨c, rest, hlayout, -⟩ := exists_pretty_eq_cons h depth
  have hpos : 0 < (pretty depth v).length := by simp [hlayout]
  obtain ⟨budget, rfl⟩ := Nat.exists_eq_add_one.mpr (by omega : 0 < budget)
  exact hread depth budget t hbudget ht

/-- A value made of texts, natural numbers and constants is read back from its layout. -/
theorem IsPlain.readsBack {v : Json} (h : IsPlain v) : ReadsBack v := by
  induction h with
  | null => exact readsBack_of_succ .null fun _ _ _ _ _ => rfl
  | bool value => cases value <;> exact readsBack_of_succ (.bool _) fun _ _ _ _ _ => rfl
  | ofNat n =>
    apply readsBack_of_succ (.ofNat n)
    intro depth budget t _ ht
    obtain ⟨d, digits, hd⟩ := List.exists_cons_of_ne_nil (digitStretch n).ne_nil
    have hofNat : Text.ofNat n = d :: digits := hd
    have hdigit : d.isDigit = true := (digitStretch n).forall_mem d (by simp [hd])
    have hnumber := takeNumber_ofNat_append n ht
    rw [hofNat, List.cons_append] at hnumber
    rw [Json.ofNat, pretty, hofNat, List.cons_append, takeValue_of_isDigit hdigit, hnumber]
    rfl
  | ofText text =>
    apply readsBack_of_succ (.ofText text)
    intro depth budget t _ _
    have hstring := takeString_escape_append text t
    have hlayout : pretty depth (.ofText text) ++ t = '"' :: (escape text ++ '"' :: t) := by
      simp [Json.ofText, pretty, quoted]
    rw [hlayout, takeValue, skipSpace_cons (by decide)]
    simp only [hstring]
    rfl
  | @array items hitems ih =>
    apply readsBack_of_succ (.array hitems)
    intro depth budget t hbudget _
    cases items with
    | nil => rfl
    | cons v rest =>
      obtain ⟨hv, hrest⟩ := List.forall_mem_cons.mp ih
      have hlayout : pretty depth (.array (v :: rest)) ++ t =
          '[' :: (prettyItems (depth + 1) (v :: rest) ++ (indent depth ++ ']' :: t)) := by
        simp [pretty]
      have hfirst := skipSpace_prettyItems_ne (hitems v List.mem_cons_self) rest (depth + 1)
        (indent depth ++ ']' :: t)
      have hlength : (prettyItems (depth + 1) (v :: rest)).length ≤ budget := by
        simp [pretty] at hbudget
        omega
      rw [hlayout, takeValue_openBracket budget hfirst,
        takeItems_prettyItems hv hrest depth t hlength]
      rfl
  | @object members hnames hvalues ih =>
    apply readsBack_of_succ (.object hnames hvalues)
    intro depth budget t hbudget _
    cases members with
    | nil => rfl
    | cons m rest =>
      obtain ⟨hname, hnames⟩ := List.forall_mem_cons.mp hnames
      obtain ⟨hvalue, hvalues⟩ := List.forall_mem_cons.mp ih
      have hlayout : pretty depth (.object (m :: rest)) ++ t =
          '\x7b' :: (prettyMembers (depth + 1) (m :: rest) ++ (indent depth ++ '\x7d' :: t)) := by
        simp [pretty]
      have hfirst := skipSpace_prettyMembers_ne m rest (depth + 1) (indent depth ++ '\x7d' :: t)
      have hlength : (prettyMembers (depth + 1) (m :: rest)).length ≤ budget := by
        simp [pretty] at hbudget
        omega
      rw [hlayout, takeValue_openBrace budget hfirst,
        takeMembers_prettyMembers hname hvalue hnames hvalues depth t hlength]
      rfl

/-- A value made of texts, natural numbers and constants is read from its layout and a line feed. -/
theorem read?_pretty {v : Json} (h : IsPlain v) : read? (pretty 0 v ++ ['\n']) = some v := by
  have hread := h.readsBack 0 (2 * (pretty 0 v ++ ['\n']).length + 2) ['\n'] (by simp; omega)
    (endsNumber_indent_append 0 [])
  rw [read?, hread]
  rfl

end Marginalia.Json
