import Marginalia.Document.Basic
import Marginalia.Proofs.Dictionary
import Marginalia.Proofs.Outcome

/-!
# Indexed notes

Of the notes that are offered to a document, the first with each key is kept and every later one is
refused with the places of both; a refusal changes nothing. So notes can be indexed together exactly
when their keys are different, and then their order does not matter.
-/

namespace Marginalia.Document

variable {d : Document}

/-- Notes have the same stored key only if they have the same key. -/
theorem storedKey_inj {k l : Text} : storedKey k = storedKey l ↔ k = l :=
  List.append_right_inj keyPrefix

/-- What is found after indexing a note whose key is free. -/
theorem note?_insert (n : Note) (k : Text) :
    (Document.mk (d.notes.insert (storedKey n.key) n)).note? k =
      if k = n.key then some n else d.note? k := by
  rw [note?, Dictionary.find?_insert, note?]
  simp only [storedKey_inj]

/-- A note is added exactly when its key is free. -/
theorem insert_eq_ok_iff {n : Note} {e : Document} :
    d.insert n = .ok e ↔ d.note? n.key = none ∧ e = ⟨d.notes.insert (storedKey n.key) n⟩ := by
  rw [insert]
  cases d.note? n.key with
  | none => simp [eq_comm]
  | some earlier => simp

/-- A note is refused exactly when its key is taken, with the places of both notes. -/
theorem insert_eq_error_iff {n : Note} {failure : Failure} :
    d.insert n = .error failure ↔ ∃ first, d.note? n.key = some first ∧
      failure = .duplicateKey n.key first.origin.location n.origin.location := by
  rw [insert]
  cases d.note? n.key with
  | none => simp
  | some earlier => simp [eq_comm]

/-- The document behind an attempt to add a note, which is the same one if the note is refused. -/
def offer (d : Document) (n : Note) : Document :=
  (d.insert n).toOption.getD d

/-- A note whose key is free is added when it is offered. -/
theorem offer_of_ok {n : Note} {e : Document} (h : d.insert n = .ok e) : d.offer n = e := by
  rw [offer, h]
  rfl

/-- A refused note leaves the document as it was. -/
theorem offer_of_error {n : Note} {failure : Failure} (h : d.insert n = .error failure) :
    d.offer n = d := by
  rw [offer, h]
  rfl

/-- An offered note is found under its key unless another one was there. -/
theorem note?_offer (n : Note) (k : Text) :
    (d.offer n).note? k = (d.note? k).or (if n.key = k then some n else none) := by
  cases hinsert : d.insert n with
  | error failure =>
    obtain ⟨first, hfirst, -⟩ := insert_eq_error_iff.mp hinsert
    rw [offer_of_error hinsert]
    by_cases hk : n.key = k
    · rw [← hk, hfirst]
      rfl
    · rw [if_neg hk, Option.or_none]
  | ok e =>
    obtain ⟨hfree, he⟩ := insert_eq_ok_iff.mp hinsert
    rw [offer_of_ok hinsert, he, note?_insert]
    by_cases hk : n.key = k
    · rw [if_pos hk.symm, if_pos hk, ← hk, hfree]
      rfl
    · rw [if_neg fun h => hk h.symm, if_neg hk, Option.or_none]

/-- Of offered notes the first with a key is found under it, unless another one was there. -/
theorem note?_foldl_offer (notes : List Note) (d : Document) (k : Text) :
    (notes.foldl offer d).note? k = (d.note? k).or (notes.find? fun n => n.key = k) := by
  induction notes generalizing d with
  | nil => rw [List.foldl_nil, List.find?_nil, Option.or_none]
  | cons n rest ih =>
    rw [List.foldl_cons, ih, note?_offer, Option.or_assoc, List.find?_cons]
    by_cases hk : n.key = k
    · rw [if_pos hk, decide_eq_true hk]
      rfl
    · rw [if_neg hk, decide_eq_false hk]
      rfl

/-- Every note of a document stands under the stored form of its key. -/
def IsIndexed (d : Document) : Prop :=
  ∀ stored n, d.notes.find? stored = some n → stored = storedKey n.key

/-- An offered note, too, stands under the stored form of its key. -/
theorem IsIndexed.offer (h : d.IsIndexed) (n : Note) : (d.offer n).IsIndexed := by
  cases hinsert : d.insert n with
  | error failure =>
    rw [offer_of_error hinsert]
    exact h
  | ok e =>
    obtain ⟨-, rfl⟩ := insert_eq_ok_iff.mp hinsert
    rw [offer_of_ok hinsert]
    intro stored m hm
    rw [Dictionary.find?_insert] at hm
    split at hm
    · obtain rfl := Option.some.inj hm
      assumption
    · exact h stored m hm

/-- Offered notes all stand under the stored forms of their keys. -/
theorem IsIndexed.foldl_offer (h : d.IsIndexed) (notes : List Note) :
    (notes.foldl Document.offer d).IsIndexed := by
  induction notes generalizing d with
  | nil => exact h
  | cons n rest ih => exact ih (h.offer n)

/-- A document of offered notes maps the stored form of each key to the first note with that key,
and nothing else to anything. -/
theorem find?_foldl_offer_eq_some_iff (notes : List Note) {stored : Text} {n : Note} :
    (notes.foldl offer empty).notes.find? stored = some n ↔
      ∃ k, stored = storedKey k ∧ (notes.find? fun m => m.key = k) = some n := by
  have hindexed : (notes.foldl offer empty).IsIndexed :=
    IsIndexed.foldl_offer (fun stored m hm => absurd hm (by simp [empty])) notes
  have hnote (k : Text) : (notes.foldl offer empty).notes.find? (storedKey k) =
      notes.find? fun m => m.key = k := note?_foldl_offer notes empty k
  constructor
  · intro h
    have hstored := hindexed stored n h
    refine ⟨n.key, hstored, ?_⟩
    rw [← hnote, ← hstored, h]
  · rintro ⟨k, rfl, hk⟩
    rw [hnote, hk]

/-- Notes are added one after another exactly when their keys are different and free, and then the
document is the one to which they are offered. -/
theorem foldlM_insert_eq_ok_iff {notes : List Note} {e : Document} :
    notes.foldlM insert d = .ok e ↔ (notes.map Note.key).Nodup ∧
      (∀ n ∈ notes, d.note? n.key = none) ∧ e = notes.foldl offer d := by
  induction notes generalizing d with
  | nil =>
    rw [List.foldlM_nil, pure_eq_ok_iff, eq_comm]
    simp
  | cons n rest ih =>
    have hfree (hn : d.note? n.key = none) : (∀ m ∈ rest, (d.offer n).note? m.key = none) ↔
        n.key ∉ rest.map Note.key ∧ ∀ m ∈ rest, d.note? m.key = none := by
      simp only [note?_offer, Option.or_eq_none_iff, ite_eq_right_iff, reduceCtorEq, imp_false,
        List.mem_map, not_exists, not_and]
      exact ⟨fun h => ⟨fun m hm hkey => (h m hm).2 hkey.symm, fun m hm => (h m hm).1⟩,
        fun h m hm => ⟨h.2 m hm, fun hkey => h.1 m hm hkey.symm⟩⟩
    rw [List.foldlM_cons, bind_eq_ok_iff, List.map_cons, List.nodup_cons, List.forall_mem_cons,
      List.foldl_cons]
    constructor
    · rintro ⟨c, hc, hrest⟩
      obtain ⟨hn, -⟩ := insert_eq_ok_iff.mp hc
      rw [← offer_of_ok hc, ih, hfree hn] at hrest
      obtain ⟨hnodup, ⟨hkey, hlater⟩, he⟩ := hrest
      exact ⟨⟨hkey, hnodup⟩, ⟨hn, hlater⟩, he⟩
    · rintro ⟨⟨hkey, hnodup⟩, ⟨hn, hlater⟩, he⟩
      have hc := insert_eq_ok_iff.mpr ⟨hn, rfl⟩
      refine ⟨_, hc, ?_⟩
      rw [← offer_of_ok hc, ih, hfree hn]
      exact ⟨hnodup, ⟨hkey, hlater⟩, he⟩

/-- Notes are indexed exactly when their keys are different, and the document is the one to which
they are offered. -/
theorem ofNotes_eq_ok_iff {notes : List Note} {e : Document} :
    ofNotes notes = .ok e ↔ (notes.map Note.key).Nodup ∧ e = notes.foldl offer empty := by
  rw [ofNotes, foldlM_insert_eq_ok_iff]
  exact and_congr_right fun _ => and_iff_right fun _ _ => rfl

/-- Notes that are found in a document of notes are some of these. -/
theorem mem_of_ofNotes {notes : List Note} (h : ofNotes notes = .ok d)
    {key : Text} {n : Note} (hn : d.note? key = some n) : n ∈ notes := by
  obtain ⟨-, rfl⟩ := ofNotes_eq_ok_iff.mp h
  rw [note?_foldl_offer] at hn
  exact List.mem_of_find?_eq_some hn

/-- Of notes with different keys, each is the first with its key. -/
theorem find?_key_eq_some_iff {notes : List Note} (hnodup : (notes.map Note.key).Nodup) {k : Text}
    {n : Note} : (notes.find? fun m => m.key = k) = some n ↔ n ∈ notes ∧ n.key = k := by
  induction notes with
  | nil => simp
  | cons m rest ih =>
    obtain ⟨hm, hrest⟩ := List.nodup_cons.mp hnodup
    by_cases hk : m.key = k
    · have hother : n ∈ rest → n.key ≠ k := fun hn hkey =>
        hm (hk.trans hkey.symm ▸ List.mem_map_of_mem hn)
      rw [List.find?_cons_of_pos (by simpa using hk), Option.some.injEq, List.mem_cons]
      constructor
      · rintro rfl
        exact ⟨.inl rfl, hk⟩
      · rintro ⟨hn | hn, hkey⟩
        · exact hn.symm
        · exact absurd hkey (hother hn)
    · rw [List.find?_cons_of_neg (by simpa using hk), ih hrest, List.mem_cons]
      constructor
      · rintro ⟨hn, hkey⟩
        exact ⟨.inr hn, hkey⟩
      · rintro ⟨rfl | hn, hkey⟩
        · exact absurd hkey hk
        · exact ⟨hn, hkey⟩

/-- Notes with different keys are indexed, and each is found under its key. -/
theorem exists_ofNotes {notes : List Note} (hnodup : (notes.map Note.key).Nodup) :
    ∃ d, ofNotes notes = .ok d ∧ ∀ n ∈ notes, d.note? n.key = some n := by
  refine ⟨_, ofNotes_eq_ok_iff.mpr ⟨hnodup, rfl⟩, fun n hn => ?_⟩
  rw [note?_foldl_offer, (find?_key_eq_some_iff hnodup).mpr ⟨hn, rfl⟩]
  rfl

/-- Notes with different keys make the same document in any order. -/
theorem foldl_offer_perm {notes others : List Note} (hperm : notes.Perm others)
    (hnodup : (notes.map Note.key).Nodup) :
    notes.foldl offer empty = others.foldl offer empty := by
  have hothers : (others.map Note.key).Nodup := (hperm.map Note.key).nodup_iff.mp hnodup
  have hfind (k : Text) : (notes.find? fun m => m.key = k) = others.find? fun m => m.key = k := by
    apply Option.ext
    intro n
    rw [find?_key_eq_some_iff hnodup, find?_key_eq_some_iff hothers, hperm.mem_iff]
  have hnotes : (notes.foldl offer empty).notes = (others.foldl offer empty).notes := by
    apply Dictionary.ext_find?
    intro stored
    apply Option.ext
    intro n
    simp only [find?_foldl_offer_eq_some_iff, hfind]
  exact congrArg Document.mk hnotes

/-- Notes fail to be indexed with the first of them whose key occurs before, and the place of the
note that has it there. -/
theorem ofNotes_eq_error_iff {notes : List Note} {failure : Failure} :
    ofNotes notes = .error failure ↔ ∃ before n behind first,
      notes = before ++ n :: behind ∧ (before.map Note.key).Nodup ∧ first ∈ before ∧
        first.key = n.key ∧
        failure = .duplicateKey n.key first.origin.location n.origin.location := by
  rw [ofNotes, foldlM_eq_error_iff]
  constructor
  · rintro ⟨before, n, behind, c, hnotes, hc, hn⟩
    obtain ⟨hnodup, rfl⟩ := ofNotes_eq_ok_iff.mp hc
    obtain ⟨first, hfirst, hfailure⟩ := insert_eq_error_iff.mp hn
    rw [note?_foldl_offer] at hfirst
    obtain ⟨hmem, hkey⟩ := (find?_key_eq_some_iff hnodup).mp hfirst
    exact ⟨before, n, behind, first, hnotes, hnodup, hmem, hkey, hfailure⟩
  · rintro ⟨before, n, behind, first, hnotes, hnodup, hmem, hkey, hfailure⟩
    refine ⟨before, n, behind, _, hnotes, ofNotes_eq_ok_iff.mpr ⟨hnodup, rfl⟩,
      insert_eq_error_iff.mpr ⟨first, ?_, hfailure⟩⟩
    rw [note?_foldl_offer, (find?_key_eq_some_iff hnodup).mpr ⟨hmem, hkey⟩]
    rfl

/-- A document to which notes are offered one after another maps the stored form of each key to the
first of them with that key. The next note is refused exactly when its key was offered before, with
the places of the note that is there and of its own, and then nothing changes. So notes are indexed
exactly when their keys are different, in any order to the same document, and otherwise the first
one whose key occurs before is reported with the place of the note that has it. -/
theorem first_notes_are_indexed (notes : List Note) :
    let d := notes.foldl offer empty
    (∀ stored n, d.notes.find? stored = some n ↔
      ∃ k, stored = storedKey k ∧ (notes.find? fun m => m.key = k) = some n) ∧
    (∀ n failure, d.insert n = .error failure ↔
      ∃ first, (notes.find? fun m => m.key = n.key) = some first ∧
        failure = .duplicateKey n.key first.origin.location n.origin.location) ∧
    (∀ n failure, d.insert n = .error failure → (notes ++ [n]).foldl offer empty = d) ∧
    (∀ e, ofNotes notes = .ok e ↔ (notes.map Note.key).Nodup ∧ e = d) ∧
    (∀ others, notes.Perm others → ∀ e, ofNotes notes = .ok e → ofNotes others = .ok e) ∧
    (∀ failure, ofNotes notes = .error failure ↔ ∃ before n behind first,
      notes = before ++ n :: behind ∧ (before.map Note.key).Nodup ∧ first ∈ before ∧
        first.key = n.key ∧
        failure = .duplicateKey n.key first.origin.location n.origin.location) := by
  intro d
  refine ⟨fun stored n => find?_foldl_offer_eq_some_iff notes, fun n failure => ?_,
    fun n failure h => ?_, fun e => ofNotes_eq_ok_iff, fun others hperm e h => ?_,
    fun failure => ofNotes_eq_error_iff⟩
  · rw [insert_eq_error_iff, note?_foldl_offer]
    rfl
  · rw [List.foldl_append]
    exact offer_of_error h
  · obtain ⟨hnodup, rfl⟩ := ofNotes_eq_ok_iff.mp h
    have hothers : (others.map Note.key).Nodup := (hperm.map Note.key).nodup_iff.mp hnodup
    exact ofNotes_eq_ok_iff.mpr ⟨hothers, foldl_offer_perm hperm hnodup⟩

/-- A note with a key on a line. -/
def noteAt (key : Text) (line : Nat) : Note :=
  ⟨key, ⟨⟨"f".toList, [], [], []⟩, line, key⟩, .empty⟩

/-- Two notes in either order, and a third that is refused for the key of the first. -/
theorem first_notes_are_indexed_twoKeys :
    let a := noteAt ['a'] 1
    let b := noteAt ['b'] 2
    let c := noteAt ['a'] 3
    let d := [a, b].foldl offer empty
    d.insert c = .error (.duplicateKey ['a'] "f:1".toList "f:3".toList) ∧
      [a, b, c].foldl offer empty = d ∧ ofNotes [b, a] = .ok d := by
  intro a b c d
  obtain ⟨-, hrefused, hsame, hindexed, hperm, -⟩ := first_notes_are_indexed [a, b]
  have hc : d.insert c = .error (.duplicateKey ['a'] "f:1".toList "f:3".toList) :=
    (hrefused c _).mpr ⟨a, by decide, by decide⟩
  exact ⟨hc, hsame c _ hc,
    hperm [b, a] (List.Perm.swap b a []) d ((hindexed d).mpr ⟨by decide, rfl⟩)⟩

end Marginalia.Document
