import Marginalia.Proofs.Document
import Marginalia.Proofs.Note.Written
import Marginalia.Proofs.Template.Query

/-!
# From source comments to rendered templates

What is written in the tag lines of documented sources is what templates show: the source is read,
its notes are indexed, and a template that asks for a field of an occurrence gets the word that was
written there.
-/

namespace Marginalia

open Text Template

/-- A source of notes with different keys is read and indexed. Then a template that asks a note for
a field of an occurrence of a tag renders to the word with that position in the line with that
index, or to nothing if the line has fewer words, and one that asks for the number of occurrences
renders to the number of lines. -/
theorem render_writtenText (file : SourceFile) (notes : List (Comment.CodeLine × WrittenNote))
    (hkeys : (notes.map fun u => u.2.key.text).Nodup) :
    ∃ found d, Note.ofText "doc".toList .cLike file (writtenText notes) = .ok found ∧
      Document.ofNotes found = .ok d ∧
      ∀ u ∈ notes, ∀ tag : Text.Stretch isNameChar,
        (∀ i, (hi : i < (u.2.occurrences tag.text).length) → i < wordLimit → ∀ j,
          render d (getCall u.2.key tag i j).written.source =
            .ok (((u.2.occurrences tag.text)[i][j]?).getD [])) ∧
        render d (countCall u.2.key tag).written.source =
          .ok (ofNat (u.2.occurrences tag.text).length) := by
  have hnodup : ((writtenNotes file 0 notes).map Note.key).Nodup := by
    rwa [map_key_writtenNotes]
  obtain ⟨d, hd, hfind⟩ := Document.exists_ofNotes hnodup
  refine ⟨writtenNotes file 0 notes, d, ofText_writtenText file notes, hd, fun u hu tag => ?_⟩
  obtain ⟨k, hk⟩ := exists_note_mem_writtenNotes file 0 hu
  have hnote : d.note? u.2.key.text = some (u.2.note file k) := hfind _ hk
  have hoccurrences := u.2.occurrences?_note file k tag.text
  constructor
  · intro i hi hword j
    have hne : u.2.occurrences tag.text ≠ [] := List.ne_nil_of_length_pos (by omega)
    rw [if_neg hne] at hoccurrences
    exact (render_source_eq_ok_iff _).mpr (value_getCall hnote hoccurrences hi hword j)
  · have hcount : (((u.2.note file k).occurrences? tag.text).getD []) =
        u.2.occurrences tag.text := by
      rw [hoccurrences]
      split
      · rename_i hnil
        exact hnil.symm
      · rfl
    rw [render_source_eq_ok_iff, value_countCall hnote, hcount]

/-- Two notes with a line of code between, the first with two lines of one tag. -/
def twoNotes : List (Comment.CodeLine × WrittenNote) :=
  let code : Comment.CodeLine := ⟨[';'], by decide, fun h => absurd h.length_le (by decide),
    fun h => absurd h.length_le (by decide)⟩
  let word (c : Char) (h : (!isBlank c) = true) : Text.Stretch fun c => !isBlank c :=
    ⟨[c], List.cons_ne_nil _ _, by simpa using h⟩
  [(code, ⟨⟨['a'], by decide, List.forall_mem_singleton.mpr (by decide)⟩,
      [⟨⟨"t".toList, by decide, [word 'x' (by decide), word 'y' (by decide)]⟩, by decide⟩,
        ⟨⟨"t".toList, by decide, []⟩, by decide⟩]⟩),
    (code, ⟨⟨['b'], by decide, List.forall_mem_singleton.mpr (by decide)⟩, []⟩)]

/-- The second word of the first line, nothing from the second line, and the number of lines. -/
theorem render_writtenText_twoNotes :
    ∃ found d, Note.ofText "doc".toList .cLike ⟨[], [], [], []⟩
        "/// @doc a\n/// @t x y\n/// @t\n;\n/// @doc b".toList = .ok found ∧
      Document.ofNotes found = .ok d ∧
      render d "\x7b\x7b @doc.a:get('t', 0, 0, 1) \x7d\x7d".toList = .ok ['y'] ∧
      render d "\x7b\x7b @doc.a:get('t', 1, 1) \x7d\x7d".toList = .ok [] ∧
      render d "\x7b\x7b @doc.a:count('t') \x7d\x7d".toList = .ok ['2'] := by
  have htext : writtenText twoNotes =
      "/// @doc a\n/// @t x y\n/// @t\n;\n/// @doc b".toList := by decide
  obtain ⟨found, d, hfound, hd, hrender⟩ :=
    render_writtenText ⟨[], [], [], []⟩ twoNotes (by decide)
  rw [htext] at hfound
  obtain ⟨hget, hcount⟩ := hrender _ List.mem_cons_self
    ⟨['t'], List.cons_ne_nil _ _, List.forall_mem_singleton.mpr rfl⟩
  exact ⟨found, d, hfound, hd, hget 0 (by decide) (by decide) 1, hget 1 (by decide) (by decide) 0,
    hcount⟩

end Marginalia
