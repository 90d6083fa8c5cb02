import Marginalia.Proofs.Outcome
import Marginalia.Proofs.Toml
import Marginalia.Settings.Stored

/-!
# Loaded settings

Whatever the format of a settings file, the limit on the size of sources that it sets fits into a
word, as the default does.
-/

namespace Marginalia

open Text

/-- A number that is given or has a default fits into a word if the default does. -/
theorem Datum.lt_of_fieldOr_natural? {default n : Nat} {field : Option Datum}
    (hdefault : default < wordLimit) (hfield : ∀ datum ∈ field, datum.FitsWords)
    (h : fieldOr default natural? field = some n) : n < wordLimit := by
  cases field with
  | none =>
    obtain rfl := Option.some.inj h
    exact hdefault
  | some datum =>
    cases hfield datum rfl with
    | natural hvalue =>
      obtain rfl := Option.some.inj h
      exact hvalue
    | _ => cases h

namespace Settings

variable {settings : Settings}

/-- The limit on the size of sources fits into a word if the numbers of the data do. -/
theorem maxFileSize_lt_of_ofDatum? {longer : Bool} {datum : Datum} (hdatum : datum.FitsWords)
    (h : ofDatum? longer datum = some settings) : settings.maxFileSize < wordLimit := by
  obtain ⟨fields, hfields, h⟩ := Option.bind_eq_some_iff.mp h
  split at h
  · rename_i initTag patterns languages includes excludes disable size path directories
    have hsize := hdatum.of_mem_record? hfields size (by simp)
    simp only [Option.bind_eq_bind, Option.bind_eq_some_iff, Option.pure_def,
      Option.some.injEq] at h
    obtain ⟨_, -, _, -, _, -, _, -, _, -, _, -, _, -, limit, hlimit, _, -, rfl⟩ := h
    exact Datum.lt_of_fieldOr_natural? (by decide) hsize hlimit
  · cases h

/-- The limit on the size of sources that a settings file sets fits into a word. -/
theorem maxFileSize_lt_of_ofText? {path : Path} {t : Text} (h : ofText? path t = some settings) :
    settings.maxFileSize < wordLimit := by
  rw [ofText?] at h
  split at h
  · obtain ⟨datum, hdatum, h⟩ := Option.bind_eq_some_iff.mp h
    exact maxFileSize_lt_of_ofDatum? (Toml.fitsWords_read? hdatum) h
  · obtain ⟨json, -, h⟩ := Option.bind_eq_some_iff.mp h
    exact maxFileSize_lt_of_ofDatum? (Datum.fitsWords_ofJson json) h

/-- The limit on the size of the sources of a workspace fits into a word. -/
theorem maxFileSize_lt_of_loadOrDefault {tree : FileTree} {root : Path}
    (h : loadOrDefault tree root = .ok settings) : settings.maxFileSize < wordLimit := by
  obtain ⟨found, hfound, rfl⟩ := map_eq_ok_iff.mp h
  rw [loadFound?] at hfound
  split at hfound
  · obtain ⟨loaded, hloaded, rfl⟩ := map_eq_ok_iff.mp hfound
    obtain ⟨t, -, hread⟩ := bind_eq_ok_iff.mp hloaded
    rw [read] at hread
    split at hread
    · rename_i hofText
      split at hread
      · cases hread
      · obtain rfl := Except.ok.inj hread
        exact maxFileSize_lt_of_ofText? hofText
    · cases hread
  · obtain rfl := Except.ok.inj hfound
    change 10 * 1024 * 1024 < wordLimit
    decide

end Settings

end Marginalia
