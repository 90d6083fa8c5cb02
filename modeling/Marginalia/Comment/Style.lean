import Marginalia.Text.Basic

/-!
# Comment styles

How one language writes its comments: marks that make the rest of a line a comment, and
delimiters around comments of several lines, each in a plain and a documentation form. A change
of style sets some of these parts and leaves the others.
-/

namespace Marginalia.Comment

/-- The marks that open and close a block comment. -/
structure Delimiters where
  opening : Text
  closing : Text
deriving DecidableEq

/-- The comment syntax of one language. Of several line marks the first that fits is used. -/
structure Style where
  line : List Text := []
  docLine : List Text := []
  block : Option Delimiters := none
  docBlock : Option Delimiters := none
deriving DecidableEq, Inhabited

/-- A change of some parts of a style; a part that is `none` stays as it was. -/
structure StyleChange where
  line : Option (List Text) := none
  docLine : Option (List Text) := none
  block : Option Delimiters := none
  docBlock : Option Delimiters := none
deriving DecidableEq, Inhabited

namespace Style

/-- The style with the parts that a change sets. -/
def applying (style : Style) (change : StyleChange) : Style where
  line := change.line.getD style.line
  docLine := change.docLine.getD style.docLine
  block := change.block <|> style.block
  docBlock := change.docBlock <|> style.docBlock

/-- Two slashes for a line and a slash with a star for a block. -/
def cLike : Style where
  line := ["//".toList]
  docLine := ["///".toList]
  block := some ⟨"/*".toList, "*/".toList⟩
  docBlock := some ⟨"/**".toList, "*/".toList⟩

/-- The slash style, with a second mark for documentation of the enclosing item. -/
def rust : Style :=
  { cLike with docLine := ["///".toList, "//!".toList] }

/-- Number signs, and strings in three double or single quotes. -/
def python : Style where
  line := ["#".toList]
  block := some ⟨"\"\"\"".toList, "\"\"\"".toList⟩
  docBlock := some ⟨"'''".toList, "'''".toList⟩

/-- Number signs, and blocks between the words of a begin and an end. -/
def ruby : Style where
  line := ["#".toList]
  block := some ⟨"=begin".toList, "=end".toList⟩

/-- Number signs only. -/
def shell : Style where
  line := ["#".toList]

/-- Two hyphens for a line and the slash style for a block. -/
def sql : Style where
  line := ["--".toList]
  block := some ⟨"/*".toList, "*/".toList⟩

/-- Two hyphens for a line, three for documentation. -/
def lua : Style where
  line := ["--".toList]
  docLine := ["---".toList]

/-- Two hyphens for a line and a brace with a hyphen for a block; a bar makes documentation. -/
def haskell : Style where
  line := ["--".toList]
  docLine := ["-- |".toList]
  block := some ⟨"\x7b-".toList, "-\x7d".toList⟩
  docBlock := some ⟨"\x7b-|".toList, "-\x7d".toList⟩

/-- Blocks of the slash style only. -/
def css : Style where
  block := some ⟨"/*".toList, "*/".toList⟩

/-- The slash style without documentation forms. -/
def scss : Style :=
  { cLike with docLine := [], docBlock := none }

/-- Comments of tagged markup. -/
def markup : Style where
  block := some ⟨"<!--".toList, "-->".toList⟩

end Style

end Marginalia.Comment
