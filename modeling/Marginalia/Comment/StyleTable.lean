import Marginalia.Comment.Style
import Marginalia.Dictionary
import Marginalia.Text.Blank

/-!
# The table of comment styles

A table routes file extensions to language names and language names to styles. A lookup always
answers: what the table does not know is read in the slash style. A change whose name is that of a
language reaches every extension of the language; any other change gives one extension a style of
its own, so the extensions that shared the language keep theirs.
-/

namespace Marginalia.Comment

open Text

/-- An extension or language name as the table keeps it: without blanks around it and dots in
front, in lower case. -/
def normalizeName (name : Text) : Text :=
  toAsciiLower ((trim name).dropWhile (· == '.'))

/-- Styles by language name, and language names by extension. -/
structure StyleTable where
  languages : Dictionary Style
  extensions : Dictionary Text

namespace StyleTable

/-- The languages that are known from the start, with their extensions. -/
def builtinLanguages : List (String × List String × Style) := [
  ("rust", ["rs"], .rust),
  ("c", ["c", "h", "cc", "cpp", "cxx", "hpp", "hh", "cs", "java", "js", "jsx", "mjs", "cjs", "ts",
    "tsx", "mts", "cts", "go", "kt", "kts", "swift", "scala", "dart", "php"], .cLike),
  ("python", ["py", "pyi"], .python),
  ("ruby", ["rb"], .ruby),
  ("shell", ["sh", "bash", "zsh", "fish", "yaml", "yml", "toml", "r", "pl", "ps1"], .shell),
  ("sql", ["sql"], .sql),
  ("lua", ["lua"], .lua),
  ("haskell", ["hs", "lhs", "elm"], .haskell),
  ("css", ["css"], .css),
  ("scss", ["scss", "less"], .scss),
  ("markup", ["html", "htm", "xml", "svg", "vue", "svelte", "md", "mdx", "markdown"], .markup)]

/-- The table of the languages that are known from the start. -/
def builtin : StyleTable where
  languages := .ofList (builtinLanguages.map fun (name, _, style) => (name.toList, style))
  extensions := .ofList (builtinLanguages.flatMap fun (name, extensions, _) =>
    extensions.map fun extension => (extension.toList, name.toList))

/-- The style that an extension, in its kept form, is routed to. -/
def styleOfExtension? (table : StyleTable) (extension : Text) : Option Style :=
  (table.extensions.find? extension).bind table.languages.find?

/-- The style of a file with this extension. A language name that the table knows goes before
the extension. -/
def styleFor (table : StyleTable) (extension language : Option Text) : Style :=
  let named := language.bind fun name => table.languages.find? (normalizeName name)
  let routed := extension.bind fun name => table.styleOfExtension? (normalizeName name)
  (named <|> routed).getD .cLike

/-- The style of a language name or, if there is no such language, of an extension. -/
def styleForName (table : StyleTable) (name : Text) : Style :=
  let key := normalizeName name
  (table.languages.find? key <|> table.styleOfExtension? key).getD .cLike

/-- Whether an extension is routed to a language. -/
def knowsExtension (table : StyleTable) (extension : Text) : Bool :=
  table.extensions.contains (normalizeName extension)

/-- Route an extension to a language. -/
def route (table : StyleTable) (extension language : Text) : StyleTable :=
  { table with
    extensions := table.extensions.insert (normalizeName extension) (normalizeName language) }

/-- The name of the language that belongs to one changed extension alone. -/
def ownLanguage (extension : Text) : Text :=
  "ext:".toList ++ extension

/-- Apply the change of one name, given in its kept form. -/
def changeKept (table : StyleTable) (key : Text) (change : StyleChange) : StyleTable :=
  match table.languages.find? key with
  | some style => { table with languages := table.languages.insert key (style.applying change) }
  | none =>
    let current := (table.styleOfExtension? key).getD {}
    { languages := table.languages.insert (ownLanguage key) (current.applying change)
      extensions := table.extensions.insert key (ownLanguage key) }

/-- Apply changes in the order of their names as written. -/
def change (table : StyleTable) (changes : Dictionary StyleChange) : StyleTable :=
  changes.entries.foldl (fun t e => t.changeKept (normalizeName e.1) e.2) table

end StyleTable

end Marginalia.Comment
