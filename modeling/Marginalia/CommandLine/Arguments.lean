import Marginalia.Path

/-!
# Command lines

The words of a command line are read from the left. In front of the command stand options that
hold for every command; behind it stand the same options, where they take precedence, and those of
the command. An option has a long name behind two hyphens, perhaps a letter behind one, and perhaps
a value, which follows as a word of its own, behind an equals sign, or behind the letter. Letters
may share one hyphen. No option is given twice in one of the two places. A word is bytes, as the
paths in it are.
-/

namespace Marginalia.CommandLine

open Text

/-- An option without a value. -/
inductive Flag
  | verbose
  | noColor
  | dryRun
  | help
  | version
deriving DecidableEq

/-- An option with a value. -/
inductive Setting
  | root
  | out
  | document
  | format
deriving DecidableEq

/-- A piece of a command line. -/
inductive Item
  | flag (flag : Flag)
  | setting (setting : Setting) (value : Bytes)
  | word (word : Bytes)
deriving DecidableEq

/-- An option by the name that is written. -/
abbrev Named := Flag ⊕ Setting

/-- The long name of an option, and its letter if it has one. -/
def spelling : Named → String × Option Char
  | .inl .verbose => ("verbose", some 'v')
  | .inl .noColor => ("no-color", none)
  | .inl .dryRun => ("dry-run", none)
  | .inl .help => ("help", some 'h')
  | .inl .version => ("version", some 'V')
  | .inr .root => ("path", some 'p')
  | .inr .out => ("out", some 'o')
  | .inr .document => ("doc", none)
  | .inr .format => ("format", none)

/-- The options that every command has. -/
def sharedOptions : List Named :=
  [.inl .verbose, .inl .noColor, .inl .help, .inr .root]

/-- The hyphen as a byte. -/
def hyphen : UInt8 :=
  45

/-- The equals sign as a byte. -/
def equalsSign : UInt8 :=
  61

/-- Whether a word may follow an option as its value. -/
def isValue (word : Bytes) : Bool :=
  word.head? != some hyphen || word == [hyphen]

/-- Whether a byte is the letter of an option. -/
def hasLetter (b : UInt8) (option : Named) : Bool :=
  (spelling option).2.any fun letter => utf8 [letter] == [b]

/-- What letters behind one hyphen stand for, and the option whose value is the next word, if the
last of them needs one. -/
def readLetters (known : List Named) : Bytes → Option (List Item × Option Setting)
  | [] => some ([], none)
  | b :: rest =>
    match known.find? (hasLetter b) with
    | some (.inl flag) =>
      (readLetters known rest).map fun (items, open?) => (.flag flag :: items, open?)
    | some (.inr setting) =>
      if rest = [] then some ([], some setting)
      else some ([.setting setting ((after? [equalsSign] rest).getD rest)], none)
    | none => none

/-- What a long name, perhaps with a value behind an equals sign, stands for, and the option whose
value is the next word, if it needs one. -/
def readLong (known : List Named) (t : Bytes) : Option (List Item × Option Setting) :=
  let name := t.takeWhile (· ≠ equalsSign)
  match known.find? fun option => utf8 (spelling option).1.toList == name,
      t.dropWhile (· ≠ equalsSign) with
  | some (.inl flag), [] => some ([.flag flag], none)
  | some (.inr setting), [] => some ([], some setting)
  | some (.inr setting), _ :: value => some ([.setting setting value], none)
  | _, _ => none

/-- What a word that is no value stands for, and the option whose value is the next word, if it
needs one. -/
def readOption (known : List Named) (word : Bytes) : Option (List Item × Option Setting) :=
  match after? [hyphen, hyphen] word, after? [hyphen] word with
  | some name, _ => readLong known name
  | none, some letters => readLetters known letters
  | none, none => none

/-- The pieces of words and what is left of them, given the option that waits for its value. The
reading ends at a call for help, and, if it is to stop there, in front of the first word that is
no option. Behind two hyphens every word stands for itself. -/
def readItems (known : List Named) (stops : Bool) :
    Option Setting → List Bytes → Option (List Item × List Bytes)
  | none, [] => some ([], [])
  | some _, [] => none
  | some setting, word :: rest =>
    if isValue word then
      (readItems known stops none rest).map fun (items, left) =>
        (.setting setting word :: items, left)
    else none
  | none, word :: rest =>
    if word = [hyphen, hyphen] then some (rest.map .word, [])
    else if isValue word then
      if stops then some ([], word :: rest)
      else (readItems known stops none rest).map fun (items, left) => (.word word :: items, left)
    else
      match readOption known word with
      | none => none
      | some (items, waiting) =>
        if items.any (· ∈ [.flag .help, .flag .version]) then some (items, [])
        else
          (readItems known stops waiting rest).map fun (more, left) => (items ++ more, left)

/-- The options among pieces. -/
def options (items : List Item) : List Named :=
  items.filterMap fun
    | .flag flag => some (.inl flag)
    | .setting setting _ => some (.inr setting)
    | .word _ => none

/-- The words among pieces. -/
def words (items : List Item) : List Bytes :=
  items.filterMap fun
    | .word word => some word
    | _ => none

/-- Whether a flag is given. -/
def has (items : List Item) (flag : Flag) : Bool :=
  items.contains (.flag flag)

/-- The value of an option, if it is given. -/
def value? (items : List Item) (setting : Setting) : Option Bytes :=
  items.findSome? fun
    | .setting s value => if s = setting then some value else none
    | _ => none

/-- Whether no option is given twice and no value or word is empty. -/
def areSound (items : List Item) : Bool :=
  (options items).Nodup && items.all fun
    | .setting _ value => !value.isEmpty
    | .word word => !word.isEmpty
    | .flag _ => true

/-- The forms in which notes are listed. -/
inductive ListFormat
  | text
  | json
deriving DecidableEq

/-- The format with this name. -/
def ListFormat.ofName? (name : Bytes) : Option ListFormat :=
  if name = utf8 "text".toList then some .text
  else if name = utf8 "json".toList then some .json
  else none

/-- A command with its own options. -/
inductive Command
  | init
  | scan (out : Option Path)
  | transform (files : List Path) (document : Option Path) (dryRun : Bool)
  | list (document : Option Path) (format : ListFormat)
deriving DecidableEq

/-- The options that hold for every command. -/
structure Options where
  root : Option Path
  verbose : Bool
  noColor : Bool
deriving DecidableEq

/-- What a command line asks for. -/
inductive Request
  | run (options : Options) (command : Command)
  | noCommand
  | help
  | version
  | invalid
deriving DecidableEq

/-- The options of a command besides the shared ones. -/
def ownOptions (name : Bytes) : Option (List Named) :=
  if name = utf8 "init".toList then some []
  else if name = utf8 "scan".toList then some [.inr .out]
  else if name = utf8 "transform".toList then some [.inr .document, .inl .dryRun]
  else if name = utf8 "list".toList then some [.inr .document, .inr .format]
  else none

/-- The command with this name that pieces behind it make up. Only a transformation takes words. -/
def command? (name : Bytes) (items : List Item) : Option Command :=
  let path (setting : Setting) : Option Path := (value? items setting).map Path.mk
  if name = utf8 "transform".toList then
    some (.transform ((words items).map Path.mk) (path .document) (has items .dryRun))
  else if (words items) ≠ [] then none
  else if name = utf8 "init".toList then some .init
  else if name = utf8 "scan".toList then some (.scan (path .out))
  else if name = utf8 "list".toList then
    match value? items .format with
    | none => some (.list (path .document) .text)
    | some format => (ListFormat.ofName? format).map (.list (path .document))
  else none

/-- The shared options of pieces in front of a command and behind it. -/
def sharedOf (front back : List Item) : Options where
  root := ((value? back .root) <|> (value? front .root)).map Path.mk
  verbose := has front .verbose || has back .verbose
  noColor := has front .noColor || has back .noColor

/-- What pieces in front of a command, its name and the words behind it ask for. -/
def requestOf (front : List Item) (name : Bytes) (rest : List Bytes) : Request :=
  match ownOptions name with
  | none => if name = utf8 "help".toList then .help else .invalid
  | some own =>
    match readItems (own ++ sharedOptions) false none rest with
    | none => .invalid
    | some (items, _) =>
      if !areSound items then .invalid
      else if has items .help then .help
      else
        match command? name items with
        | some command => .run (sharedOf front items) command
        | none => .invalid

/-- What a command line asks for. -/
def request (arguments : List Bytes) : Request :=
  match readItems (.inl .version :: sharedOptions) true none arguments with
  | none => .invalid
  | some (front, left) =>
    if !areSound front || words front ≠ [] then .invalid
    else if has front .help then .help
    else if has front .version then .version
    else
      match left with
      | [] => .noCommand
      | name :: rest => requestOf front name rest

end Marginalia.CommandLine
