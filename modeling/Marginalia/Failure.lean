import Marginalia.Text.Basic

/-!
# Failures

The causes for which reading sources, settings and documents or rendering templates can fail, one
constructor each. Wording, code and advice of a cause are functions of it.
-/

namespace Marginalia

/-- The reasons for which the file system refuses an operation. -/
inductive FileFault
  | notFound
  | exists
  | notDirectory
  | isDirectory
  | tooManyLinks
  | denied
  | invalidText
deriving DecidableEq

/-- The wording of a refusal, with the system's number where it has one. -/
def FileFault.message : FileFault → String
  | .notFound => "No such file or directory (os error 2)"
  | .exists => "File exists (os error 17)"
  | .notDirectory => "Not a directory (os error 20)"
  | .isDirectory => "Is a directory (os error 21)"
  | .tooManyLinks => "Too many levels of symbolic links (os error 40)"
  | .denied => "Permission denied (os error 13)"
  | .invalidText => "stream did not contain valid UTF-8"

/-- What is wrong with a settings file. -/
inductive SettingsFault
  | malformed
  | blankInitTag
deriving DecidableEq

/-- The wording of a fault of a settings file. -/
def SettingsFault.message : SettingsFault → String
  | .malformed => "the file does not have the form of a config"
  | .blankInitTag => "`initTag` must not be empty"

/-- Why the body of an expression is no call. -/
inductive SyntaxFault
  | notACall
  | emptyKey
deriving DecidableEq

/-- The wording of a fault of an expression. -/
def SyntaxFault.message : SyntaxFault → String
  | .notACall => "expected `key:method(args)`"
  | .emptyKey => "the key is empty"

/-- What is wrong with an argument of a call. -/
inductive ArgumentFault
  | missing
  | notAnIndex
  | notABit
deriving DecidableEq

/-- The wording of a fault of an argument. -/
def ArgumentFault.message : ArgumentFault → String
  | .missing => "missing argument"
  | .notAnIndex => "expected a non-negative integer"
  | .notABit => "mask bits must be 0 or 1"

/-- A cause of failure with what its wording needs. -/
inductive Failure
  | file (fault : FileFault)
  | settings (path : Text) (fault : SettingsFault)
  | pattern (pattern : Text)
  | missingKey (initTag path : Text) (line : Nat)
  | duplicateKey (key first second : Text)
  | expression (body : Text) (fault : SyntaxFault)
  | unknownKey (key : Text)
  | unknownTag (key tag : Text)
  | outOfRange (key tag : Text) (index size : Nat)
  | unknownField (key field : Text)
  | unknownMethod (name : Text)
  | argument (method : Text) (position : Nat) (fault : ArgumentFault)
  | document
  | tooLarge (path : Text) (size limit : Nat)
deriving DecidableEq

namespace Failure

/-- The wording of a failure. -/
def message : Failure → String
  | file fault => fault.message
  | settings path fault =>
    "failed to parse config file `" ++ .ofList path ++ "`: " ++ fault.message
  | pattern text => "invalid glob or exclude pattern `" ++ .ofList text ++ "`"
  | missingKey initTag path line =>
    "`@" ++ .ofList initTag ++ "` at " ++ .ofList path ++ ":" ++ toString line ++
      " is missing a key"
  | duplicateKey key first second =>
    "duplicate key `" ++ .ofList key ++ "`: defined at `" ++ .ofList first ++ "` and `" ++
      .ofList second ++ "`"
  | expression body fault =>
    "invalid expression `" ++ .ofList body ++ "`: " ++ fault.message
  | unknownKey key => "no documented block found for `doc." ++ .ofList key ++ "`"
  | unknownTag key tag =>
    "block `doc." ++ .ofList key ++ "` has no `@" ++ .ofList tag ++ "` tag"
  | outOfRange key tag index size =>
    "index " ++ toString index ++ " is out of range for `@" ++ .ofList tag ++ "` in `doc." ++
      .ofList key ++ "` (" ++ toString size ++ " occurrence(s))"
  | unknownField key field =>
    "unknown metadata field `" ++ .ofList field ++ "` on `doc." ++ .ofList key ++ "`"
  | unknownMethod name => "unknown method `" ++ .ofList name ++ "`"
  | argument method position fault =>
    "invalid argument " ++ toString position ++ " for `" ++ .ofList method ++ "`: " ++
      fault.message
  | document => "failed to read or write the canonical document"
  | tooLarge path size limit =>
    "file too large: `" ++ .ofList path ++ "` is " ++ toString size ++ " bytes (limit: " ++
      toString limit ++ " bytes)"

/-- The code under which a failure is reported. -/
def code : Failure → String
  | file .. => "doctag::io_error"
  | settings .. => "doctag::config_parse"
  | pattern .. => "doctag::invalid_pattern"
  | missingKey .. => "doctag::missing_key"
  | duplicateKey .. => "doctag::duplicate_key"
  | expression .. => "doctag::expression_syntax"
  | unknownKey .. => "doctag::unknown_key"
  | unknownTag .. => "doctag::unknown_tag"
  | outOfRange .. => "doctag::index_out_of_range"
  | unknownField .. => "doctag::unknown_meta"
  | unknownMethod .. => "doctag::unknown_method"
  | argument .. => "doctag::invalid_argument"
  | document => "doctag::canonical_json"
  | tooLarge .. => "doctag::file_too_large"

/-- The advice that goes with a failure, if there is any. -/
def help? : Failure → Option String
  | file .. => none
  | settings .. =>
    some "check that the config is valid JSON (doctag.json) or TOML (doctag.toml)"
  | pattern .. => none
  | missingKey initTag .. =>
    some ("write the key right after the tag, e.g. `@" ++ .ofList initTag ++ " my_key My Label`")
  | duplicateKey .. =>
    some "each documented block needs a key that is unique across the workspace"
  | expression .. => some "expressions look like `\x7b\x7b @doc.key:method(args) \x7d\x7d`"
  | unknownKey .. => some "run `doctag scan` again or check the key in the template"
  | unknownTag .. => none
  | outOfRange .. => none
  | unknownField .. => some "available fields: path, line, file, ext, lastEdit, key"
  | unknownMethod .. => some "available methods: get, count, has, meta, each"
  | argument .. => none
  | document => some "the canonical document is produced by `doctag scan`"
  | tooLarge .. => some "increase `maxFileSize` in the config or exclude this file"

end Failure

end Marginalia
