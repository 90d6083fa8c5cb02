import Marginalia.Text.Basic

/-!
# JSON values

A JSON value with its strings and numbers as they are written, so that reading a value never
fails on a string that nobody asks for. Members of an object keep their order and may repeat a
name.
-/

namespace Marginalia

/-- A JSON value. A string and a member name are kept without quotes and with their escapes. -/
inductive Json
  | null
  | bool (value : Bool)
  | number (written : Text)
  | string (written : Text)
  | array (items : List Json)
  | object (members : List (Text × Json))
deriving Inhabited

end Marginalia
