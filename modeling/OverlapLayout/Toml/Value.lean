/-!
  Values of a TOML document.

  A document is a table; a table maps keys to values, in the order written.
  Offset date-times, local date-times, local dates and local times are kept
  as their text, since nothing here reads them.
-/

namespace OverlapLayout

/-- A value of a TOML document. -/
inductive TomlValue
  /-- A string. -/
  | string (s : String)
  /-- An integer, within the range of a signed 64-bit word. -/
  | integer (i : Int)
  /-- A float. -/
  | float (x : Float)
  /-- A boolean. -/
  | boolean (b : Bool)
  /-- A date, time or date-time, as written. -/
  | datetime (text : String)
  /-- An array. -/
  | array (items : List TomlValue)
  /-- A table, in the order its keys were written. -/
  | table (entries : List (String × TomlValue))
  deriving Inhabited

namespace TomlValue

/-- The value of a key of a table. -/
def get? (entries : List (String × TomlValue)) (key : String) : Option TomlValue :=
  (entries.find? (·.1 == key)).map (·.2)

end TomlValue

end OverlapLayout
