/-!
# TOML documents

A document is a list of statements: assignments of values to dotted keys, and headers that name the
table which later assignments belong to.

## Main definitions

* `Toml.Value` — the values that settings are made of
* `Toml.Statement` — an assignment or a header
-/

namespace CommandShell.Toml

/-- A key path: the parts of a dotted key. -/
abbrev Path := List String

/-- The values that settings are made of. -/
inductive Value
  | text (s : String)
  | integer (n : Int)
  | boolean (b : Bool)
  | array (items : List Value)
  | table (entries : List (Path × Value))
  deriving Repr, Inhabited

/-- A statement of a document. -/
inductive Statement
  /-- `path = value` -/
  | assign (path : Path) (value : Value)
  /-- `[path]` -/
  | header (path : Path)
  /-- `[[path]]` -/
  | arrayHeader (path : Path)
  deriving Repr, Inhabited

end CommandShell.Toml
