/-!
# JSON documents

JSON values whose objects keep the order of their entries, and their compact text: no blanks, and
no escapes but for quotes, backslashes and control characters.

## Main definitions

* `Json` — a JSON value
* `Json.quote` — a string in its written form
* `Json.render` — the compact text of a value
-/

namespace CommandShell

/-- A JSON value. A number is an integer if its text has neither a fraction nor an exponent; of
any other number only the text is kept. -/
inductive Json
  | null
  | bool (b : Bool)
  | int (n : Int)
  | number (literal : String)
  | str (s : String)
  | arr (items : List Json)
  | obj (entries : List (String × Json))
  deriving Repr, Inhabited

namespace Json

/-- A digit of a hexadecimal number below 16, in lower case. -/
def hexDigit (n : Nat) : Char := if n < 10 then .ofNat (48 + n) else .ofNat (87 + n)

/-- The written form of one character of a string. -/
def escape : Char → List Char
  | '"' => ['\\', '"']
  | '\\' => ['\\', '\\']
  | '\x08' => ['\\', 'b']
  | '\x0c' => ['\\', 'f']
  | '\n' => ['\\', 'n']
  | '\r' => ['\\', 'r']
  | '\t' => ['\\', 't']
  | c =>
    if c.toNat < 0x20 then
      ['\\', 'u', '0', '0', hexDigit (c.toNat / 16), hexDigit (c.toNat % 16)]
    else [c]

def quote (s : String) : String := .ofList ('"' :: s.toList.flatMap escape ++ ['"'])

mutual

/-- The compact text of a JSON value. -/
def render : Json → String
  | null => "null"
  | bool b => if b then "true" else "false"
  | int n => toString n
  | number literal => literal
  | str s => quote s
  | arr items => "[" ++ ",".intercalate (renderItems items) ++ "]"
  | obj entries => "\x7b" ++ ",".intercalate (renderEntries entries) ++ "\x7d"

def renderItems : List Json → List String
  | [] => []
  | item :: items => render item :: renderItems items

def renderEntries : List (String × Json) → List String
  | [] => []
  | (key, value) :: entries => (quote key ++ ":" ++ render value) :: renderEntries entries

end

end Json

end CommandShell
