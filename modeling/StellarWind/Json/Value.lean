import StellarWind.Json.Token

/-!
# Values of a document

`Json` is a document as a tree. `Json.parse?` reads it from text with a stack of
open arrays and objects, one token at a time, so that no depth of nesting is too
much. `Json.compact` and `Json.pretty` write it.
-/

namespace StellarWind

inductive Json where
  | null
  | bool (value : Bool)
  | number (value : Numeral)
  /-- A text; `none` if its escapes do not spell characters. -/
  | text (value : Option String)
  | array (items : List Json)
  | object (members : List (Option String × Json))
deriving Inhabited

namespace Json

/-! ### Reading -/

/-- An array or an object that is still open. -/
inductive Frame where
  /-- The items so far, the last one first. -/
  | array (items : List Json)
  /-- The members so far, the last one first, and the key of the next. -/
  | object (members : List (Option String × Json)) (key : Option String)

/-- What may come next. -/
inductive Mode where
  | value
  /-- A value or the end of an array. -/
  | firstItem
  | firstKey (members : List (Option String × Json))
  | key (members : List (Option String × Json))
  | colon (members : List (Option String × Json)) (name : Option String)
  /-- A separator or an end: a value is complete. -/
  | after (value : Json)

/-- A reader between two tokens. -/
structure Reader where
  stack : List Frame
  mode : Mode

namespace Reader

def start : Reader := ⟨[], .value⟩

/-- Take a token where a value may come. -/
def value (stack : List Frame) : Token → Option Reader
  | .null => some ⟨stack, .after .null⟩
  | .bool b => some ⟨stack, .after (.bool b)⟩
  | .number n => some ⟨stack, .after (.number n)⟩
  | .text s => some ⟨stack, .after (.text s)⟩
  | .openBracket => some ⟨.array [] :: stack, .firstItem⟩
  | .openBrace => some ⟨stack, .firstKey []⟩
  | _ => none

/-- Take a token where a key has to come. -/
def key (stack : List Frame) (members : List (Option String × Json)) : Token → Option Reader
  | .text name => some ⟨stack, .colon members name⟩
  | _ => none

/-- Take a token behind a complete value. -/
def after (v : Json) : List Frame → Token → Option Reader
  | .array items :: stack, .comma => some ⟨.array (v :: items) :: stack, .value⟩
  | .array items :: stack, .closeBracket => some ⟨stack, .after (.array (v :: items).reverse)⟩
  | .object members name :: stack, .comma => some ⟨stack, .key ((name, v) :: members)⟩
  | .object members name :: stack, .closeBrace =>
    some ⟨stack, .after (.object ((name, v) :: members).reverse)⟩
  | _, _ => none

def step (r : Reader) (t : Token) : Option Reader :=
  match r.mode with
  | .value => value r.stack t
  | .firstItem =>
    match r.stack, t with
    | .array items :: stack, .closeBracket => some ⟨stack, .after (.array items.reverse)⟩
    | stack, t => value stack t
  | .firstKey members =>
    match t with
    | .closeBrace => some ⟨r.stack, .after (.object members.reverse)⟩
    | t => key r.stack members t
  | .key members => key r.stack members t
  | .colon members name =>
    match t with
    | .colon => some ⟨.object members name :: r.stack, .value⟩
    | _ => none
  | .after v => after v r.stack t

/-- The value, if all tokens have been taken. -/
def result? (r : Reader) : Option Json :=
  match r.stack, r.mode with
  | [], .after v => some v
  | _, _ => none

end Reader

def ofTokens? (ts : List Token) : Option Json := do
  (← ts.foldlM Reader.step Reader.start).result?

def parse? (text : String) : Option Json := do
  ofTokens? (← Token.scan text.toList)

/-! ### Writing -/

/-- The characters that stand for a character inside quotes. -/
def escape (c : Char) : List Char :=
  if c == '"' then ['\\', '"']
  else if c == '\\' then ['\\', '\\']
  else if c.toNat < 0x20 then
    '\\' :: 'u' :: '0' :: '0' :: [Nat.digitChar (c.toNat / 16), Nat.digitChar (c.toNat % 16)]
  else [c]

def quoted (s : Option String) : List Char :=
  '"' :: ((s.getD "").toList.flatMap escape ++ ['"'])

/-- The layout of a document: what stands between the parts of arrays and objects
at a depth. -/
structure Spacing where
  /-- Before each part. -/
  before : Nat → List Char
  ending : Nat → List Char
  colon : List Char

def Spacing.none : Spacing := ⟨fun _ => [], fun _ => [], []⟩

/-- A line for each part, with two blanks for each level. -/
def Spacing.lines : Spacing where
  before depth := '\n' :: List.replicate (2 * depth + 2) ' '
  ending depth := '\n' :: List.replicate (2 * depth) ' '
  colon := [' ']

mutual

/-- The characters of a value at a depth. -/
def render (sp : Spacing) (depth : Nat) : Json → List Char
  | .null => ['n', 'u', 'l', 'l']
  | .bool true => ['t', 'r', 'u', 'e']
  | .bool false => ['f', 'a', 'l', 's', 'e']
  | .number n => n.chars
  | .text s => quoted s
  | .array [] => ['[', ']']
  | .array (v :: vs) =>
    '[' :: (sp.before depth ++ render sp (depth + 1) v ++ renderItems sp depth vs)
  | .object [] => ['\x7b', '\x7d']
  | .object ((k, v) :: ms) =>
    '\x7b' :: (sp.before depth ++ quoted k ++ ':' :: (sp.colon ++ render sp (depth + 1) v) ++
      renderMembers sp depth ms)

def renderItems (sp : Spacing) (depth : Nat) : List Json → List Char
  | [] => sp.ending depth ++ [']']
  | v :: vs => ',' :: (sp.before depth ++ render sp (depth + 1) v ++ renderItems sp depth vs)

def renderMembers (sp : Spacing) (depth : Nat) : List (Option String × Json) → List Char
  | [] => sp.ending depth ++ ['\x7d']
  | (k, v) :: ms =>
    ',' :: (sp.before depth ++ quoted k ++ ':' :: (sp.colon ++ render sp (depth + 1) v) ++
      renderMembers sp depth ms)

end

def compact (v : Json) : String := String.ofList (render .none 0 v)

def pretty (v : Json) : String := String.ofList (render .lines 0 v)

end Json

end StellarWind
