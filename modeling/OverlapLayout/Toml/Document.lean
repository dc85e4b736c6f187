import OverlapLayout.Toml.Scalar
/-!
  TOML documents and the rules by which tables are defined.

  * `Node`: the table tree as it is being read. A table records how it came
    to be: as the parent of a header (`implicit`), by a header (`header`), or
    by a dotted key (`dotted`). An inline table or an array written as a
    value is a closed `leaf`; arrays of tables grow by `[[…]]` headers.
  * `descend`: the table at a path. Missing tables are created, an array of
    tables stands for its last table, and a value cannot be entered. Dotted
    keys may only enter tables created implicitly.
  * `defineTable`, `appendTable`: a `[…]` header defines a table once, also
    one first created as the parent of another header, but never one created
    by dotted keys; a `[[…]]` header adds a table to an array of tables.
  * `insertKey`: a key is written once per table; a dotted key writes into
    tables created by dotted keys only, a plain key into the others.
  * `parseDocument`: reads a whole document into its root table; a leading
    byte order mark is skipped. Arrays and inline tables nest, and dotted
    keys have parts, fewer than `nestingLimit` deep.
-/

namespace OverlapLayout

namespace Toml

/-- How a table came to be. -/
inductive Origin
  /-- As the parent of a header. -/
  | implicit
  /-- By a header. -/
  | header
  /-- By a dotted key. -/
  | dotted
  deriving DecidableEq, Repr

/-- The table tree of a document being read. -/
inductive Node
  /-- A value; inline tables and arrays written as values are closed. -/
  | leaf (v : TomlValue)
  /-- A table and how it came to be. -/
  | table (origin : Origin) (entries : List (String × Node))
  /-- An array of tables, in order. -/
  | tables (items : List (List (String × Node)))
  deriving Inhabited

/-- The entries of a table. -/
abbrev Entries := List (String × Node)

mutual
/-- The value of a node. -/
def Node.toValue : Node → TomlValue
  | .leaf v => v
  | .table _ es => .table (entriesToValue es)
  | .tables ts => .array (tablesToValue ts)

/-- The values of a table's entries. -/
def entriesToValue : Entries → List (String × TomlValue)
  | [] => []
  | (k, n) :: rest => (k, n.toValue) :: entriesToValue rest

/-- The values of an array of tables. -/
def tablesToValue : List Entries → List TomlValue
  | [] => []
  | es :: rest => .table (entriesToValue es) :: tablesToValue rest
end

/-- The node of a key. -/
def lookup (es : Entries) (k : String) : Option Node := (es.find? (·.1 == k)).map (·.2)

/-- Replaces the node of a key. -/
def replace (es : Entries) (k : String) (n : Node) : Entries :=
  es.map fun (k', n') => if k' == k then (k', n) else (k', n')

/-- Replaces the last element of a list. -/
def setLast {α : Type} : List α → α → List α
  | [], _ => []
  | [_], b => [b]
  | a :: rest, b => a :: setLast rest b

/-- Applies `f` to the entries of the table at `path`, creating missing tables
with origin `fresh`; `dotted` refuses to enter tables not created implicitly. -/
def descend (dotted : Bool) (fresh : Origin) (f : Entries → Option Entries) :
    List String → Entries → Option Entries
  | [], es => f es
  | k :: ks, es =>
    match lookup es k with
    | none => do
      let sub ← descend dotted fresh f ks []
      some (es ++ [(k, .table fresh sub)])
    | some (.table o sub) =>
      if dotted && o == .header then none
      else do
        let sub ← descend dotted fresh f ks sub
        some (replace es k (.table o sub))
    | some (.tables ts) =>
      match ts.getLast? with
      | some last => do
        let sub ← descend dotted fresh f ks last
        some (replace es k (.tables (setLast ts sub)))
      | none => none
    | some (.leaf _) => none

/-- The origin of the table at `path`, an array of tables standing for its last table. -/
def originAt : List String → Entries → Option Origin
  | [], _ => some .header
  | [k], es =>
    match lookup es k with
    | some (.table o _) => some o
    | some (.tables _) => some .header
    | _ => none
  | k :: ks, es =>
    match lookup es k with
    | some (.table _ sub) => originAt ks sub
    | some (.tables ts) => ts.getLast?.bind (originAt ks)
    | _ => none

/-- Defines the table `[path]`. -/
def defineTable (path : List String) (root : Entries) : Option Entries :=
  match path.reverse with
  | [] => none
  | k :: parentRev =>
    descend false .implicit (fun es =>
      match lookup es k with
      | none => some (es ++ [(k, .table .header [])])
      | some (.table .implicit sub) => some (replace es k (.table .header sub))
      | some _ => none) parentRev.reverse root

/-- Adds a table to the array of tables `[[path]]`. -/
def appendTable (path : List String) (root : Entries) : Option Entries :=
  match path.reverse with
  | [] => none
  | k :: parentRev =>
    descend false .implicit (fun es =>
      match lookup es k with
      | none => some (es ++ [(k, .tables [[]])])
      | some (.tables ts) => some (replace es k (.tables (ts ++ [[]])))
      | some _ => none) parentRev.reverse root

/-- Writes `v` at the dotted key `key` of the table `table`. -/
def insertKey (table : List String) (key : List String) (v : Node) (root : Entries) :
    Option Entries :=
  match key.reverse with
  | [] => none
  | k :: prefixRev =>
    let prefixKeys := prefixRev.reverse
    descend false .implicit (fun es =>
      descend true .dotted (fun target => some target) prefixKeys es |>.bind fun es =>
        -- the table written into must be dotted exactly when the key is
        let targetOrigin := if prefixKeys.isEmpty then some .header else originAt prefixKeys es
        if (targetOrigin == some .dotted) != !prefixKeys.isEmpty then none
        else descend true .dotted (fun target =>
          match lookup target k with
          | none => some (target ++ [(k, v)])
          | some _ => none) prefixKeys es) table root

/-- The bound on the nesting of values and on the parts of a key. -/
def nestingLimit : Nat := 80

/-- Reads a dotted key of fewer than `nestingLimit` parts. -/
def boundedKey (cs : Chars) : Option (List String × Chars) := do
  let (key, rest) ← dottedKey cs
  if key.length < nestingLimit then some (key, rest) else none

/-- Reads the rest of a line after an expression: blanks, a comment, a line end. -/
def endOfLine (cs : Chars) : Option Chars := do
  match ← skipComment (skipBlanks cs) with
  | [] => some []
  | rest => lineEnd? rest

mutual
/-- Reads a value nested `depth` deep; `fuel` bounds the steps. -/
def parseValue : Nat → Nat → Chars → Option (TomlValue × Chars)
  | 0, _, _ => none
  | n + 1, depth, cs =>
    match cs with
    | '[' :: rest => do
      if nestingLimit ≤ depth + 1 then none
      else parseArray n (depth + 1) (← skipTrivia rest) []
    | '{' :: rest =>
      if nestingLimit ≤ depth + 1 then none
      else parseInline n (depth + 1) (skipBlanks rest) [] true
    | '"' :: '"' :: '"' :: rest => (multiLine '"' true rest).map fun (s, r) => (.string s, r)
    | '\'' :: '\'' :: '\'' :: rest => (multiLine '\'' false rest).map fun (s, r) => (.string s, r)
    | '"' :: rest => (basicString rest).map fun (s, r) => (.string s, r)
    | '\'' :: rest => (literalString rest).map fun (s, r) => (.string s, r)
    | _ => scalar cs

/-- Reads the items of an array nested `depth` deep into `acc`, reversed, from an
item or the closing bracket. -/
def parseArray : Nat → Nat → Chars → List TomlValue → Option (TomlValue × Chars)
  | 0, _, _, _ => none
  | n + 1, depth, cs, acc =>
    match cs with
    | ']' :: rest => some (.array acc.reverse, rest)
    | _ => do
      let (v, rest) ← parseValue n depth cs
      match ← skipTrivia rest with
      | ',' :: more => parseArray n depth (← skipTrivia more) (v :: acc)
      | ']' :: more => some (.array (v :: acc).reverse, more)
      | _ => none

/-- Reads the key/value pairs of an inline table nested `depth` deep into `es`,
from a pair or (when `first`) the closing brace. -/
def parseInline : Nat → Nat → Chars → Entries → Bool → Option (TomlValue × Chars)
  | 0, _, _, _, _ => none
  | n + 1, depth, cs, es, first =>
    match cs, first with
    | '}' :: rest, true => some ((Node.table .header es).toValue, rest)
    | _, _ => do
      let (key, rest) ← boundedKey cs
      let rest ← match skipBlanks rest with
        | '=' :: more => some (skipBlanks more)
        | _ => none
      let (v, rest) ← parseValue n depth rest
      let es ← insertKey [] key (.leaf v) es
      match skipBlanks rest with
      | ',' :: more => parseInline n depth (skipBlanks more) es false
      | '}' :: more => some ((Node.table .header es).toValue, more)
      | _ => none
end

/-- Reads the expressions of a document from `cs`, the current table being
`table`. -/
def parseLines (fuel : Nat) : Nat → Chars → List String → Entries → Option Entries
  | 0, _, _, _ => none
  | n + 1, cs, table, root =>
    match skipBlanks cs with
    | [] => some root
    | '[' :: '[' :: rest => do
      let (path, rest) ← boundedKey (skipBlanks rest)
      let rest ← match skipBlanks rest with
        | ']' :: ']' :: more => some more
        | _ => none
      parseLines fuel n (← endOfLine rest) path (← appendTable path root)
    | '[' :: rest => do
      let (path, rest) ← boundedKey (skipBlanks rest)
      let rest ← match skipBlanks rest with
        | ']' :: more => some more
        | _ => none
      parseLines fuel n (← endOfLine rest) path (← defineTable path root)
    | cs =>
      match lineEnd? cs, cs with
      | some rest, _ => parseLines fuel n rest table root
      | none, '#' :: _ => do parseLines fuel n (← endOfLine cs) table root
      | none, _ => do
        let (key, rest) ← boundedKey cs
        let rest ← match skipBlanks rest with
          | '=' :: more => some (skipBlanks more)
          | _ => none
        let (v, rest) ← parseValue fuel 0 rest
        parseLines fuel n (← endOfLine rest) table (← insertKey table key (.leaf v) root)

/-- Reads a whole document into its root table. -/
def parseDocument (text : String) : Option (List (String × TomlValue)) :=
  let cs := match text.toList with
    | '\uFEFF' :: rest => rest
    | cs => cs
  (parseLines (2 * cs.length + 2) (cs.length + 1) cs [] []).map entriesToValue

end Toml

end OverlapLayout
