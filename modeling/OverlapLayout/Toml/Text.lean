/-!
  The lexical layer of TOML: blanks, comments, line ends, strings and keys.

  Every scanner takes the characters still to read and answers what it read
  with the characters after it, or `none` when the text is not TOML.

  * Comments run from `#` to the line end and may hold tabs, printable ASCII
    and any non-ASCII character.
  * Basic strings (`"…"`) take the escapes `\b \t \n \f \r \" \\ \uXXXX
    \UXXXXXXXX`, the last two naming a Unicode scalar value. Literal strings
    (`'…'`) take none. Neither may hold a control character other than tab.
  * Multi-line strings (`"""…"""`, `'''…'''`) drop a line end right after
    the opening, may hold line ends and up to two quotes in a row, and end at
    the last three of a run of three to five quotes. In the basic form a
    backslash at a line end removes the blanks and line ends after it.
  * Keys are bare (ASCII letters, digits, `_` and `-`) or quoted, and dotted
    keys join them with `.`, blanks allowed around the dots.
-/

namespace OverlapLayout

namespace Toml

/-- Characters still to read. -/
abbrev Chars := List Char

/-- A space or a tab. -/
def isBlank (c : Char) : Bool := c == ' ' || c == '\t'

/-- Drops leading spaces and tabs. -/
def skipBlanks (cs : Chars) : Chars := cs.dropWhile isBlank

/-- A character that may stand in a comment. -/
def commentChar (c : Char) : Bool := c == '\t' || (0x20 ≤ c.val && c.val != 0x7F)

/-- Reads an optional comment, up to its line end. -/
def skipComment : Chars → Option Chars
  | '#' :: rest =>
    let body := rest.takeWhile fun c => c != '\n' && c != '\r'
    if body.all commentChar then some (rest.drop body.length) else none
  | cs => some cs

/-- Reads a line end: a line feed, or a carriage return and a line feed. -/
def lineEnd? : Chars → Option Chars
  | '\n' :: rest => some rest
  | '\r' :: '\n' :: rest => some rest
  | _ => none

/-- Reads blanks, comments and line ends, as between the items of an array. -/
def skipTrivia (cs : Chars) : Option Chars :=
  go (cs.length + 1) cs
where
  /-- Each round reads a blank, a line end or a comment with its line end. -/
  go : Nat → Chars → Option Chars
    | 0, _ => none
    | _ + 1, [] => some []
    | n + 1, c :: rest =>
      if isBlank c then go n rest
      else match lineEnd? (c :: rest) with
        | some more => go n more
        | none =>
          if c == '#' then do
            let more ← skipComment (c :: rest)
            match more with
            | [] => some []
            | _ => go n (← lineEnd? more)
          else if c == '\r' then none
          else some (c :: rest)

/-- The value of a hexadecimal digit. -/
def hexDigit? (c : Char) : Option Nat :=
  if '0' ≤ c && c ≤ '9' then some (c.toNat - '0'.toNat)
  else if 'a' ≤ c && c ≤ 'f' then some (c.toNat - 'a'.toNat + 10)
  else if 'A' ≤ c && c ≤ 'F' then some (c.toNat - 'A'.toNat + 10)
  else none

/-- The number written by hexadecimal digits. -/
def hexValue? (ds : List Char) : Option Nat :=
  ds.foldlM (fun n c => (hexDigit? c).map (16 * n + ·)) 0

/-- The character of a code point that is a Unicode scalar value. -/
def scalar? (n : Nat) : Option Char :=
  if n < 0xD800 || (0xDFFF < n && n ≤ 0x10FFFF) then some (Char.ofNat n) else none

/-- A character that may stand unescaped in a basic string. -/
def basicChar (c : Char) : Bool :=
  c == '\t' || (0x20 ≤ c.val && c.val != 0x7F && c != '"' && c != '\\')

/-- A character that may stand in a literal string. -/
def literalChar (c : Char) : Bool := c == '\t' || (0x20 ≤ c.val && c.val != 0x7F && c != '\'')

/-- Reads an escape after its backslash. -/
def escape? : Chars → Option (Char × Chars)
  | 'b' :: rest => some ('\x08', rest)
  | 't' :: rest => some ('\t', rest)
  | 'n' :: rest => some ('\n', rest)
  | 'f' :: rest => some ('\x0c', rest)
  | 'r' :: rest => some ('\r', rest)
  | '"' :: rest => some ('"', rest)
  | '\\' :: rest => some ('\\', rest)
  | 'u' :: rest => do
    let c ← scalar? (← hexValue? (rest.take 4))
    if (rest.take 4).length == 4 then some (c, rest.drop 4) else none
  | 'U' :: rest => do
    let c ← scalar? (← hexValue? (rest.take 8))
    if (rest.take 8).length == 8 then some (c, rest.drop 8) else none
  | _ => none

/-- Reads the rest of a basic string after its opening quote. -/
def basicString (cs : Chars) : Option (String × Chars) :=
  go cs.length cs []
where
  /-- Reads characters into `acc`, reversed. -/
  go : Nat → Chars → List Char → Option (String × Chars)
    | 0, _, _ => none
    | _ + 1, [], _ => none
    | _ + 1, '"' :: rest, acc => some (String.ofList acc.reverse, rest)
    | n + 1, '\\' :: rest, acc => do
      let (c, rest) ← escape? rest
      go n rest (c :: acc)
    | n + 1, c :: rest, acc => if basicChar c then go n rest (c :: acc) else none

/-- Reads the rest of a literal string after its opening quote. -/
def literalString (cs : Chars) : Option (String × Chars) :=
  let body := cs.takeWhile literalChar
  match cs.drop body.length with
  | '\'' :: rest => some (String.ofList body, rest)
  | _ => none

/-- The number of leading characters equal to `q`. -/
def runOf (q : Char) (cs : Chars) : Nat := (cs.takeWhile (· == q)).length

/-- Drops blanks and line ends after a line-ending backslash. -/
def trimFolded (cs : Chars) : Chars :=
  cs.dropWhile fun c => isBlank c || c == '\n' || c == '\r'

/-- Reads the rest of a multi-line string after its opening `q q q`; `basic`
selects escapes and line-ending backslashes. -/
def multiLine (q : Char) (basic : Bool) (cs : Chars) : Option (String × Chars) :=
  let cs := match cs with
    | '\n' :: rest => rest
    | '\r' :: '\n' :: rest => rest
    | _ => cs
  go cs.length cs []
where
  /-- Reads characters into `acc`, reversed. -/
  go : Nat → Chars → List Char → Option (String × Chars)
    | 0, _, _ => none
    | _ + 1, [], _ => none
    | n + 1, c :: rest, acc =>
      if c == q then
        let run := runOf q (c :: rest)
        if run < 3 then go n rest (c :: acc)
        else if run ≤ 5 then
          some (String.ofList (acc.reverse ++ List.replicate (run - 3) q), (c :: rest).drop run)
        else none
      else if c == '\n' then go n rest (c :: acc)
      else if c == '\r' then
        match rest with
        | '\n' :: more => go n more ('\n' :: '\r' :: acc)
        | _ => none
      else if basic && c == '\\' then
        let afterBlanks := skipBlanks rest
        match lineEnd? afterBlanks with
        | some _ => go n (trimFolded afterBlanks) acc
        | none => do
          let (e, more) ← escape? rest
          go n more (e :: acc)
      else if (if basic then basicChar c else literalChar c) then go n rest (c :: acc)
      else none

/-- A character of a bare key. -/
def bareKeyChar (c : Char) : Bool := c.isAlphanum || c == '_' || c == '-'

/-- Reads one key: bare, or a single-line quoted string. -/
def simpleKey : Chars → Option (String × Chars)
  | '"' :: rest => basicString rest
  | '\'' :: rest => literalString rest
  | cs =>
    let k := cs.takeWhile bareKeyChar
    if k.isEmpty then none else some (String.ofList k, cs.drop k.length)

/-- Reads a dotted key: keys joined by dots, blanks allowed around the dots. -/
def dottedKey (cs : Chars) : Option (List String × Chars) :=
  go cs.length cs []
where
  /-- Reads keys into `acc`, reversed. -/
  go : Nat → Chars → List String → Option (List String × Chars)
    | 0, _, _ => none
    | n + 1, cs, acc => do
      let (k, rest) ← simpleKey cs
      match skipBlanks rest with
      | '.' :: more => go n (skipBlanks more) (k :: acc)
      | _ => some ((k :: acc).reverse, rest)

end Toml

end OverlapLayout
