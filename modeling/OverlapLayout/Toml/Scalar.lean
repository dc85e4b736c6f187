import OverlapLayout.Toml.Value
import OverlapLayout.Toml.Text
/-!
  TOML numbers, booleans and dates.

  * Integers are decimal (optionally signed, no leading zero) or unsigned
    hexadecimal, octal or binary with a `0x`, `0o` or `0b` prefix; a single
    `_` may stand between two digits. They must fit a signed 64-bit word.
  * Floats are a decimal integer followed by a fraction, an exponent, or
    both; their value is the nearest double, and one that rounds to positive
    infinity is refused. `inf` and `nan` may carry a sign, and `-nan` has its
    sign bit set.
  * Dates are `YYYY-MM-DD` with a day that exists in that month; times are
    `HH:MM:SS` with an optional fraction; a date and a time are joined by
    `T`, `t` or a space, and an offset `Z` or `±HH:MM` may follow.
-/

namespace OverlapLayout

namespace Toml

/-- Reads digits accepted by `ok`, a single `_` allowed between two of them,
into `acc`, reversed; answers the digits in order and the rest. -/
def moreDigits (ok : Char → Bool) : Chars → List Char → List Char × Chars
  | '_' :: c :: rest, acc =>
    if ok c then moreDigits ok rest (c :: acc) else (acc.reverse, '_' :: c :: rest)
  | c :: rest, acc => if ok c then moreDigits ok rest (c :: acc) else (acc.reverse, c :: rest)
  | [], acc => (acc.reverse, [])

/-- Reads at least one digit accepted by `ok`, single underscores between them. -/
def groupedDigits (ok : Char → Bool) : Chars → Option (List Char × Chars)
  | c :: rest => if ok c then some (moreDigits ok rest [c]) else none
  | [] => none

/-- The number written by digits in a base. -/
def digitsValue (base : Nat) (ds : List Char) : Nat :=
  ds.foldl (fun n c => base * n + ((hexDigit? c).getD 0)) 0

/-- Whether an integer fits a signed 64-bit word. -/
def fitsWord (i : Int) : Bool := -Int.pow 2 63 ≤ i && i < Int.pow 2 63

/-- The nearest double to `m · 10 ^ e`; values far outside the range of doubles
go to infinity or zero without computing the power. -/
def nearestDouble (m : Nat) (e : Int) : Float :=
  let width : Int := (Nat.toDigits 10 m).length
  if m = 0 then 0
  else if 310 < width + e then Float.ofBits 0x7FF0000000000000
  else if width + e < -330 then 0
  else if 0 ≤ e then Float.ofScientific m false e.toNat
  else Float.ofScientific m true (-e).toNat

/-- Reads an unsigned integer in base 16, 8 or 2 after its prefix. -/
def prefixedInteger (base : Nat) (ok : Char → Bool) (cs : Chars) : Option (TomlValue × Chars) := do
  let (ds, rest) ← groupedDigits ok cs
  let v := digitsValue base ds
  if v < Nat.pow 2 63 then some (.integer v, rest) else none

/-- Reads a decimal integer or a float. -/
def decimalNumber (cs : Chars) : Option (TomlValue × Chars) := do
  let (negative, cs) := match cs with
    | '-' :: rest => (true, rest)
    | '+' :: rest => (false, rest)
    | _ => (false, cs)
  let (intDigits, rest) ← match cs with
    | '0' :: rest => some (['0'], rest)
    | _ => groupedDigits Char.isDigit cs
  let (fracDigits, rest) ← match rest with
    | '.' :: more => (groupedDigits Char.isDigit more).map fun (ds, r) => (some ds, r)
    | _ => some (none, rest)
  let (exponent, rest) ← match rest with
    | c :: more =>
      if c == 'e' || c == 'E' then
        let (expNegative, more) := match more with
          | '-' :: r => (true, r)
          | '+' :: r => (false, r)
          | _ => (false, more)
        (groupedDigits Char.isDigit more).map fun (ds, r) =>
          let v : Int := digitsValue 10 ds
          (some (if expNegative then -v else v), r)
      else some (none, rest)
    | [] => some (none, rest)
  match fracDigits, exponent with
  | none, none =>
    let v : Int := digitsValue 10 intDigits
    let v := if negative then -v else v
    if fitsWord v then some (.integer v, rest) else none
  | _, _ =>
    let frac := fracDigits.getD []
    let x := nearestDouble (digitsValue 10 (intDigits ++ frac)) (exponent.getD 0 - frac.length)
    let x := if negative then -x else x
    if x == Float.ofBits 0x7FF0000000000000 then none else some (.float x, rest)

/-- Reads exactly `n` decimal digits and their value. -/
def fixedDigits (n : Nat) (cs : Chars) : Option (Nat × Chars) :=
  let ds := cs.take n
  if ds.length == n && ds.all Char.isDigit then some (digitsValue 10 ds, cs.drop n) else none

/-- Whether a year is a leap year. -/
def leapYear (y : Nat) : Bool := y % 4 == 0 && (y % 100 != 0 || y % 400 == 0)

/-- The number of days of a month. -/
def monthDays (y m : Nat) : Nat :=
  if m == 2 then (if leapYear y then 29 else 28)
  else if m == 4 || m == 6 || m == 9 || m == 11 then 30 else 31

/-- Reads a date `YYYY-MM-DD`. -/
def date (cs : Chars) : Option Chars := do
  let (y, cs) ← fixedDigits 4 cs
  let cs ← match cs with | '-' :: r => some r | _ => none
  let (m, cs) ← fixedDigits 2 cs
  let cs ← match cs with | '-' :: r => some r | _ => none
  let (d, cs) ← fixedDigits 2 cs
  if 1 ≤ m && m ≤ 12 && 1 ≤ d && d ≤ monthDays y m then some cs else none

/-- Reads a time `HH:MM:SS` with an optional fraction. -/
def time (cs : Chars) : Option Chars := do
  let (h, cs) ← fixedDigits 2 cs
  let cs ← match cs with | ':' :: r => some r | _ => none
  let (m, cs) ← fixedDigits 2 cs
  let cs ← match cs with | ':' :: r => some r | _ => none
  let (s, cs) ← fixedDigits 2 cs
  if !(h ≤ 23 && m ≤ 59 && s ≤ 60) then none
  match cs with
  | '.' :: rest =>
    let ds := rest.takeWhile Char.isDigit
    if ds.isEmpty then none else some (rest.drop ds.length)
  | _ => some cs

/-- Reads an optional offset `Z` or `±HH:MM`. -/
def offset (cs : Chars) : Option Chars :=
  match cs with
  | c :: rest =>
    if c == 'Z' || c == 'z' then some rest
    else if c == '+' || c == '-' then do
      let (h, r) ← fixedDigits 2 rest
      let r ← match r with | ':' :: r => some r | _ => none
      let (m, r) ← fixedDigits 2 r
      if h ≤ 23 && m ≤ 59 then some r else none
    else some cs
  | [] => some cs

/-- Reads a date, a time, or a date and a time with an optional offset. -/
def dateTime (cs : Chars) : Option (TomlValue × Chars) := do
  let text (rest : Chars) : TomlValue := .datetime (String.ofList (cs.take (cs.length - rest.length)))
  match fixedDigits 2 cs with
  | some (_, ':' :: _) =>
    let rest ← time cs
    some (text rest, rest)
  | _ =>
    let rest ← date cs
    match rest with
    | c :: more =>
      if c == 'T' || c == 't' || (c == ' ' && (fixedDigits 2 more).isSome) then do
        let r ← offset (← time more)
        some (text r, r)
      else some (text rest, rest)
    | [] => some (text rest, rest)

/-- Reads a number, a boolean or a date. -/
def scalar (cs : Chars) : Option (TomlValue × Chars) :=
  let nan := Float.ofBits 0x7FF8000000000000
  let inf := Float.ofBits 0x7FF0000000000000
  match cs with
  | 't' :: 'r' :: 'u' :: 'e' :: rest => some (.boolean true, rest)
  | 'f' :: 'a' :: 'l' :: 's' :: 'e' :: rest => some (.boolean false, rest)
  | 'i' :: 'n' :: 'f' :: rest => some (.float inf, rest)
  | '+' :: 'i' :: 'n' :: 'f' :: rest => some (.float inf, rest)
  | '-' :: 'i' :: 'n' :: 'f' :: rest => some (.float (-inf), rest)
  | 'n' :: 'a' :: 'n' :: rest => some (.float nan, rest)
  | '+' :: 'n' :: 'a' :: 'n' :: rest => some (.float nan, rest)
  | '-' :: 'n' :: 'a' :: 'n' :: rest => some (.float (-nan), rest)
  | '0' :: 'x' :: rest => prefixedInteger 16 (fun c => (hexDigit? c).isSome) rest
  | '0' :: 'o' :: rest => prefixedInteger 8 (fun c => '0' ≤ c && c ≤ '7') rest
  | '0' :: 'b' :: rest => prefixedInteger 2 (fun c => c == '0' || c == '1') rest
  | _ =>
    let looksLikeDate := match fixedDigits 4 cs with
      | some (_, '-' :: _) => true
      | _ => match fixedDigits 2 cs with
        | some (_, ':' :: _) => true
        | _ => false
    if looksLikeDate then dateTime cs else decimalNumber cs

end Toml

end OverlapLayout
