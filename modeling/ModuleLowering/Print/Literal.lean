import ModuleLowering.Token.Basic

/-!
Literals as they are printed.
-/

set_option autoImplicit false

namespace ModuleLowering

def startsScriptEnd (cs : List Char) : Bool :=
  (cs.take 8).map Char.toLower == "</script".toList

/-- Breaks up `</script`, which would end the program inside a page. -/
def hideScriptEnd : List Char → List Char
  | [] => []
  | c :: cs =>
    if startsScriptEnd (c :: cs) then c :: '\\' :: hideScriptEnd cs else c :: hideScriptEnd cs

def escapeChar (c : Char) (rest : List Char) : String :=
  if c == '"' then "\\\""
  else if c == '\\' then "\\\\"
  else if c == '\n' then "\\n"
  else if c == '\r' then "\\r"
  else if c.toNat == 0x08 then "\\b"
  else if c.toNat == 0x0B then "\\v"
  else if c.toNat == 0x0C then "\\f"
  else if c.toNat == 0 then (if (rest.head?.map isAsciiDigit).getD false then "\\x00" else "\\0")
  else if c.toNat == 0x07 then "\\x07"
  else if c.toNat == 0x1B then "\\x1B"
  else if c.toNat == 0x2028 then "\\u2028"
  else if c.toNat == 0x2029 then "\\u2029"
  else if c.toNat == 0xA0 then "\\xA0"
  else if startsScriptEnd (c :: rest) then "<\\"
  else c.toString

def escapeChars : List Char → String
  | [] => ""
  | c :: cs => escapeChar c cs ++ escapeChars cs

def quoted (s : String) : String := "\"" ++ escapeChars s.toList ++ "\""

/-- A leading string statement keeps its text; the quote is one it does not contain, as far as
its first quote tells. -/
def quotedDirective (raw : String) : String :=
  let q := if raw.toList.find? (fun c => c == '"' || c == '\'') == some '"' then "'" else "\""
  q ++ raw ++ q

def quotedAttribute (raw : String) : String :=
  let q := if raw.toList.contains '"' then "'" else "\""
  q ++ raw ++ q

namespace Numeral

/-- The usual decimal text of a number: positional from `1e-7` up to `1e21`, else with an
exponent. -/
def plainText (digits : List Char) (place : Int) : List Char :=
  let k : Int := digits.length
  let zeros (n : Int) : List Char := List.replicate n.toNat '0'
  if k ≤ place && place ≤ 21 then digits ++ zeros (place - k)
  else if 0 < place && place ≤ 21 then digits.take place.toNat ++ '.' :: digits.drop place.toNat
  else if -6 < place && place ≤ 0 then '.' :: zeros (-place) ++ digits
  else
    let e := (toString (place - 1)).toList
    match digits with
    | [d] => d :: 'e' :: e
    | d :: ds => d :: '.' :: ds ++ 'e' :: e
    | [] => []

def shorterOf (current candidate : List Char) : List Char :=
  if candidate.length < current.length then candidate else current

/-- `.00012` as `12e-5`. -/
def withoutLeadingZeros (s : List Char) : List Char :=
  match s with
  | '.' :: '0' :: _ =>
    let digits := s.dropWhile fun c => c == '.' || c == '0'
    shorterOf s (digits ++ 'e' :: '-' :: (toString (s.length - 1)).toList)
  | _ => s

/-- `12000` as `12e3`. -/
def withoutTrailingZeros (s : List Char) : List Char :=
  let base := (s.reverse.dropWhile (· == '0')).reverse
  let count := s.length - base.length
  if count = 0 || base.isEmpty then s else shorterOf s (base ++ 'e' :: (toString count).toList)

/-- `1.5e300` as `15e299`. -/
def withoutPoint (s : List Char) : List Char :=
  let whole := s.takeWhile (· != '.')
  let rest := s.drop (whole.length + 1)
  let fraction := rest.takeWhile (· != 'e')
  let exponent := rest.drop (fraction.length + 1)
  match (String.ofList exponent).toInt? with
  | some e => shorterOf s (whole ++ fraction ++ 'e' :: (toString (e - fraction.length)).toList)
  | none => s

def shortText : Numeral → String
  | .infinite => "Infinity"
  | .finite m q =>
    let (digits, place) := shortest m q
    let plain := plainText digits place
    match natValue? (.finite m q) with
    | some n =>
      if n < 1000 then toString n
      else
        let hex := '0' :: 'x' :: Nat.toDigits 16 n
        if hex.length < plain.length then String.ofList hex
        else String.ofList (withoutPoint (withoutTrailingZeros plain))
    | none => String.ofList (withoutPoint (withoutTrailingZeros (withoutLeadingZeros plain)))

end Numeral

end ModuleLowering
