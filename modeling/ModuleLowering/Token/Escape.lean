import ModuleLowering.Token.Basic

/-!
Escapes in names, strings and templates.
-/

set_option autoImplicit false

namespace ModuleLowering

/-- The code point behind the `u` of an escape: four hex digits, or up to six in braces. -/
def readUnicode? : List Char → Option (Nat × List Char)
  | '\x7b' :: cs =>
    let digits := cs.takeWhile (· != '\x7d')
    match cs.drop digits.length, natOfDigits? 16 digits with
    | '\x7d' :: rest, some n => if digits.isEmpty || n > 0x10FFFF then none else some (n, rest)
    | _, _ => none
  | a :: b :: c :: d :: rest => (natOfDigits? 16 [a, b, c, d]).map (·, rest)
  | _ => none

/-- As `readUnicode?`, with a pair of surrogates read as the one character it stands for. -/
def readUnicodeChar? (cs : List Char) : Option (Char × List Char) :=
  match readUnicode? cs with
  | none => none
  | some (high, rest) =>
    if 0xD800 ≤ high && high < 0xDC00 then
      match rest with
      | '\\' :: 'u' :: more =>
        match readUnicode? more with
        | some (low, rest') =>
          if 0xDC00 ≤ low && low < 0xE000 then
            some (Char.ofNat (0x10000 + (high - 0xD800) * 0x400 + (low - 0xDC00)), rest')
          else some (Char.ofNat 0xFFFD, rest)
        | none => some (Char.ofNat 0xFFFD, rest)
      | _ => some (Char.ofNat 0xFFFD, rest)
    else if 0xDC00 ≤ high && high < 0xE000 then some (Char.ofNat 0xFFFD, rest)
    else some (Char.ofNat high, rest)

def readOctal (first : Char) (cs : List Char) : Char × List Char :=
  let limit := if first ≤ '3' then 2 else 1
  let more := (cs.take limit).takeWhile fun c => '0' ≤ c && c ≤ '7'
  (Char.ofNat ((natOfDigits? 8 (first :: more)).getD 0), cs.drop more.length)

def readEscape? : List Char → Option (List Char × List Char)
  | [] => none
  | 'n' :: cs => some (['\n'], cs)
  | 't' :: cs => some (['\t'], cs)
  | 'r' :: cs => some (['\r'], cs)
  | 'b' :: cs => some (['\x08'], cs)
  | 'v' :: cs => some (['\x0b'], cs)
  | 'f' :: cs => some (['\x0c'], cs)
  | '\r' :: '\n' :: cs => some ([], cs)
  | 'x' :: a :: b :: cs => (natOfDigits? 16 [a, b]).map fun n => ([Char.ofNat n], cs)
  | 'x' :: _ => none
  | 'u' :: cs => (readUnicodeChar? cs).map fun r => ([r.1], r.2)
  | c :: cs =>
    if isLineBreak c then some ([], cs)
    else if '0' ≤ c && c ≤ '7' then
      let (value, rest) := readOctal c cs
      some ([value], rest)
    else some ([c], cs)

/-- Whether an escape may stand in an untagged template, where octal ones are refused. -/
def templateEscapeOk : List Char → Bool
  | '0' :: c :: _ => !isAsciiDigit c
  | c :: cs => if '1' ≤ c && c ≤ '9' then false else (readEscape? (c :: cs)).isSome
  | [] => false

end ModuleLowering
