import ModuleLowering.Error
import ModuleLowering.Options
import ModuleLowering.Token.Basic
import ModuleLowering.Text.Numeral

/-!
Options as JSON text: an object with some of the keys `strict`, `loose` and `addExports`, or an
array of at most three booleans in that order.
-/

set_option autoImplicit false

namespace ModuleLowering

namespace OptionsText

inductive Reason where
  | endInValue | endInObject | endInList | endInString
  | expectedColon | expectedListEnd | expectedObjectEnd | expectedWord | expectedValue
  | keyNotString | invalidNumber | numberTooLarge
  | invalidEscape | controlCharacter | loneSurrogate | brokenSurrogate
  | trailingComma | trailingText
  | wrongType (found expected : String)
  | repeatedKey (name : String)
  | unknownKey (name : String)
  deriving DecidableEq, Repr

def Reason.text : Reason → String
  | endInValue => "EOF while parsing a value"
  | endInObject => "EOF while parsing an object"
  | endInList => "EOF while parsing a list"
  | endInString => "EOF while parsing a string"
  | expectedColon => "expected \x60:\x60"
  | expectedListEnd => "expected \x60,\x60 or \x60]\x60"
  | expectedObjectEnd => "expected \x60,\x60 or \x60\x7d\x60"
  | expectedWord => "expected ident"
  | expectedValue => "expected value"
  | keyNotString => "key must be a string"
  | invalidNumber => "invalid number"
  | numberTooLarge => "number out of range"
  | invalidEscape => "invalid escape"
  | controlCharacter => "control character (\\u0000-\\u001F) found while parsing a string"
  | loneSurrogate => "lone leading surrogate in hex escape"
  | brokenSurrogate => "unexpected end of hex escape"
  | trailingComma => "trailing comma"
  | trailingText => "trailing characters"
  | wrongType found expected => "invalid type: " ++ found ++ ", expected " ++ expected
  | repeatedKey name => "duplicate field \x60" ++ name ++ "\x60"
  | unknownKey name =>
    "unknown field \x60" ++ name ++
      "\x60, expected one of \x60strict\x60, \x60loose\x60, \x60addExports\x60"

structure Problem where
  reason : Reason
  offset : Nat
  deriving DecidableEq, Repr

structure Input where
  rest : List Char
  read : Nat
  deriving DecidableEq, Repr

namespace Input

def skip (i : Input) (n : Nat) : Input := ⟨i.rest.drop n, i.read + byteLength (i.rest.take n)⟩

def isSpace (c : Char) : Bool := c == ' ' || c == '\n' || c == '\t' || c == '\r'

def skipSpace (i : Input) : Input := i.skip (i.rest.takeWhile isSpace).length

def fail {α : Type} (i : Input) (r : Reason) : Except Problem α := .error ⟨r, i.read⟩

/-- A problem with the next byte, which counts as read if there is one. -/
def failNext {α : Type} (i : Input) (r : Reason) : Except Problem α :=
  .error ⟨r, if i.rest.isEmpty then i.read else i.read + 1⟩

end Input

def readWord : List Char → Input → Except Problem Input
  | [], i => .ok i
  | c :: cs, i =>
    match i.rest with
    | [] => i.fail .endInValue
    | d :: _ => if d = c then readWord cs (i.skip 1) else (i.skip 1).fail .expectedWord

def readHex (i : Input) : Except Problem (Nat × Input) :=
  let four := i.rest.take 4
  if byteLength i.rest < 4 then .error ⟨.endInString, i.read + byteLength i.rest⟩
  else match natOfDigits? 16 four with
    | some n => .ok (n, i.skip 4)
    | none => .error ⟨.invalidEscape, i.read + 4⟩

def readUnicode (i : Input) : Except Problem (Char × Input) := do
  let (n, i) ← readHex i
  if 0xDC00 ≤ n && n ≤ 0xDFFF then i.fail .loneSurrogate
  else if 0xD800 ≤ n && n ≤ 0xDBFF then
    match i.rest with
    | '\\' :: 'u' :: _ =>
      let (low, i) ← readHex (i.skip 2)
      if low < 0xDC00 || low > 0xDFFF then i.fail .loneSurrogate
      else .ok (Char.ofNat ((n - 0xD800) * 0x400 + (low - 0xDC00) + 0x10000), i)
    | '\\' :: [] => (i.skip 1).fail .endInString
    | '\\' :: _ => .error ⟨.brokenSurrogate, i.read + 2⟩
    | [] => i.fail .endInString
    | _ => .error ⟨.brokenSurrogate, i.read + 1⟩
  else .ok (Char.ofNat n, i)

def readEscape (i : Input) : Except Problem (Char × Input) :=
  match i.rest with
  | [] => i.fail .endInString
  | c :: _ =>
    let next := i.skip 1
    match c with
    | '"' | '\\' | '/' => .ok (c, next)
    | 'b' => .ok ('\x08', next)
    | 'f' => .ok ('\x0c', next)
    | 'n' => .ok ('\n', next)
    | 'r' => .ok ('\r', next)
    | 't' => .ok ('\t', next)
    | 'u' => readUnicode next
    | _ => .error ⟨.invalidEscape, i.read + 1⟩

def readString : Nat → List Char → Input → Except Problem (String × Input)
  | 0, _, i => i.fail .endInString
  | fuel + 1, acc, i =>
    match i.rest with
    | [] => i.fail .endInString
    | '"' :: _ => .ok (String.ofList acc.reverse, i.skip 1)
    | '\\' :: _ => do
      let (c, i) ← readEscape (i.skip 1)
      readString fuel (c :: acc) i
    | c :: _ =>
      if c.toNat < 0x20 then (i.skip 1).fail .controlCharacter
        else readString fuel (c :: acc) (i.skip 1)

def readStringHere (i : Input) : Except Problem (String × Input) :=
  readString (i.rest.length + 1) [] (i.skip 1)

def showChar (c : Char) : String :=
  let n := c.toNat
  if c == '"' then "\\\"" else if c == '\\' then "\\\\" else if c == '\n' then "\\n"
  else if c == '\r' then "\\r" else if c == '\t' then "\\t" else if n == 0 then "\\0"
  else if n < 0x20 || (0x7F ≤ n && n ≤ 0xA0) || n == 0xAD || (0x300 ≤ n && n ≤ 0x36F) || n == 0x61C
      || (0x180B ≤ n && n ≤ 0x180F) || (0x2000 ≤ n && n ≤ 0x200F) || (0x2028 ≤ n && n ≤ 0x202F)
      || (0x205F ≤ n && n ≤ 0x206F) || n == 0x3000 || (0xE000 ≤ n && n ≤ 0xF8FF) ||
        (0xFE00 ≤ n && n ≤ 0xFE0F)
      || n == 0xFEFF || (0xFFF0 ≤ n && n ≤ 0xFFFB) || n == 0xFFFE || n == 0xFFFF || 0xE0000 ≤ n then
    "\\u\x7b" ++ String.ofList (Nat.toDigits 16 n) ++ "\x7d"
  else c.toString

def showString (s : String) : String := "\"" ++ String.join (s.toList.map showChar) ++ "\""

/-- The text of a number that is no integer: positional from `1e-5` up to `1e16`. -/
def showFloat (isNegative : Bool) (v : Numeral) : String :=
  let sign := if isNegative then "-" else ""
  match v with
  | .infinite => sign ++ "inf"
  | .finite m q =>
    let (digits, place) := Numeral.shortest m q
    let k : Int := digits.length
    let zeros (n : Int) : List Char := List.replicate n.toNat '0'
    let body : List Char :=
      if m = 0 then "0.0".toList
      else if k ≤ place && place ≤ 16 then digits ++ zeros (place - k) ++ ".0".toList
      else if 0 < place && place ≤ 16 then digits.take place.toNat ++ '.' :: digits.drop place.toNat
      else if -5 < place && place ≤ 0 then "0.".toList ++ zeros (-place) ++ digits
      else match digits with
        | [d] => d :: 'e' :: (toString (place - 1)).toList
        | d :: ds => d :: '.' :: ds ++ 'e' :: (toString (place - 1)).toList
        | [] => []
    sign ++ String.ofList body

/-- The leading digits of a number, as far as they fit into 64 bits, and the power of ten they are
to be multiplied with. -/
structure Leading where
  digits : Nat
  scale : Int
  isFull : Bool
  deriving DecidableEq, Repr

namespace Leading

def fits (l : Leading) (digit : Nat) : Bool := !l.isFull && l.digits * 10 + digit < Nat.pow 2 64

def addWhole (l : Leading) (digit : Nat) : Leading :=
  if l.fits digit then { l with digits := l.digits * 10 + digit }
  else { l with scale := l.scale + 1, isFull := true }

def addFraction (l : Leading) (digit : Nat) : Leading :=
  if l.fits digit then { l with digits := l.digits * 10 + digit, scale := l.scale - 1 }
  else { l with isFull := true }

def ofDigits (whole fraction : List Char) : Leading :=
  let value (c : Char) : Nat := c.toNat - '0'.toNat
  let l : Leading := whole.foldl (fun l c => l.addWhole (value c)) ⟨0, 0, false⟩
  fraction.foldl (fun l c => l.addFraction (value c)) { l with isFull := false }

end Leading

def isDigitOf (i : Input) : Bool := (i.rest.head?.map isAsciiDigit).getD false

def takeDigits (i : Input) : List Char × Input :=
  let ds := i.rest.takeWhile isAsciiDigit
  (ds, i.skip ds.length)

/-- The exponent of a number from its `e` on. One that is out of all bounds stops the reading,
unless it only makes the number smaller. -/
def readExponent (isZero : Bool) (i : Input) : Except Problem (Int × Input) :=
  let i := i.skip 1
  let (isNegative, i) := match i.rest with
    | '-' :: _ => (true, i.skip 1)
    | '+' :: _ => (false, i.skip 1)
    | _ => (false, i)
  match i.rest with
  | [] => i.fail .endInValue
  | c :: _ =>
    if isAsciiDigit c then
      let (ds, behind) := takeDigits i
      let isHuge (k : Nat) : Bool := (natOfDigits? 10 (ds.take k)).getD 0 ≥ Nat.pow 2 31
      match (List.range (ds.length + 1)).find? isHuge, isNegative || isZero with
      | some k, false => (i.skip k).fail .numberTooLarge
      | _, _ =>
        let n : Int := (natOfDigits? 10 ds).getD 0
        .ok (if isNegative then -n else n, behind)
    else .error ⟨.invalidNumber, i.read + 1⟩

def readFraction (i : Input) : Except Problem (List Char × Input) :=
  let i := i.skip 1
  if isDigitOf i then .ok (takeDigits i)
  else i.failNext (if i.rest.isEmpty then .endInValue else .invalidNumber)

def readNumber (isNegative : Bool) (i : Input) : Except Problem (String × Input) := do
  match i.rest with
  | [] => i.fail .endInValue
  | c :: _ =>
    if !(isAsciiDigit c) then (i.skip 1).fail .invalidNumber
    else if c == '0' && isDigitOf (i.skip 1) then (i.skip 1).failNext .invalidNumber
    else
      let (whole, i) := takeDigits i
      let hasFraction := i.rest.head? == some '.'
      let (fraction, i) ← if hasFraction then readFraction i else .ok ([], i)
      let leading := Leading.ofDigits whole fraction
      let hasExponent := i.rest.head? == some 'e' || i.rest.head? == some 'E'
      let (exponent, i) ← if hasExponent then readExponent (leading.digits == 0) i else .ok (0, i)
      let isWhole := !hasFraction && !hasExponent && leading.scale == 0
      let isInteger :=
        isWhole && (!isNegative || (0 < leading.digits && leading.digits ≤ Nat.pow 2 63))
      if isInteger then
        .ok ("integer \x60" ++ (if isNegative then "-" else "") ++
          toString leading.digits ++ "\x60", i)
      else
        let v := Numeral.scaledInDoubles leading.digits (leading.scale + exponent)
        if v == .infinite then i.fail .numberTooLarge
        else .ok ("floating point \x60" ++ showFloat isNegative v ++ "\x60", i)

def wrongType {α : Type} (expected : String) (i : Input) : Except Problem α := do
  let misfit {β : Type} (found : String) (i : Input) : Except Problem β :=
    i.fail (.wrongType found expected)
  match i.rest with
  | 'n' :: _ => let i ← readWord "ull".toList (i.skip 1); misfit "null" i
  | 't' :: _ => let i ← readWord "rue".toList (i.skip 1); misfit "boolean \x60true\x60" i
  | 'f' :: _ => let i ← readWord "alse".toList (i.skip 1); misfit "boolean \x60false\x60" i
  | '-' :: _ => let (found, i) ← readNumber true (i.skip 1); misfit found i
  | '"' :: _ => let (s, i) ← readStringHere i; misfit ("string " ++ showString s) i
  | '[' :: _ => misfit "sequence" i
  | '\x7b' :: _ => misfit "map" i
  | c :: _ =>
    if isAsciiDigit c then
      let (found, i) ← readNumber false i
      misfit found i
    else i.failNext .expectedValue
  | [] => i.failNext .expectedValue

def readBool (i : Input) : Except Problem (Bool × Input) := do
  let i := i.skipSpace
  match i.rest with
  | [] => i.fail .endInValue
  | 't' :: _ => let i ← readWord "rue".toList (i.skip 1); .ok (true, i)
  | 'f' :: _ => let i ← readWord "alse".toList (i.skip 1); .ok (false, i)
  | _ => wrongType "a boolean" i

def nextElement (isFirst : Bool) (i : Input) : Except Problem (Bool × Input) :=
  let i := i.skipSpace
  match i.rest with
  | [] => i.fail .endInList
  | ']' :: _ => .ok (false, i)
  | c :: _ =>
    if isFirst then .ok (true, i)
    else if c == ',' then
      let i := (i.skip 1).skipSpace
      match i.rest with
      | [] => i.fail .endInValue
      | ']' :: _ => i.failNext .trailingComma
      | _ => .ok (true, i)
    else i.failNext .expectedListEnd

def readElements : Nat → Bool → Input → Except Problem (List Bool × Input)
  | 0, _, i => .ok ([], i)
  | count + 1, isFirst, i => do
    let (more, i) ← nextElement isFirst i
    if more then
      let (b, i) ← readBool i
      let (bs, i) ← readElements count false i
      .ok (b :: bs, i)
    else .ok ([], i)

def endList (i : Input) : Except Problem Input :=
  let i := i.skipSpace
  match i.rest with
  | ']' :: _ => .ok (i.skip 1)
  | ',' :: _ =>
    let i := (i.skip 1).skipSpace
    i.failNext (if i.rest.head? == some ']' then .trailingComma else .trailingText)
  | [] => i.fail .endInList
  | _ => i.failNext .trailingText

def ofList (bs : List Bool) : Options := ⟨bs.getD 0 false, bs.getD 1 false, bs.getD 2 false⟩

inductive Key where
  | strict | loose | addExports
  deriving DecidableEq, Repr

def Key.ofName? : String → Option Key
  | "strict" => some strict
  | "loose" => some loose
  | "addExports" => some addExports
  | _ => none

def set (o : Options) (k : Key) (b : Bool) : Options :=
  match k with
  | .strict => { o with strict := b }
  | .loose => { o with loose := b }
  | .addExports => { o with addExports := b }

def nextKey (isFirst : Bool) (i : Input) : Except Problem (Bool × Input) :=
  let i := i.skipSpace
  match i.rest with
  | [] => i.fail .endInObject
  | '\x7d' :: _ => .ok (false, i)
  | c :: _ =>
    if isFirst then (if c == '"' then .ok (true, i) else i.failNext .keyNotString)
    else if c == ',' then
      let i := (i.skip 1).skipSpace
      match i.rest with
      | [] => i.fail .endInValue
      | '"' :: _ => .ok (true, i)
      | '\x7d' :: _ => i.failNext .trailingComma
      | _ => i.failNext .keyNotString
    else i.failNext .expectedObjectEnd

/-- The problem with a key. It is noticed before the value; a closing brace right behind the key
counts as read. -/
def badKey {α : Type} (i : Input) (r : Reason) : Except Problem α :=
  let i := i.skipSpace
  (if i.rest.head? == some '\x7d' then i.skip 1 else i).fail r

def readColon (i : Input) : Except Problem Input :=
  let i := i.skipSpace
  match i.rest with
  | ':' :: _ => .ok (i.skip 1)
  | [] => i.fail .endInObject
  | _ => i.failNext .expectedColon

/-- The pairs of an object up to its brace. The number bounds them; no key comes twice. -/
def readPairs : Nat → List Key → Options → Input → Except Problem (Options × Input)
  | 0, _, o, i => .ok (o, i)
  | fuel + 1, seen, o, i => do
    let (more, i) ← nextKey seen.isEmpty i
    if more then
      let (name, i) ← readStringHere i
      match Key.ofName? name with
      | none => badKey i (.unknownKey name)
      | some k =>
        if seen.contains k then badKey i (.repeatedKey name)
        else
          let i ← readColon i
          let (b, i) ← readBool i
          readPairs fuel (k :: seen) (set o k b) i
    else .ok (o, i.skip 1)

def read (text : String) : Except Problem Options := do
  let i := (Input.mk text.toList 0).skipSpace
  let (o, i) ← match i.rest with
    | [] => i.fail .endInValue
    | '[' :: _ => do
      let (bs, i) ← readElements 3 true (i.skip 1)
      let i ← endList i
      .ok (ofList bs, i)
    | '\x7b' :: _ => readPairs 4 [] Options.default (i.skip 1)
    | _ => wrongType "struct TransformOptions" i
  let i := i.skipSpace
  if i.rest.isEmpty then .ok o else i.failNext .trailingText

/-- The line and column of a byte offset: lines count from one, columns are bytes read on the
line. -/
def position (text : String) (offset : Nat) : Nat × Nat :=
  let before := text.toUTF8.toList.take offset
  let column := (before.reverse.takeWhile (· != 10)).length
  (before.count 10 + 1, column)

def Problem.message (p : Problem) (text : String) : String :=
  let (line, column) := position text p.offset
  p.reason.text ++ s!" at line {line} column {column}"

end OptionsText

def Options.ofText (text : String) : Except Error Options :=
  match OptionsText.read text with
  | .ok o => .ok o
  | .error p => .error (.invalidOptions (p.message text))

end ModuleLowering
