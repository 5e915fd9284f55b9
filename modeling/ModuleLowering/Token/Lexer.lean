import ModuleLowering.Token.Escape

/-!
Reading one token. Each reader takes the text from the token's first character and gives the token
and the text behind it. What a slash, a closing brace or a quote means depends on where it stands,
so the grammar chooses the reader.
-/

set_option autoImplicit false

namespace ModuleLowering

def readNameChars : Nat → Bool → List Char → List Char → Option (List Char × Bool × List Char)
  | 0, _, _, _ => none
  | fuel + 1, escaped, acc, cs =>
    match cs with
    | '\\' :: 'u' :: rest =>
      match readUnicodeChar? rest with
      | some (c, rest') =>
        if (if acc.isEmpty then isNameStart c else isNamePart c)
          then readNameChars fuel true (c :: acc) rest'
        else none
      | none => none
    | c :: rest =>
      if (if acc.isEmpty then isNameStart c else isNamePart c)
        then readNameChars fuel escaped (c :: acc) rest
      else some (acc.reverse, escaped, cs)
    | [] => some (acc.reverse, escaped, [])

def readWord? (cs : List Char) : Option (String × Bool × List Char) :=
  match readNameChars (cs.length + 1) false [] cs with
  | some ([], _, _) => none
  | some (name, escaped, rest) => some (String.ofList name, escaped, rest)
  | none => none

def readStringChars (quote : Char) : Nat → List Char → List Char → Option (List Char × List Char)
  | 0, _, _ => none
  | fuel + 1, acc, cs =>
    match cs with
    | [] => none
    | '\\' :: rest =>
      match readEscape? rest with
      | some (value, rest') => readStringChars quote fuel (value.reverse ++ acc) rest'
      | none => none
    | c :: rest =>
      if c == quote then some (acc.reverse, rest)
      else if c == '\n' || c == '\r' then none
      else readStringChars quote fuel (c :: acc) rest

def readString (quote : Char) (cs : List Char) : Token × List Char :=
  match readStringChars quote (cs.length + 1) [] cs with
  | some (value, rest) =>
    let raw := cs.take (cs.length - rest.length - 1)
    (.string (String.ofList value) (String.ofList raw), rest)
  | none => (.bad, cs)

/-- A template chunk: its text as written (with line breaks as `\n`) up to `${` or the closing
backquote. -/
def readTemplate (ok : Bool) : List Char → List Char → Token × List Char
  | _, [] => (.bad, [])
  | acc, '\x60' :: cs => (.template (String.ofList acc.reverse) ok true, cs)
  | acc, '$' :: '\x7b' :: cs => (.template (String.ofList acc.reverse) ok false, cs)
  | acc, '\\' :: '\r' :: '\n' :: cs => readTemplate ok ('\n' :: '\\' :: acc) cs
  | acc, '\\' :: c :: cs => readTemplate (ok && templateEscapeOk (c :: cs)) (c :: '\\' :: acc) cs
  | acc, '\r' :: '\n' :: cs => readTemplate ok ('\n' :: acc) cs
  | acc, '\r' :: cs => readTemplate ok ('\n' :: acc) cs
  | acc, c :: cs => readTemplate ok (c :: acc) cs

/-- No underscore in front, at the end or beside another one. The flag says whether the character
before is none of the digits. -/
def separatorsOk : Bool → List Char → Bool
  | afterGap, [] => !afterGap
  | afterGap, c :: cs =>
    if c == '_' then !afterGap && separatorsOk true cs else separatorsOk false cs

def readDigits (base : Nat) (cs : List Char) : Option (List Char × List Char) :=
  let run := cs.takeWhile fun c => (digitValue? base c).isSome || c == '_'
  if run.isEmpty then some ([], cs)
  else if separatorsOk true run then some (run.filter (· != '_'), cs.drop run.length)
  else none

def endNumber (token : Token) (rest : List Char) : Token × List Char :=
  match rest with
  | c :: _ => if isNameStart c || isAsciiDigit c || c == '\\' then (.bad, rest) else (token, rest)
  | [] => (token, rest)

def readRadix (base : Nat) (cs : List Char) : Token × List Char :=
  match readDigits base cs with
  | some (digits, rest) =>
    if digits.isEmpty then (.bad, rest) else
    let n := (natOfDigits? base digits).getD 0
    match rest with
    | 'n' :: rest' => endNumber (.bigint (toString n)) rest'
    | _ => endNumber (.number (Numeral.ofRatio n 1) "") rest
  | none => (.bad, cs)

def readExponent (cs : List Char) : Option (Int × List Char) :=
  match cs with
  | e :: rest =>
    if e == 'e' || e == 'E' then
      let (negative, rest) := match rest with
        | '-' :: r => (true, r)
        | '+' :: r => (false, r)
        | r => (false, r)
      match readDigits 10 rest with
      | some (digits, rest') =>
        if digits.isEmpty then none
        else
          let n : Int := (natOfDigits? 10 digits).getD 0
          some (if negative then -n else n, rest')
      | none => none
    else some (0, cs)
  | [] => some (0, cs)

def readDecimal (cs : List Char) : Token × List Char :=
  match readDigits 10 cs with
  | none => (.bad, cs)
  | some (whole, rest) =>
    match rest with
    | 'n' :: rest' =>
      if whole.isEmpty then (.bad, rest)
      else endNumber (.bigint (toString ((natOfDigits? 10 whole).getD 0))) rest'
    | _ =>
      let fraction? := match rest with
        | '.' :: rest' => readDigits 10 rest'
        | _ => some ([], rest)
      match fraction? with
      | none => (.bad, rest)
      | some (fraction, rest) =>
        match readExponent rest with
        | none => (.bad, rest)
        | some (exponent, rest) =>
          if whole.isEmpty && fraction.isEmpty then (.bad, rest) else
          let n := (natOfDigits? 10 (whole ++ fraction)).getD 0
          endNumber (.number (Numeral.ofDecimal n (exponent - fraction.length)) "") rest

def readNumber (cs : List Char) : Token × List Char :=
  let (token, rest) := match cs with
    | '0' :: 'x' :: r => readRadix 16 r
    | '0' :: 'X' :: r => readRadix 16 r
    | '0' :: 'o' :: r => readRadix 8 r
    | '0' :: 'O' :: r => readRadix 8 r
    | '0' :: 'b' :: r => readRadix 2 r
    | '0' :: 'B' :: r => readRadix 2 r
    | '0' :: c :: r =>
      -- `017` is octal, `089` is not
      let run := (c :: r).takeWhile isAsciiDigit
      if !run.isEmpty && run.all (fun d => d ≤ '7') then
        endNumber (.number (Numeral.ofRatio ((natOfDigits? 8 run).getD 0) 1) "")
          ((c :: r).drop run.length)
      else if c == '_' then (.bad, r)
      else readDecimal cs
    | _ => readDecimal cs
  match token with
  | .number value _ => (.number value (String.ofList (cs.take (cs.length - rest.length))), rest)
  | t => (t, rest)

/-- The body of a regular expression up to its closing slash; slashes inside a class do not
count. -/
def readRegExpBody : Bool → List Char → List Char → Option (List Char × List Char)
  | _, _, [] => none
  | inClass, acc, '\\' :: c :: cs =>
    if isLineBreak c then none else readRegExpBody inClass (c :: '\\' :: acc) cs
  | inClass, acc, c :: cs =>
    if isLineBreak c then none
    else if c == '/' && !inClass then some (acc.reverse, cs)
    else readRegExpBody (if c == '[' then true else if c == ']' then false else inClass) (c :: acc)
      cs

def readRegExp (cs : List Char) : Token × List Char :=
  match readRegExpBody false [] (cs.drop 1) with
  | some (body, rest) =>
    let flags := rest.takeWhile isNamePart
    (.regExp (String.ofList body) (String.ofList flags), rest.drop flags.length)
  | none => (.bad, cs)

def readGreater (cs : List Char) : Token × List Char :=
  match [">>>=", ">>>", ">>=", ">>", ">=", ">"].find? fun p => p.toList.isPrefixOf cs with
  | some p => (.punct p, cs.drop p.length)
  | none => (.bad, cs)

def readTagChild (cs : List Char) : Token × List Char :=
  match cs with
  | [] => (.endOfText, [])
  | '<' :: rest => (.punct "<", rest)
  | '\x7b' :: rest => (.punct "\x7b", rest)
  | _ =>
    let text := cs.takeWhile fun c => c != '<' && c != '\x7b'
    if text.any fun c => c == '>' || c == '\x7d' then (.bad, cs)
    else (.tagText (String.ofList text), cs.drop text.length)

def readTagWord (cs : List Char) : Token × List Char :=
  let name := cs.takeWhile fun c => isNamePart c || c == '-'
  (.word (String.ofList name) false, cs.drop name.length)

def readTagString (cs : List Char) : Token × List Char :=
  match cs with
  | quote :: rest =>
    let text := rest.takeWhile (· != quote)
    match rest.drop text.length with
    | _ :: rest' => (.string (String.ofList text) (String.ofList text), rest')
    | [] => (.bad, cs)
  | [] => (.bad, cs)

/-- Punctuators, longer ones first. A greater-than sign is always read alone. -/
def punctuators : List String :=
  ["...", "===", "!==", "**=", "<<=", "&&=", "||=", "??=",
   "=>", "==", "!=", "<=", "++", "--", "**", "<<", "&&", "||", "??", "?.", "+=", "-=", "*=", "/=",
   "%=", "&=", "|=", "^=",
   "\x7b", "\x7d", "(", ")", "[", "]", ";", ",", "<", ">", "+", "-", "*", "/", "%", "&", "|", "^",
   "!",
   "~", "?", ":", "=", ".", "@"]

def readPunct (cs : List Char) : Token × List Char :=
  match punctuators.find? fun p => p.toList.isPrefixOf cs with
  | some p =>
    -- `a?.5:b` is a conditional
    if p == "?." && ((cs.drop 2).head?.map isAsciiDigit).getD false then (.punct "?", cs.drop 1)
    else (.punct p, cs.drop p.length)
  | none => (.bad, cs.drop 1)

/-- The token at the head of the text, where an expression may not start with a slash. -/
def readToken (cs : List Char) : Token × List Char :=
  match cs with
  | [] => (.endOfText, [])
  | '"' :: rest => readString '"' rest
  | '\'' :: rest => readString '\'' rest
  | '\x60' :: rest => readTemplate true [] rest
  | '#' :: rest =>
    match readWord? rest with
    | some (name, _, rest') => (.privateWord name, rest')
    | none => (.bad, rest)
  | '.' :: d :: _ => if isAsciiDigit d then readNumber cs else readPunct cs
  | c :: _ =>
    if isAsciiDigit c then readNumber cs
    else if isNameStart c || c == '\\' then
      match readWord? cs with
      | some (name, escaped, rest) => (.word name escaped, rest)
      | none => (.bad, cs)
    else readPunct cs

structure Gap where
  /-- Comments that may still belong to the next token, newest first. -/
  pending : List Comment
  /-- A line break, or the start of the text, was seen since the last token. -/
  sawBreak : Bool
  lineBreak : Bool
  /-- The last token was `=` or an opening parenthesis. -/
  afterOpener : Bool
  isClosed : Bool

inductive GapMode where
  | blanks
  | line (acc : List Char)
  | block (acc : List Char)

namespace Gap

/-- A line ends: a comment that shares its line with the last token belongs to that token, and is
given up. -/
def endLine (g : Gap) : Gap :=
  match g.pending with
  | [] => { g with sawBreak := true, lineBreak := true }
  | c :: cs =>
    { g with
      pending := if g.sawBreak then { c with beforeLineBreak := true } :: cs else []
      sawBreak := true
      lineBreak := true }

def endLineComment (g : Gap) (text : List Char) : Gap :=
  let c : Comment := ⟨false, String.ofList text, g.sawBreak, true, 0⟩
  { g with
    pending := if !g.sawBreak && !g.afterOpener then [] else c :: g.pending
    sawBreak := true
    lineBreak := true }

def endBlockComment (g : Gap) (text : List Char) : Gap :=
  let c : Comment := ⟨true, String.ofList text, g.sawBreak, false, 0⟩
  { g with pending := c :: g.pending, lineBreak := g.lineBreak || text.any isLineBreak }

def skip : GapMode → Gap → List Char → Gap × List Char
  | .blanks, g, [] => (g, [])
  | .line acc, g, [] => (g.endLineComment acc.reverse, [])
  | .block _, g, [] => ({ g with isClosed := false }, [])
  | .blanks, g, '/' :: '/' :: cs => skip (.line ['/', '/']) g cs
  | .blanks, g, '/' :: '*' :: cs => skip (.block ['*', '/']) g cs
  | .blanks, g, c :: cs =>
    if isLineBreak c then skip .blanks g.endLine cs
    else if isBlank c then skip .blanks g cs
    else (g, c :: cs)
  | .line acc, g, c :: cs =>
    if isLineBreak c then skip .blanks (g.endLineComment acc.reverse) cs
    else skip (.line (c :: acc)) g cs
  | .block acc, g, '*' :: '/' :: cs =>
    skip .blanks (g.endBlockComment ('/' :: '*' :: acc).reverse) cs
  | .block acc, g, c :: cs => skip (.block (c :: acc)) g cs

end Gap

end ModuleLowering
