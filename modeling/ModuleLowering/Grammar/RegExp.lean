import ModuleLowering.Token.Escape

/-!
Which regular expressions are well formed. Only the shape is checked: a reader takes the text from
some place on and gives what is left behind it, or nothing if the text does not fit there.
-/

set_option autoImplicit false

namespace ModuleLowering.RegExp

structure Mode where
  /-- With flag `u` or `v` nothing is left open to interpretation. -/
  isUnicode : Bool
  /-- With flag `v` classes may be nested. -/
  hasSets : Bool
  groups : Nat
  names : List String

def number? (cs : List Char) : Option (Nat × List Char) :=
  let run := cs.takeWhile isAsciiDigit
  if run.isEmpty then none else (natOfDigits? 10 run).map (·, cs.drop run.length)

inductive Quantifier where
  | absent
  | present (rest : List Char)
  | wrong

def quantifierTail (cs : List Char) : Quantifier :=
  match cs with
  | '?' :: rest => .present rest
  | rest => .present rest

def quantifier (m : Mode) (cs : List Char) : Quantifier :=
  match cs with
  | '*' :: rest | '+' :: rest | '?' :: rest => quantifierTail rest
  | '\x7b' :: rest =>
    let open? := if m.isUnicode then Quantifier.wrong else .absent
    match number? rest with
    | some (_, '\x7d' :: rest') => quantifierTail rest'
    | some (_, ',' :: '\x7d' :: rest') => quantifierTail rest'
    | some (low, ',' :: rest') =>
      match number? rest' with
      | some (high, '\x7d' :: rest'') => if low ≤ high then quantifierTail rest'' else .wrong
      | _ => open?
    | _ => open?
  | _ => .absent

def groupName? (cs : List Char) : Option (String × List Char) :=
  let name := cs.takeWhile (· != '>')
  match cs.drop name.length with
  | '>' :: rest =>
    let text := String.ofList name
    if isIdentifierName text || name.contains '\\' then some (text, rest) else none
  | _ => none

def isPatternSign (c : Char) : Bool := "^$\\.*+?()[]\x7b\x7d|/".toList.contains c

def propertyName? (cs : List Char) : Option (List Char) :=
  match cs with
  | '\x7b' :: rest =>
    let name := rest.takeWhile (· != '\x7d')
    match rest.drop name.length with
    | '\x7d' :: rest' =>
      if !name.isEmpty && name.all (fun c => isAsciiNameChar c || c == '=')
        then some rest' else none
    | _ => none
  | _ => none

def escape? (m : Mode) (inClass : Bool) (cs : List Char) : Option (List Char) :=
  match cs with
  | [] => none
  | c :: rest =>
    if "dDsSwW".toList.contains c then some rest
    else if "fnrtv".toList.contains c then some rest
    else if c == 'c' then
      match rest with
      | l :: rest' =>
        if isAsciiLetter l then some rest' else if m.isUnicode then none else some rest
      | [] => if m.isUnicode then none else some rest
    else if c == 'x' then
      match rest with
      | a :: b :: rest' =>
        if (natOfDigits? 16 [a, b]).isSome then some rest' else if m.isUnicode then none
          else some rest
      | _ => if m.isUnicode then none else some rest
    else if c == 'u' then
      match readUnicode? rest with
      | some (_, rest') =>
        if m.isUnicode || rest.head? != some '\x7b' then some rest' else some rest
      | none => if m.isUnicode then none else some rest
    else if c == 'p' || c == 'P' then
      if m.isUnicode then propertyName? rest else some rest
    else if c == 'k' && !inClass then
      match rest with
      | '<' :: rest' =>
        match groupName? rest' with
        | some (name, rest'') =>
          if m.names.contains name then some rest''
          else if m.isUnicode || !m.names.isEmpty then none else some rest
        | none => if m.isUnicode || !m.names.isEmpty then none else some rest
      | _ => if m.isUnicode || !m.names.isEmpty then none else some rest
    else if c == '0' then
      if m.isUnicode && ((rest.head?.map isAsciiDigit).getD false) then none else some rest
    else if isAsciiDigit c then
      if m.isUnicode then
        match number? cs with
        | some (n, rest') => if !inClass && n ≤ m.groups then some rest' else none
        | none => none
      else some rest
    else if m.isUnicode then
      if isPatternSign c || (inClass && c == '-') || (inClass && c == 'b') ||
          (m.hasSets && inClass && "&-!#%,:;<=>@\x60~q".toList.contains c) then some rest
      else none
    else some rest

/-- One member of a class: the character it stands for, if it is a single one. -/
def classAtom? (m : Mode) (cs : List Char) : Option (Option Char × List Char) :=
  match cs with
  | '\\' :: c :: rest =>
    match escape? m true (c :: rest) with
    | some rest' =>
      let many := "dDsSwWpP".toList.contains c
      let value := if many then none else
        match readEscape? (c :: rest) with
        | some ([v], _) => some v
        | _ => some c
      some (value, rest')
    | none => none
  | '\\' :: [] => none
  | c :: rest => some (some c, rest)
  | [] => none

def classMember (m : Mode) (next : List Char → Option (List Char)) (cs : List Char) :
    Option (List Char) :=
  match classAtom? m cs with
  | none => none
  | some (low, rest) =>
    match rest with
    | '-' :: ']' :: _ => next rest
    | '-' :: rest' =>
      if m.hasSets && rest'.head? == some '-' then next (rest'.drop 1) else
      match classAtom? m rest' with
      | none => none
      | some (high, rest'') =>
        match low, high with
        | some a, some b => if a.toNat ≤ b.toNat then next rest'' else none
        | _, _ => if m.isUnicode then none else next rest''
    | _ => next rest

def skipCaret : List Char → List Char
  | '^' :: rest => rest
  | rest => rest

def classMembers (m : Mode) : Nat → List Char → Option (List Char)
  | 0, _ => none
  | fuel + 1, cs =>
    match cs with
    | ']' :: rest => some rest
    | '[' :: rest =>
      if m.hasSets then (classMembers m fuel (skipCaret rest)).bind (classMembers m fuel)
      else classMember m (classMembers m fuel) cs
    | _ => classMember m (classMembers m fuel) cs

/-- How a parenthesis goes on: what is inside, and whether the group may be repeated. -/
def groupHead? (m : Mode) (cs : List Char) : Option (List Char × Bool) :=
  match cs with
  | '?' :: ':' :: rest => some (rest, true)
  | '?' :: '=' :: rest => some (rest, !m.isUnicode)
  | '?' :: '!' :: rest => some (rest, !m.isUnicode)
  | '?' :: '<' :: '=' :: rest => some (rest, false)
  | '?' :: '<' :: '!' :: rest => some (rest, false)
  | '?' :: '<' :: rest => (groupName? rest).map fun r => (r.2, true)
  | '?' :: rest =>
    let flags := rest.takeWhile fun c => "ims-".toList.contains c
    match rest.drop flags.length with
    | ':' :: rest' => if flags.isEmpty then none else some (rest', true)
    | _ => none
  | rest => some (rest, true)

def repeated (m : Mode) (quantifiable : Bool) (next : List Char → Option (List Char))
    (rest : List Char) :
    Option (List Char) :=
  match quantifier m rest with
  | .absent => next rest
  | .present rest' => if quantifiable then next rest' else none
  | .wrong => none

def terms (m : Mode) : Nat → List Char → Option (List Char)
  | 0, _ => none
  | fuel + 1, cs =>
    match cs with
    | [] => some []
    | ')' :: _ => some cs
    | '|' :: rest | '^' :: rest | '$' :: rest => terms m fuel rest
    | '\\' :: 'b' :: rest | '\\' :: 'B' :: rest => terms m fuel rest
    | '\\' :: rest => (escape? m false rest).bind (repeated m true (terms m fuel))
    | '[' :: rest =>
      (classMembers m (rest.length + 1) (skipCaret rest)).bind (repeated m true (terms m fuel))
    | '(' :: rest =>
      match groupHead? m rest with
      | none => none
      | some (inner, quantifiable) =>
        match terms m fuel inner with
        | some (')' :: rest') => repeated m quantifiable (terms m fuel) rest'
        | _ => none
    | '*' :: _ | '+' :: _ | '?' :: _ => none
    | c :: rest =>
      if m.isUnicode && (c == '\x7b' || c == '\x7d' || c == ']') then none
      else
        match c, quantifier m cs with
        | '\x7b', .present _ => none
        | _, _ => repeated m true (terms m fuel) rest

/-- The number of groups that capture, and their names. -/
def captures : Bool → List Char → Nat × List String
  | _, [] => (0, [])
  | inClass, '\\' :: _ :: cs => captures inClass cs
  | true, ']' :: cs => captures false cs
  | true, _ :: cs => captures true cs
  | false, '[' :: cs => captures true cs
  | false, '(' :: '?' :: '<' :: c :: cs =>
    let (n, names) := captures false cs
    if c == '=' || c == '!' then (n, names)
    else
      match groupName? (c :: cs) with
      | some (name, _) => (n + 1, name :: names)
      | none => (n + 1, names)
  | false, '(' :: '?' :: cs => captures false cs
  | false, '(' :: cs =>
    let (n, names) := captures false cs
    (n + 1, names)
  | false, _ :: cs => captures false cs

def isValid (pattern flags : String) : Bool :=
  let fs := flags.toList
  let cs := pattern.toList
  let (groups, names) := captures false cs
  let m : Mode := ⟨fs.contains 'u' || fs.contains 'v', fs.contains 'v', groups, names⟩
  fs.all (fun f => "dgimsuvy".toList.contains f) && fs.Nodup &&
    !(fs.contains 'u' && fs.contains 'v') &&
    (names.Nodup || cs.contains '|') && terms m (cs.length + 1) cs == some []

end ModuleLowering.RegExp
