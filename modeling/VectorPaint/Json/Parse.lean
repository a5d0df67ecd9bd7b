import VectorPaint.Decimal.Numeral

/-!
JSON values, their shortest text, and reading them. A number keeps its literal, and an object the
order of its members. A number that is read has no leading zeros and digits on both sides of a
point; a string has no control characters and no half of a surrogate pair. The values nest as deep
as there are tokens, which bounds the reading.
-/
namespace VectorPaint.Json

inductive Value where
  | null
  | bool (b : Bool)
  | number (literal : String)
  | string (s : String)
  | array (items : List Value)
  | object (members : List (String × Value))
  deriving Repr, Inhabited

def Value.ofNat (n : Nat) : Value := .number (toString n)

def hexDigit (n : Nat) : Char := "0123456789abcdef".toList.getD n '0'

/-- A character inside of quotes. -/
def escaped (c : Char) : List Char :=
  match c with
  | '"' => ['\\', '"']
  | '\\' => ['\\', '\\']
  | '\n' => ['\\', 'n']
  | '\r' => ['\\', 'r']
  | '\t' => ['\\', 't']
  | '\x08' => ['\\', 'b']
  | '\x0c' => ['\\', 'f']
  | c =>
    if c.toNat < 32 then
      ['\\', 'u', '0', '0', hexDigit (c.toNat / 16), hexDigit (c.toNat % 16)]
    else [c]

def quoted (s : String) : String :=
  String.ofList ('"' :: s.toList.flatMap escaped ++ ['"'])

mutual

def Value.text : Value → String
  | .null => "null"
  | .bool b => if b then "true" else "false"
  | .number literal => literal
  | .string s => quoted s
  | .array items => "[" ++ String.intercalate "," (itemTexts items) ++ "]"
  | .object members =>
    "\x7b" ++ String.intercalate "," (memberTexts members) ++ "\x7d"

def itemTexts : List Value → List String
  | [] => []
  | item :: rest => item.text :: itemTexts rest

def memberTexts : List (String × Value) → List String
  | [] => []
  | (name, value) :: rest => (quoted name ++ ":" ++ value.text) :: memberTexts rest

end

inductive Token where
  | openBrace
  | closeBrace
  | openBracket
  | closeBracket
  | colon
  | comma
  | null
  | bool (b : Bool)
  | number (literal : String)
  | string (s : String)
  deriving Repr, DecidableEq

def isSpace (c : Char) : Bool := c == ' ' || c == '\n' || c == '\r' || c == '\t'

def hexValue? (c : Char) : Option Nat :=
  if c.isDigit then some (c.toNat - '0'.toNat)
  else if 'a' ≤ c ∧ c ≤ 'f' then some (c.toNat - 'a'.toNat + 10)
  else if 'A' ≤ c ∧ c ≤ 'F' then some (c.toNat - 'A'.toNat + 10)
  else none

/-- The number of four hexadecimal digits. -/
def fourHex? (a b c d : Char) : Option Nat := do
  return (((← hexValue? a) * 16 + (← hexValue? b)) * 16 + (← hexValue? c)) * 16 + (← hexValue? d)

def isHighSurrogate (n : Nat) : Bool := 0xD800 ≤ n && n < 0xDC00

def isLowSurrogate (n : Nat) : Bool := 0xDC00 ≤ n && n < 0xE000

/-- The character of an escape with one letter. -/
def escapeLetter? : Char → Option Char
  | '"' => some '"'
  | '\\' => some '\\'
  | '/' => some '/'
  | 'b' => some '\x08'
  | 'f' => some '\x0c'
  | 'n' => some '\n'
  | 'r' => some '\r'
  | 't' => some '\t'
  | _ => none

/-- The characters of a string after its opening quote, and the text after its closing quote. -/
def stringBody : List Char → Option (List Char × List Char)
  | [] => none
  | '"' :: rest => some ([], rest)
  | '\\' :: 'u' :: a :: b :: c :: d :: '\\' :: 'u' :: e :: f :: g :: h :: rest => do
    let first ← fourHex? a b c d
    if isHighSurrogate first then
      let second ← fourHex? e f g h
      guard (isLowSurrogate second)
      let (more, after) ← stringBody rest
      return (Char.ofNat ((first - 0xD800) * 0x400 + (second - 0xDC00) + 0x10000) :: more, after)
    else
      guard (!isLowSurrogate first)
      let (more, after) ← stringBody ('\\' :: 'u' :: e :: f :: g :: h :: rest)
      return (Char.ofNat first :: more, after)
  | '\\' :: 'u' :: a :: b :: c :: d :: rest => do
    let first ← fourHex? a b c d
    guard (!isHighSurrogate first && !isLowSurrogate first)
    let (more, after) ← stringBody rest
    return (Char.ofNat first :: more, after)
  | '\\' :: letter :: rest => do
    let c ← escapeLetter? letter
    let (more, after) ← stringBody rest
    return (c :: more, after)
  | c :: rest => do
    guard (32 ≤ c.toNat)
    let (more, after) ← stringBody rest
    return (c :: more, after)

/-- The digits at the front of a text, of which there is at least one. -/
def someDigits (text : List Char) : Option (List Char × List Char) :=
  match text.takeWhile Char.isDigit with
  | [] => none
  | digits => some (digits, text.dropWhile Char.isDigit)

/-- The whole part of a number. -/
def wholePart : List Char → Option (List Char × List Char)
  | '0' :: rest => some (['0'], rest)
  | text => someDigits text

def fractionPart : List Char → Option (List Char × List Char)
  | '.' :: rest => do
    let (digits, rest) ← someDigits rest
    return ('.' :: digits, rest)
  | text => some ([], text)

def exponentSign : List Char → List Char × List Char
  | '+' :: rest => (['+'], rest)
  | '-' :: rest => (['-'], rest)
  | text => ([], text)

def exponentPart : List Char → Option (List Char × List Char)
  | c :: rest =>
    if c = 'e' ∨ c = 'E' then do
      let (sign, rest) := exponentSign rest
      let (digits, rest) ← someDigits rest
      return (c :: sign ++ digits, rest)
    else some ([], c :: rest)
  | [] => some ([], [])

/-- The literal of a number after its sign. -/
def unsignedNumber (text : List Char) : Option (List Char × List Char) := do
  let (whole, text) ← wholePart text
  let (fraction, text) ← fractionPart text
  let (exponent, text) ← exponentPart text
  return (whole ++ fraction ++ exponent, text)

/-- The token that begins with `c`, and the text after it. -/
def token (c : Char) (rest : List Char) : Option (Token × List Char) :=
  match c, rest with
  | '\x7b', _ => some (.openBrace, rest)
  | '\x7d', _ => some (.closeBrace, rest)
  | '[', _ => some (.openBracket, rest)
  | ']', _ => some (.closeBracket, rest)
  | ':', _ => some (.colon, rest)
  | ',', _ => some (.comma, rest)
  | '"', _ => (stringBody rest).map fun (s, after) => (.string (String.ofList s), after)
  | 'n', 'u' :: 'l' :: 'l' :: after => some (.null, after)
  | 't', 'r' :: 'u' :: 'e' :: after => some (.bool true, after)
  | 'f', 'a' :: 'l' :: 's' :: 'e' :: after => some (.bool false, after)
  | '-', _ =>
    (unsignedNumber rest).map fun (n, after) => (.number (String.ofList ('-' :: n)), after)
  | _, _ => (unsignedNumber (c :: rest)).map fun (n, after) => (.number (String.ofList n), after)

/-- All tokens of a text, from at most `limit` characters. -/
def tokensUpTo : Nat → List Char → Option (List Token)
  | 0, _ => none
  | limit + 1, text =>
    match text.dropWhile isSpace with
    | [] => some []
    | c :: rest => do
      let (first, after) ← token c rest
      return first :: (← tokensUpTo limit after)

/-- All tokens of a text. Every token takes a character, so the length bounds their number. -/
def tokens (text : List Char) : Option (List Token) := tokensUpTo (text.length + 1) text

mutual

/-- The value at the front of tokens, and the tokens after it. -/
def valueUpTo : Nat → List Token → Option (Value × List Token)
  | 0, _ => none
  | limit + 1, tokens =>
    match tokens with
    | .null :: rest => some (.null, rest)
    | .bool b :: rest => some (.bool b, rest)
    | .number literal :: rest => some (.number literal, rest)
    | .string s :: rest => some (.string s, rest)
    | .openBracket :: .closeBracket :: rest => some (.array [], rest)
    | .openBracket :: rest => (itemsUpTo limit rest).map fun (items, rest) => (.array items, rest)
    | .openBrace :: .closeBrace :: rest => some (.object [], rest)
    | .openBrace :: rest =>
      (membersUpTo limit rest).map fun (members, rest) => (.object members, rest)
    | _ => none

/-- The items of an array up to its end. -/
def itemsUpTo : Nat → List Token → Option (List Value × List Token)
  | 0, _ => none
  | limit + 1, tokens =>
    match valueUpTo limit tokens with
    | some (item, .closeBracket :: rest) => some ([item], rest)
    | some (item, .comma :: rest) =>
      (itemsUpTo limit rest).map fun (items, rest) => (item :: items, rest)
    | _ => none

/-- The members of an object up to its end. -/
def membersUpTo : Nat → List Token → Option (List (String × Value) × List Token)
  | 0, _ => none
  | limit + 1, tokens =>
    match tokens with
    | .string name :: .colon :: rest =>
      match valueUpTo limit rest with
      | some (value, .closeBrace :: rest) => some ([(name, value)], rest)
      | some (value, .comma :: rest) =>
        (membersUpTo limit rest).map fun (members, rest) => ((name, value) :: members, rest)
      | _ => none
    | _ => none

end

/-- The value that a text holds, with nothing else around it. -/
def parse (text : String) : Option Value := do
  let tokens ← tokens text.toList
  match valueUpTo (tokens.length + 1) tokens with
  | some (value, []) => some value
  | _ => none

end VectorPaint.Json
