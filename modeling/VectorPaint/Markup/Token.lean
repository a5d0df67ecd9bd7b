import VectorPaint.Json.Parse

/-!
Tokens of markup: tags with their attributes, text, unparsed character data, comments and processing
instructions. Document types are refused. A reference stands for a character, by number or by one of
five names; there are no other entities.
-/
namespace VectorPaint.Markup

def isSpace (c : Char) : Bool := c == ' ' || c == '\t' || c == '\n' || c == '\r'

/-- The characters that a document may hold. -/
def isLegal (c : Char) : Bool :=
  if c.toNat < 0x20 then isSpace c else c.toNat != 0xFFFE && c.toNat != 0xFFFF

/-- The ranges of letters that a name may begin with, beyond the first 128 characters. -/
def letterRanges : List (Nat × Nat) :=
  [(0xC0, 0xD6), (0xD8, 0xF6), (0xF8, 0x2FF), (0x370, 0x37D), (0x37F, 0x1FFF),
    (0x200C, 0x200D), (0x2070, 0x218F), (0x2C00, 0x2FEF), (0x3001, 0xD7FF), (0xF900, 0xFDCF),
    (0xFDF0, 0xFFFD), (0x10000, 0xEFFFF)]

/-- The further characters of names, beyond the first 128 characters. -/
def markRanges : List (Nat × Nat) := [(0xB7, 0xB7), (0x300, 0x36F), (0x203F, 0x2040)]

def inRanges (ranges : List (Nat × Nat)) (c : Char) : Bool :=
  ranges.any fun range => range.1 ≤ c.toNat && c.toNat ≤ range.2

def isNameStart (c : Char) : Bool :=
  if c.toNat ≤ 128 then c.isAlpha || c == ':' || c == '_' else inRanges letterRanges c

def isNameChar (c : Char) : Bool :=
  if c.toNat ≤ 128 then c.isAlphanum || c == ':' || c == '_' || c == '-' || c == '.'
  else inRanges letterRanges c || inRanges markRanges c

/-- The character of a number of 32 bits; numbers that are no character give the replacement
character. -/
def numbered? (base : Nat) (digits : List Char) : Option Char := do
  guard (!digits.isEmpty)
  let values ← digits.mapM Json.hexValue?
  guard (values.all (· < base))
  let n := values.foldl (fun n digit => n * base + digit) 0
  guard (n ≤ 0xFFFFFFFF)
  let c := if n.isValidChar then Char.ofNat n else '\uFFFD'
  guard (isLegal c)
  return c

/-- The character that is referred to between an ampersand and a semicolon. -/
def referred? : List Char → Option Char
  | '#' :: 'x' :: digits => numbered? 16 digits
  | '#' :: digits => numbered? 10 digits
  | name =>
    match String.ofList name with
    | "quot" => some '\x22'
    | "amp" => some '&'
    | "apos" => some '\x27'
    | "lt" => some '<'
    | "gt" => some '>'
    | _ => none

/-- The value of a text with references. A line end of two characters is one, and `plain` tells what
becomes of characters that are not referred to. `reference` holds the characters of a reference
under way, in reverse. -/
def expandFrom (plain : Char → Char) (reference : Option (List Char)) (text : List Char) :
    Option (List Char) :=
  match reference, text with
  | none, [] => some []
  | some _, [] => none
  | none, c :: rest =>
    if c = '&' then expandFrom plain (some []) rest
    else if c = '\r' ∧ rest.head? = some '\n' then expandFrom plain none rest
    else (expandFrom plain none rest).map (plain c :: ·)
  | some name, c :: rest =>
    if c = ';' then do
      let referred ← referred? name.reverse
      return referred :: (← expandFrom plain none rest)
    else expandFrom plain (some (c :: name)) rest

/-- The value of an attribute. Line ends and tabs become spaces. -/
def attributeValue? (text : List Char) : Option (List Char) :=
  expandFrom (fun c => if isSpace c then ' ' else c) none text

/-- The value of a text between tags. -/
def textValue? (text : List Char) : Option (List Char) :=
  expandFrom (fun c => if c = '\r' then '\n' else c) none text

/-- A name with an optional qualifier before a colon. -/
structure Name where
  qualifier : String
  base : String
  deriving DecidableEq, Repr

inductive Token where
  | openTag (name : Name) (attributes : List (Name × String)) (isEmpty : Bool)
  | closeTag (name : Name)
  | text (written value : List Char)
  | characterData (content : List Char)
  | comment (content : List Char)
  | instruction (content : List Char)
  deriving Repr

def skipSpaces (text : List Char) : List Char := text.dropWhile isSpace

/-- The text after an expected beginning. -/
def after? (expected : String) (text : List Char) : Option (List Char) :=
  if expected.toList.isPrefixOf text then some (text.drop expected.length) else none

/-- The text before and after the first place of a delimiter; all characters before it are legal. -/
def splitAt? (delimiter : String) : List Char → Option (List Char × List Char)
  | [] => none
  | c :: rest =>
    match after? delimiter (c :: rest) with
    | some after => some ([], after)
    | none =>
      if isLegal c then (splitAt? delimiter rest).map fun (before, after) => (c :: before, after)
      else none

def beginsName (text : List Char) : Bool := text.head?.any isNameStart

/-- A name with at most one colon. Each of its parts begins as names do; the part before the colon
may be empty. -/
def takeName? (text : List Char) : Option (Name × List Char) := do
  let word := text.takeWhile isNameChar
  let rest := text.dropWhile isNameChar
  let (qualifier, base) :=
    match word.dropWhile (· != ':') with
    | [] => ([], word)
    | _ :: base => (word.takeWhile (· != ':'), base)
  guard (qualifier.isEmpty || beginsName qualifier)
  guard (beginsName base && !base.contains ':')
  return (⟨String.ofList qualifier, String.ofList base⟩, rest)

/-- An attribute as it is written: its name and the text between its quotes, which holds no opening
bracket. -/
def takeAttribute? (text : List Char) : Option ((Name × List Char) × List Char) := do
  let (name, text) ← takeName? text
  let text ← after? "=" (skipSpaces text)
  match skipSpaces text with
  | [] => none
  | quote :: text =>
    guard (quote = '\x22' || quote = '\x27')
    let inside (c : Char) : Bool := c != quote && c != '<'
    let value := text.takeWhile inside
    guard (value.all isLegal)
    match text.dropWhile inside with
    | [] => none
    | stop :: rest =>
      guard (stop = quote)
      return ((name, value), rest)

/-- The attributes up to the end of a tag, and whether the tag is that of an empty element. Each
attribute comes after a space; there are at most `limit` of them. -/
def takeAttributes? : Nat → List Char → Option (List (Name × String) × Bool × List Char)
  | 0, _ => none
  | limit + 1, text =>
    match skipSpaces text with
    | '/' :: '>' :: rest => some ([], true, rest)
    | '>' :: rest => some ([], false, rest)
    | found => do
      guard (text.head?.any isSpace)
      let ((name, value), text) ← takeAttribute? found
      let value ← attributeValue? value
      let (more, isEmpty, rest) ← takeAttributes? limit text
      return ((name, String.ofList value) :: more, isEmpty, rest)

/-- A comment after its opening: it holds no two dashes in a row, nor a dash at its end. -/
def takeComment? (text : List Char) : Option (Token × List Char) := do
  let (content, rest) ← splitAt? "-->" text
  guard ((splitAt? "--" content).isNone && content.getLast? != some '-')
  return (.comment content, rest)

/-- An instruction after its opening. Its name is not checked further, but what looks like a
declaration is none. -/
def takeInstruction? (text : List Char) : Option (Token × List Char) := do
  guard (after? "xml " text).isNone
  guard (beginsName text)
  let (content, rest) ← splitAt? "?>" (skipSpaces (text.dropWhile isNameChar))
  return (.instruction (text.takeWhile isNameChar ++ ' ' :: content), rest)

/-- Text up to the next tag. -/
def takeText? (text : List Char) : Option (Token × List Char) := do
  let written := text.takeWhile (· != '<')
  guard (written.all isLegal && (splitAt? "]]>" written).isNone)
  return (.text written (← textValue? written), text.dropWhile (· != '<'))

/-- The token that a text begins with, and the text after it. -/
def token? (text : List Char) : Option (Token × List Char) :=
  match text with
  | '<' :: '!' :: '-' :: '-' :: rest => takeComment? rest
  | '<' :: '?' :: rest => takeInstruction? rest
  | '<' :: '/' :: rest => do
    let (name, rest) ← takeName? rest
    let rest ← after? ">" (skipSpaces rest)
    return (.closeTag name, rest)
  | '<' :: rest =>
    match after? "![CDATA[" rest with
    | some rest => (splitAt? "]]>" rest).map fun (content, rest) => (.characterData content, rest)
    | none => do
      let (name, rest) ← takeName? rest
      let (attributes, isEmpty, rest) ← takeAttributes? (rest.length + 1) rest
      return (.openTag name attributes isEmpty, rest)
  | _ => takeText? text

/-- All tokens of a text, at most `limit` of them. -/
def tokensUpTo? : Nat → List Char → Option (List Token)
  | _, [] => some []
  | 0, _ => none
  | limit + 1, text => do
    let (first, rest) ← token? text
    return first :: (← tokensUpTo? limit rest)

/-- Spaces between the parts of a declaration, which may be missing before its end. -/
def declarationSpace? (text : List Char) : Option (List Char) :=
  if text.head?.any isSpace || text.isEmpty || (after? "?>" text).isSome then
    some (skipSpaces text)
  else none

/-- The text after a declaration, which begins with its version. Encoding and standalone status may
follow. -/
def takeDeclaration? (text : List Char) : Option (List Char) := do
  let text ← declarationSpace? text
  guard (after? "version" text).isSome
  let (_, text) ← takeAttribute? text
  let text ← declarationSpace? text
  let text ←
    match after? "encoding" text with
    | none => pure text
    | some _ => do
      let (_, text) ← takeAttribute? text
      declarationSpace? text
  let text ←
    match after? "standalone" text with
    | none => pure text
    | some _ => (takeAttribute? text).map Prod.snd
  after? "?>" (skipSpaces text)

/-- The text after a byte order mark. -/
def withoutMark : List Char → List Char
  | '\uFEFF' :: rest => rest
  | text => text

/-- All tokens of a document after its optional declaration. -/
def tokens? (text : String) : Option (List Token) := do
  let text := withoutMark text.toList
  let body ←
    match after? "<?xml " text with
    | none => pure text
    | some rest => takeDeclaration? (' ' :: rest)
  tokensUpTo? body.length body

end VectorPaint.Markup
