import VectorPaint.Markup.Token

/-!
The tree of a document: elements with the nodes below them, text, comments and processing
instructions. What turns a text into such a tree is a parameter of drawing; here is one that can be
run. Qualifiers stand for namespaces that are in scope; elements are known by their names without
qualifiers, and attributes with a qualifier are not kept.
-/
namespace VectorPaint.Markup

/-- A node of a document. An element holds the nodes directly below it in their order. -/
inductive Node where
  | element (name : String) (attributes : List (String × String)) (children : List Node)
  | text (content : String)
  | comment (content : String)
  | instruction (content : String)
  deriving Repr, Inhabited

namespace Node

def isElement : Node → Bool
  | element .. => true
  | _ => false

/-- The name of an element; other nodes have an empty one. -/
def name : Node → String
  | element name _ _ => name
  | _ => ""

/-- The attributes of an element; other nodes have none. -/
def attributes : Node → List (String × String)
  | element _ attributes _ => attributes
  | _ => []

end Node

/-- The namespaces of qualifiers, the innermost first; the default one has no qualifier. -/
abbrev Scope := List (String × String)

/-- The last parts of the name of a namespace, between slashes. -/
def endsIn (parts : List String) (namespaceName : String) : Bool :=
  parts.isSuffixOf (namespaceName.splitOn "/")

/-- The namespace of the qualifier `xml`. -/
def isXmlNamespace : String → Bool := endsIn ["XML", "1998", "namespace"]

/-- The namespace of declarations, which nothing else can have. -/
def isDeclarationNamespace : String → Bool := endsIn ["2000", "xmlns", ""]

/-- The namespaces that attributes declare for an element. A qualifier is declared at most once,
and only `xml` stands for its own namespace. -/
def declarations? (attributes : List (Name × String)) : Option Scope :=
  attributes.foldlM (fun declared (name, value) =>
    if name.qualifier = "xmlns" then do
      guard (!isDeclarationNamespace value)
      guard ((name.base == "xml") == isXmlNamespace value)
      guard (declared.lookup name.base).isNone
      return if isXmlNamespace value then declared else declared ++ [(name.base, value)]
    else if name.base = "xmlns" then do
      guard (!isXmlNamespace value && !isDeclarationNamespace value)
      return declared ++ [("", value)]
    else return declared) []

/-- Whether an attribute declares a namespace and is otherwise not seen. -/
def isDeclaration (name : Name) : Bool := name.qualifier == "xmlns" || name.base == "xmlns"

/-- The namespace of an attribute. -/
inductive Space where
  | none
  | xml
  | declared (name : String)
  deriving DecidableEq

/-- The namespace of an attribute; one without a qualifier has none. -/
def attributeSpace? (scope : Scope) (name : Name) : Option Space :=
  if name.qualifier = "xml" then some .xml
  else if name.qualifier = "" then some .none
  else (scope.lookup name.qualifier).map .declared

/-- The attributes of an element that are not declarations and have no namespace. No two attributes
have the same name in the same namespace. -/
def plainAttributes? (scope : Scope) (attributes : List (Name × String)) :
    Option (List (String × String)) := do
  let own := attributes.filter fun (name, _) => !isDeclaration name
  let named ← own.mapM fun (name, value) =>
    (attributeSpace? scope name).map fun space => ((space, name.base), value)
  guard (named.map Prod.fst).Nodup
  return named.filterMap fun ((space, base), value) =>
    if space = .none then some (base, value) else none

/-- An element that is open: the nodes below it so far are in reverse. -/
structure Frame where
  name : Name
  scope : Scope
  attributes : List (String × String)
  children : List Node

/-- The element that a frame becomes at its closing tag. -/
def Frame.close (frame : Frame) : Node :=
  .element frame.name.base frame.attributes frame.children.reverse

/-- A document under way: the open elements, the innermost first, and the root once it is closed. -/
structure Assembly where
  frames : List Frame
  root : Option Node

namespace Assembly

/-- Adds a finished element to the innermost open one, or makes it the root. -/
def add (a : Assembly) (element : Node) : Assembly :=
  match a.frames with
  | [] => { a with root := some element }
  | frame :: outer =>
    { a with frames := { frame with children := element :: frame.children } :: outer }

/-- Adds a node to the innermost open element. What is outside of the root is not kept. -/
def note (a : Assembly) (node : Node) : Assembly :=
  match a.frames with
  | [] => a
  | frame :: outer =>
    { a with frames := { frame with children := node :: frame.children } :: outer }

/-- The element that a tag opens. A qualifier has to be in scope, and there is only one root. -/
def opened? (a : Assembly) (name : Name) (attributes : List (Name × String)) : Option Frame := do
  guard (!(a.frames.isEmpty && a.root.isSome))
  guard (name.qualifier ≠ "xmlns")
  let scope := (← declarations? attributes) ++ (a.frames.head?.map Frame.scope).getD []
  guard (name.qualifier = "" ∨ (scope.lookup name.qualifier).isSome)
  return ⟨name, scope, ← plainAttributes? scope attributes, []⟩

/-- Takes the next token. Outside of the root there are only comments, instructions and spaces. -/
def feed (a : Assembly) : Token → Option Assembly
  | .openTag name attributes isEmpty => do
    let frame ← a.opened? name attributes
    return if isEmpty then a.add frame.close else { a with frames := frame :: a.frames }
  | .closeTag name =>
    match a.frames with
    | [] => none
    | frame :: outer =>
      if frame.name = name then some (add { a with frames := outer } frame.close) else none
  | .text written value =>
    if a.frames.isEmpty && !written.all isSpace then none
    else some (a.note (.text (String.ofList value)))
  | .characterData content =>
    if a.frames.isEmpty then none else some (a.note (.text (String.ofList content)))
  | .comment content => some (a.note (.comment (String.ofList content)))
  | .instruction content => some (a.note (.instruction (String.ofList content)))

end Assembly

/-- The root of a well-formed document. -/
def parse? (text : String) : Option Node := do
  let final ← (← tokens? text).foldlM Assembly.feed ⟨[], none⟩
  guard final.frames.isEmpty
  final.root

end VectorPaint.Markup
