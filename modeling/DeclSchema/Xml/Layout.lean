import DeclSchema.Xml.Tag

/-!
# Documents as text

A document is laid out in lines. Each line has a depth, and `Tag.lines` says which
lines a tag has without saying how a depth is indented; `Tag.render` indents them.
Names of tags are written with the letters that stand for the schema namespace.
-/

namespace DeclSchema.Xml

/-- The letters that stand for the schema namespace in every document. -/
def namespaceLetters : String := "xs"

/-- A character as it stands in a text, or in the value of an attribute. -/
def escapeChar (inValue : Bool) (c : Char) : List Char :=
  match c with
  | '&' => "&amp;".toList
  | '<' => "&lt;".toList
  | '>' => "&gt;".toList
  | '"' => if inValue then "&quot;".toList else ['"']
  | c => [c]

/-- A text, or the value of an attribute, as it stands in a document. -/
def escape (inValue : Bool) (text : String) : String :=
  String.ofList (text.toList.flatMap (escapeChar inValue))

/-- The name of a tag as it stands in a document. -/
def qualifiedName (name : String) : String :=
  namespaceLetters ++ ":" ++ name

/-- An attribute as it stands in a document, with the blank before it. -/
def attributeText : String × String → String
  | (key, value) => " " ++ key ++ "=\"" ++ escape true value ++ "\""

/-- The start of an opening tag, up to its attributes. -/
def openingText (name : String) (attributes : List (String × String)) : String :=
  "<" ++ qualifiedName name ++ String.join (attributes.map attributeText)

/-- A closing tag. -/
def closingText (name : String) : String :=
  "</" ++ qualifiedName name ++ ">"

/-- A line of a document and its depth. -/
structure Line where
  depth : Nat
  text : String
deriving DecidableEq, Repr

namespace Content

/-- The text parts of a content, written without anything between them. -/
def inlineText : List Content → String
  | [] => ""
  | .text value :: rest => escape false value ++ inlineText rest
  | .tag _ _ _ :: rest => inlineText rest

/-- The lines of a part of a document that stands at a depth. A tag with nothing but
text in it has one line. -/
def lines (depth : Nat) : Content → List Line
  | .text value => [⟨depth, escape false value⟩]
  | .tag name attributes content =>
    if content.isEmpty then
      [⟨depth, openingText name attributes ++ "/>"⟩]
    else if content.all isText then
      [⟨depth, openingText name attributes ++ ">" ++ inlineText content ++ closingText name⟩]
    else
      ⟨depth, openingText name attributes ++ ">"⟩ :: linesOf (depth + 1) content ++
        [⟨depth, closingText name⟩]
where
  /-- The lines of several parts at a depth. -/
  linesOf (depth : Nat) : List Content → List Line
    | [] => []
    | part :: rest => lines depth part ++ linesOf depth rest

end Content

/-- As many copies of an indentation unit as a depth says. -/
def indentation (unit : String) (depth : Nat) : String :=
  String.join (List.replicate depth unit)

namespace Tag

/-- The lines of a tag, the first of which has depth zero. -/
def lines (tag : Tag) : List Line :=
  (Content.ofTag tag).lines 0

/-- A tag as text, the lines indented by a unit for each level. The first line stands
at the given level. -/
def render (tag : Tag) (level : Nat) (unit : String) : String :=
  "\n".intercalate (tag.lines.map fun line => indentation unit (level + line.depth) ++ line.text)

/-- The indentation of documents for which none is chosen. -/
def defaultUnit : String := "  "

/-- A tag as text at the outermost level with the usual indentation. -/
def toText (tag : Tag) : String :=
  tag.render 0 defaultUnit

end Tag

/-- Whether documents may hold a character. -/
def isLegal (c : Char) : Bool :=
  let n := c.toNat
  n == 0x9 || n == 0xA || n == 0xD || (0x20 ≤ n && n ≤ 0xD7FF) || (0xE000 ≤ n && n ≤ 0xFFFD)
    || (0x10000 ≤ n && n ≤ 0x10FFFF)

/-- Whether documents may hold every character of a text. -/
def isLegalText (text : String) : Bool :=
  text.toList.all isLegal

end DeclSchema.Xml
