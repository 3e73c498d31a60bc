import DeclSchema.Proofs.Token.Spelling
import DeclSchema.Tree.Node

/-!
# Phrases of the grammar of types

A phrase is what the grammar of types derives. Function types and unions bind loosest,
then intersections, then what has square brackets behind it; inside brackets there is
room for any type again. Types of objects and type parameters are left out.

A phrase has a text on one line, the tokens that text spells, and the nodes it stands
for. Its depth is the length of the longest chain of types in it, each inside the one
before.
-/

namespace DeclSchema

open Pattern

/-- A word of a source. -/
structure Word where
  text : String
  spelled : isWord text.toList

/-- A number of a source, in any of its notations. -/
structure NumberText where
  text : String
  spelled : isNumeral text.toList

namespace Node

/-- A node that stands nowhere. -/
def bare (kind : NodeKind) (children : List Node) : Node :=
  ⟨kind, none, [], .empty 0, children⟩

/-- A leaf that stands nowhere. -/
def bareLeaf (kind : NodeKind) (text : String) : Node :=
  .leaf kind text (.empty 0)

/-- A tree without the places it was read from. -/
def withoutSpans : Node → Node
  | ⟨kind, text, tags, _, children⟩ => ⟨kind, text, tags, .empty 0, list children⟩
where
  /-- Several trees without the places they were read from. -/
  list : List Node → List Node
    | [] => []
    | node :: rest => withoutSpans node :: list rest

end Node

namespace Word

/-- The name that is a single word. -/
def node (word : Word) : Node :=
  .bareLeaf .identifier word.text

/-- Whether a word begins a type of its own wherever it stands, so that no type is
called by it. `readonly` before a type is passed over. -/
def isReserved (word : Word) : Bool :=
  (NodeKind.keywordType? word.text).isSome ||
    ["typeof", "true", "false", "readonly"].contains word.text

end Word

/-- A name with points between its words, if it has more than one. -/
structure DottedName where
  first : Word
  others : List Word

namespace DottedName

/-- The words of a name. -/
def words (name : DottedName) : List Word :=
  name.first :: name.others

def print (name : DottedName) : String :=
  ".".intercalate (name.words.map Word.text)

def glyphs (name : DottedName) : List Glyph :=
  .inline .word name.first.text ::
    name.others.flatMap fun word => [Glyph.inline .dot ".", .inline .word word.text]

def node (name : DottedName) : Node :=
  if name.others = [] then
    name.first.node
  else
    { Node.bare .qualifiedName (name.words.map Word.node) with text := name.print }

end DottedName

/-- What the grammar has rules for. A suffixed type is a primary one, or one with square
brackets behind another. -/
inductive Category where
  | type
  | intersection
  | suffixed
  | parameter
  | element
deriving DecidableEq

namespace Category

/-- What stands between two phrases of a category. -/
def separator : Category → String
  | .intersection => " | "
  | .suffixed => " & "
  | .type | .parameter | .element => ", "

/-- The token between two phrases of a category. -/
def separatorGlyph : Category → Glyph
  | .intersection => .inline .pipe "|"
  | .suffixed => .inline .amp "&"
  | .type | .parameter | .element => .inline .comma ","

end Category

/-- A part of a phrase: one phrase of a category, or those that follow the first one
in a list. -/
inductive Part where
  | one (category : Category)
  | others (category : Category)

/-- What the grammar of types derives. -/
inductive Phrase : Part → Type where
  /-- A function type without parameters. -/
  | nullary (returned : Phrase (.one .type)) : Phrase (.one .type)
  | function (first : Phrase (.one .parameter)) (others : Phrase (.others .parameter))
      (returned : Phrase (.one .type)) : Phrase (.one .type)
  | union (first second : Phrase (.one .intersection)) (others : Phrase (.others .intersection)) :
      Phrase (.one .type)
  | ofIntersection (operand : Phrase (.one .intersection)) : Phrase (.one .type)
  | intersection (first second : Phrase (.one .suffixed)) (others : Phrase (.others .suffixed)) :
      Phrase (.one .intersection)
  | ofSuffixed (operand : Phrase (.one .suffixed)) : Phrase (.one .intersection)
  | array (target : Phrase (.one .suffixed)) : Phrase (.one .suffixed)
  | indexed (target : Phrase (.one .suffixed)) (index : Phrase (.one .type)) :
      Phrase (.one .suffixed)
  | keyword (word : Word) (kind : NodeKind) (h : NodeKind.keywordType? word.text = some kind) :
      Phrase (.one .suffixed)
  | truth (value : Bool) : Phrase (.one .suffixed)
  | string (value : String) : Phrase (.one .suffixed)
  | number (negative : Bool) (numeral : NumberText) : Phrase (.one .suffixed)
  /-- A named type without type arguments. -/
  | reference (name : DottedName) (h : ¬ name.first.isReserved) : Phrase (.one .suffixed)
  /-- A named type with type arguments. The word `new` before an angle bracket begins a
  function type. -/
  | applied (name : DottedName) (h : ¬ name.first.isReserved)
      (hnew : name.others = [] → name.first.text ≠ "new") (first : Phrase (.one .type))
      (others : Phrase (.others .type)) : Phrase (.one .suffixed)
  /-- The type of a value. -/
  | query (name : DottedName) : Phrase (.one .suffixed)
  | parenthesized (inside : Phrase (.one .type)) : Phrase (.one .suffixed)
  | emptyTuple : Phrase (.one .suffixed)
  | tuple (first : Phrase (.one .element)) (others : Phrase (.others .element)) :
      Phrase (.one .suffixed)
  | parameter (name : Word) (type : Phrase (.one .type)) : Phrase (.one .parameter)
  | element (type : Phrase (.one .type)) : Phrase (.one .element)
  | spread (type : Phrase (.one .type)) : Phrase (.one .element)
  | done {category : Category} : Phrase (.others category)
  | more {category : Category} (next : Phrase (.one category))
      (others : Phrase (.others category)) : Phrase (.others category)

namespace Phrase

variable {part : Part}

/-- A phrase as a text on one line. -/
@[simp] def print {part : Part} : Phrase part → String
  | nullary returned => "()" ++ " => " ++ print returned
  | function first others returned =>
    "(" ++ print first ++ print others ++ ")" ++ " => " ++ print returned
  | union first second others => print first ++ " | " ++ print second ++ print others
  | ofIntersection operand => print operand
  | intersection first second others => print first ++ " & " ++ print second ++ print others
  | ofSuffixed operand => print operand
  | array target => print target ++ "[]"
  | indexed target index => print target ++ "[" ++ print index ++ "]"
  | keyword word _ _ => word.text
  | truth true => "true"
  | truth false => "false"
  | string value => Quoted.quote value
  | number true numeral => "-" ++ numeral.text
  | number false numeral => numeral.text
  | reference name _ => name.print
  | applied name _ _ first others => name.print ++ "<" ++ print first ++ print others ++ ">"
  | query name => "typeof " ++ name.print
  | parenthesized inside => "(" ++ print inside ++ ")"
  | emptyTuple => "[]"
  | tuple first others => "[" ++ print first ++ print others ++ "]"
  | parameter name type => name.text ++ ": " ++ print type
  | element type => print type
  | spread type => "..." ++ print type
  | done => ""
  | @more category next others => category.separator ++ print next ++ print others

/-- The tokens that the text of a phrase spells. -/
@[simp] def glyphs {part : Part} : Phrase part → List Glyph
  | nullary returned =>
    [Glyph.inline .lParen "(", .inline .rParen ")"] ++ [Glyph.inline .arrow "=>"] ++ glyphs returned
  | function first others returned =>
    [Glyph.inline .lParen "("] ++ glyphs first ++ glyphs others ++ [Glyph.inline .rParen ")"] ++
      [Glyph.inline .arrow "=>"] ++ glyphs returned
  | union first second others =>
    glyphs first ++ [Glyph.inline .pipe "|"] ++ glyphs second ++ glyphs others
  | ofIntersection operand => glyphs operand
  | intersection first second others =>
    glyphs first ++ [Glyph.inline .amp "&"] ++ glyphs second ++ glyphs others
  | ofSuffixed operand => glyphs operand
  | array target => glyphs target ++ [Glyph.inline .lBracket "[", .inline .rBracket "]"]
  | indexed target index =>
    glyphs target ++ [Glyph.inline .lBracket "["] ++ glyphs index ++ [Glyph.inline .rBracket "]"]
  | keyword word _ _ => [Glyph.inline .word word.text]
  | truth true => [Glyph.inline .word "true"]
  | truth false => [Glyph.inline .word "false"]
  | string value => [Glyph.inline .string (Quoted.quote value)]
  | number true numeral => [Glyph.inline .minus "-", .inline .number numeral.text]
  | number false numeral => [Glyph.inline .number numeral.text]
  | reference name _ => name.glyphs
  | applied name _ _ first others =>
    name.glyphs ++ [Glyph.inline .lt "<"] ++ glyphs first ++ glyphs others ++ [Glyph.inline .gt ">"]
  | query name => [Glyph.inline .word "typeof"] ++ name.glyphs
  | parenthesized inside => [Glyph.inline .lParen "("] ++ glyphs inside ++ [Glyph.inline .rParen ")"]
  | emptyTuple => [Glyph.inline .lBracket "[", .inline .rBracket "]"]
  | tuple first others =>
    [Glyph.inline .lBracket "["] ++ glyphs first ++ glyphs others ++ [Glyph.inline .rBracket "]"]
  | parameter name type => [Glyph.inline .word name.text] ++ [Glyph.inline .colon ":"] ++ glyphs type
  | element type => glyphs type
  | spread type => [Glyph.inline .ellipsis "..."] ++ glyphs type
  | done => []
  | @more category next others => [category.separatorGlyph] ++ glyphs next ++ glyphs others

/-- The nodes that a phrase stands for, which is one except in lists. -/
@[simp] def nodes {part : Part} : Phrase part → List Node
  | nullary returned => [.bare .functionType (nodes returned)]
  | function first others returned =>
    [.bare .functionType (nodes first ++ nodes others ++ nodes returned)]
  | union first second others => [.bare .unionType (nodes first ++ nodes second ++ nodes others)]
  | ofIntersection operand => nodes operand
  | intersection first second others =>
    [.bare .intersectionType (nodes first ++ nodes second ++ nodes others)]
  | ofSuffixed operand => nodes operand
  | array target => [.bare .arrayType (nodes target)]
  | indexed target index => [.bare .indexedAccessType (nodes target ++ nodes index)]
  | keyword word kind _ => [.bareLeaf kind word.text]
  | truth true => [.bare .literalType [.bareLeaf .trueKeyword "true"]]
  | truth false => [.bare .literalType [.bareLeaf .falseKeyword "false"]]
  | string value => [.bare .literalType [.bareLeaf .stringLiteral value]]
  | number true numeral =>
    [.bare .literalType [.bareLeaf .numericLiteral ("-" ++ numeral.text)]]
  | number false numeral => [.bare .literalType [.bareLeaf .numericLiteral numeral.text]]
  | reference name _ => [.bare .typeReference [name.node]]
  | applied name _ _ first others =>
    [.bare .typeReference (name.node :: nodes first ++ nodes others)]
  | query name => [.bare .typeQuery [name.node]]
  | parenthesized inside => [.bare .parenthesizedType (nodes inside)]
  | emptyTuple => [.bare .tupleType []]
  | tuple first others => [.bare .tupleType (nodes first ++ nodes others)]
  | parameter name type => [.bare .parameter (name.node :: nodes type)]
  | element type => nodes type
  | spread type => [.bare .spreadElement (nodes type)]
  | done => []
  | more next others => nodes next ++ nodes others

/-- The length of the longest chain of types in a phrase, each inside the one before. -/
@[simp] def depth {part : Part} : Phrase part → Nat
  | nullary returned => depth returned + 1
  | function first others returned => max (max (depth first) (depth others)) (depth returned) + 1
  | union first second others => max (depth first) (max (depth second) (depth others)) + 1
  | ofIntersection operand => depth operand + 1
  | intersection first second others => max (depth first) (max (depth second) (depth others))
  | ofSuffixed operand => depth operand
  | array target => depth target
  | indexed target index => max (depth target) (depth index)
  | applied _ _ _ first others => max (depth first) (depth others)
  | parenthesized inside => depth inside
  | tuple first others => max (depth first) (depth others)
  | parameter _ type => depth type
  | element type => depth type
  | spread type => depth type
  | more next others => max (depth next) (depth others)
  | keyword .. | truth _ | string _ | number .. | reference .. | query _ | emptyTuple | done => 0

/-- How many pairs of square brackets stand behind the primary type that a phrase of
suffixed types begins with. -/
def suffixes {part : Part} : Phrase part → Nat
  | array target => suffixes target + 1
  | indexed target _ => suffixes target + 1
  | _ => 0

/-- How many phrases a list of others has. -/
def length {part : Part} : Phrase part → Nat
  | more _ others => length others + 1
  | _ => 0

end Phrase

end DeclSchema
