import DeclSchema.Proofs.Phrase.Spelling
import DeclSchema.Proofs.Phrase.Steps

/-!
# Interfaces with phrases in them

An interface on one line, whose members are properties with a phrase as their type: its
text, its tokens and its node. A document has any number of such lines.
-/

namespace DeclSchema

open Pattern TokenStream DeclSchema.Parser

/-- The name of a property: a word, a text in quotes, or a word in square brackets, which
gives no name to anybody else. -/
inductive Key where
  | word (name : Word)
  | string (value : String)
  | computed (name : Word)

namespace Key

def print : Key → String
  | .word name => name.text
  | .string value => Quoted.quote value
  | .computed name => "[" ++ name.text ++ "]"

def glyphs : Key → List Glyph
  | .word name => [Glyph.inline .word name.text]
  | .string value => [Glyph.inline .string (Quoted.quote value)]
  | .computed name =>
    [Glyph.inline .lBracket "["] ++ [Glyph.inline .word name.text] ++ [Glyph.inline .rBracket "]"]

def nodes : Key → List Node
  | .word name => [name.node]
  | .string value => [.bareLeaf .stringLiteral value]
  | .computed _ => []

end Key

/-- A property of an interface with its type. -/
structure PropertyPhrase where
  key : Key
  isOptional : Bool
  phrase : Phrase (.one .type)

namespace PropertyPhrase

def print (property : PropertyPhrase) : String :=
  " " ++ property.key.print ++ (if property.isOptional then "?" else "") ++ ": " ++
    property.phrase.print ++ ";"

def question (property : PropertyPhrase) : List Glyph :=
  if property.isOptional then [Glyph.inline .question "?"] else []

def glyphs (property : PropertyPhrase) : List Glyph :=
  property.key.glyphs ++ property.question ++ [Glyph.inline .colon ":"] ++ property.phrase.glyphs ++
    [Glyph.inline .semicolon ";"]

def node (property : PropertyPhrase) : Node :=
  .bare .propertySignature (property.key.nodes ++
    (if property.isOptional then [.bare .questionToken []] else []) ++ property.phrase.nodes)

end PropertyPhrase

/-- An interface with properties. -/
structure InterfacePhrase where
  name : Word
  properties : List PropertyPhrase

namespace InterfacePhrase

/-- The line of an interface behind its first word. -/
def printBehind (declared : InterfacePhrase) : String :=
  " " ++ declared.name.text ++ " \x7b" ++
    String.join (declared.properties.map PropertyPhrase.print) ++ " \x7d"

def print (declared : InterfacePhrase) : String :=
  "interface" ++ declared.printBehind

/-- The tokens of the line of an interface behind its first word. -/
def glyphsBehind (declared : InterfacePhrase) : List Glyph :=
  [Glyph.inline .word declared.name.text] ++ [Glyph.inline .lBrace "\x7b"] ++
    declared.properties.flatMap PropertyPhrase.glyphs ++ [Glyph.inline .rBrace "\x7d"]

def node (declared : InterfacePhrase) : Node :=
  .bare .interfaceDeclaration (declared.name.node :: declared.properties.map PropertyPhrase.node)

end InterfacePhrase

/-- Interfaces on a line each. -/
def document (lines : List InterfacePhrase) : String :=
  "\n".intercalate (lines.map InterfacePhrase.print)

/-- The tokens of interfaces on a line each; `newline` tells whether the first of them
stands on another line than what is before it. -/
def documentGlyphs : Bool → List InterfacePhrase → List Glyph
  | _, [] => []
  | newline, declared :: rest =>
    ⟨.word, "interface", newline⟩ :: declared.glyphsBehind ++ documentGlyphs true rest

namespace Key

theorem spells (key : Key) {tail : List Char} (htail : stops tail) :
    Spells key.print key.glyphs tail := by
  cases key with
  | word name => exact .word_of_stops name.spelled htail
  | string value => exact .string value
  | computed name =>
    exact ((Spells.marks "[" rfl).append (.word_of_stops name.spelled rfl)).append (.marks "]" rfl)

end Key

namespace PropertyPhrase

theorem spells (property : PropertyPhrase) (tail : List Char) :
    Spells property.print property.glyphs tail := by
  obtain ⟨key, isOptional, phrase⟩ := property
  cases isOptional with
  | true =>
    exact (((((Spells.marks " " rfl).append (key.spells rfl)).append (.marks "?" rfl)).append
      (.marks ": " rfl)).append (phrase.spells rfl)).append (.marks ";" rfl)
  | false =>
    exact (((((Spells.marks " " rfl).append (key.spells rfl)).append .empty).append
      (.marks ": " rfl)).append (phrase.spells rfl)).append (.marks ";" rfl)

theorem spells_join (properties : List PropertyPhrase) (tail : List Char) :
    Spells (String.join (properties.map print)) (properties.flatMap glyphs) tail := by
  induction properties with
  | nil => exact .empty
  | cons property properties ih =>
    rw [List.map_cons, String.join_cons, List.flatMap_cons]
    exact (property.spells _).append ih

end PropertyPhrase

namespace InterfacePhrase

theorem stops_printBehind (declared : InterfacePhrase) : stops declared.printBehind.toList := by
  simp only [printBehind, String.toList_append, List.append_assoc]
  rfl

theorem spells_behind (declared : InterfacePhrase) (tail : List Char) :
    Spells declared.printBehind declared.glyphsBehind tail :=
  ((((Spells.marks " " rfl).append (.word_of_stops declared.name.spelled rfl)).append
    (.marks " \x7b" rfl)).append (PropertyPhrase.spells_join declared.properties _)).append
    (.marks " \x7d" rfl)

end InterfacePhrase

theorem ofChars_document (lines : List InterfacePhrase) (offset : Nat) (newline : Bool) :
    ∃ tokens, ofChars offset newline [] (document lines).toList = ⟨tokens, []⟩ ∧
      tokens.map Token.glyph = documentGlyphs newline lines := by
  induction lines generalizing offset newline with
  | nil => exact ⟨[], rfl, rfl⟩
  | cons declared rest ih =>
    have hword : isWord "interface".toList := rfl
    have hline := fun tail => Spells.line hword declared.stops_printBehind
      (declared.spells_behind tail) offset newline
    cases rest with
    | nil =>
      obtain ⟨tokens, stop, htokens, hglyphs⟩ := hline []
      refine ⟨tokens, ?_, by rw [hglyphs, documentGlyphs, documentGlyphs, List.append_nil]⟩
      rw [List.append_nil] at htokens
      exact htokens.trans (TokenStream.mk.injEq .. ▸ ⟨List.append_nil _, rfl⟩)
    | cons next rest =>
      obtain ⟨tokens, stop, htokens, hglyphs⟩ := hline ('\n' :: (document (next :: rest)).toList)
      obtain ⟨others, hothers, hglyphs'⟩ := ih (stop + Char.utf8Size '\n') true
      have htext : (document (declared :: next :: rest)).toList =
          declared.print.toList ++ '\n' :: (document (next :: rest)).toList := by
        have hcons : document (declared :: next :: rest) =
            declared.print ++ "\n" ++ document (next :: rest) := String.intercalate_cons_cons
        rw [hcons, String.toList_append, String.toList_append, List.append_assoc]
        rfl
      refine ⟨tokens ++ others, ?_, by rw [List.map_append, hglyphs, hglyphs']; rfl⟩
      rw [htext, InterfacePhrase.print, htokens, ofChars_separator (by decide)]
      rw [beq_self_eq_true, Bool.or_true, hothers]
      rfl

namespace Parser

/-- What is read of a document shows its tokens, and there is no documentation. -/
theorem State.glyphs_ofSource (lines : List InterfacePhrase) :
    (State.ofSource (document lines)).glyphs = documentGlyphs false lines ∧
      (State.ofSource (document lines)).docs = [] := by
  obtain ⟨tokens, htokens, hglyphs⟩ := ofChars_document lines 0 false
  have hstream : TokenStream.ofSource (document lines) = ⟨tokens, []⟩ := htokens
  unfold State.ofSource
  rw [hstream]
  exact ⟨hglyphs, rfl⟩

end Parser

end DeclSchema
