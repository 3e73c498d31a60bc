import DeclSchema.Extraction.Basic
import DeclSchema.Schema.Declaration

/-!
# Schemas

A schema holds the declarations of elements in order. `convert` makes one from a
source text.
-/

namespace DeclSchema

/-- A reference to an element that is not among the declared ones, and the element
that holds it. -/
structure DanglingReference where
  element : String
  reference : String
deriving DecidableEq, Repr

namespace Schema

open Xml

/-- The namespace of schemas. -/
def namespaceName : String := "http://www.w3.org/2001/XMLSchema"

/-- The root of a schema, without declarations. -/
def root : Tag :=
  (Tag.new "schema").set ("xmlns:" ++ namespaceLetters) namespaceName

/-- The schema of elements. It fails if one of them has no declaration. -/
def build (elements : List Element) : Except SchemaError Tag :=
  match elements.mapM elementDeclaration with
  | .ok declarations => .ok (root.addTags declarations)
  | .error error => .error error

/-- The references to elements that are not declared, element by element. They are
no errors. -/
def danglingReferences (elements : List Element) : List DanglingReference :=
  let declared := elements.map (·.name)
  elements.flatMap fun element =>
    ((references (element.properties.flatMap (·.types))).filter (!declared.contains ·)).map
      fun name => ⟨element.name, name⟩

end Schema

/-- What is made of a source text: its elements, and their schema if they have one. -/
structure Conversion where
  extraction : Extraction
  schema : Except SchemaError Xml.Tag

namespace Conversion

/-- Makes elements of the declarations in a source text, and a schema of them. -/
def ofSource (options : ExtractionOptions) (source : String) : Conversion :=
  let extraction := Extraction.ofSource options source
  ⟨extraction, Schema.build extraction.elements⟩

end Conversion

/-- What a user is told beside the result. -/
inductive Warning where
  /-- A declaration became no element. -/
  | dropped (diagnostic : Diagnostic)
  /-- An error stands in no declaration. -/
  | stray (diagnostic : Diagnostic)
  /-- An element refers to one that is not declared. -/
  | dangling (reference : DanglingReference)
deriving DecidableEq, Repr

namespace Warning

/-- The wording of a warning, without what it is about. -/
def message : Warning → String
  | .dropped _ => "declaration dropped"
  | .stray _ => "syntax error outside of any declaration"
  | .dangling _ => "reference to undeclared element"

/-- The warnings about an extraction, in the order of its diagnostics. -/
def ofExtraction (extraction : Extraction) : List Warning :=
  extraction.dropped.map dropped ++
    extraction.stray.map fun error => stray ⟨none, .malformed error⟩

/-- The warnings about the elements of a schema. They do not depend on whether there
is one. -/
def ofElements (elements : List Element) : List Warning :=
  (Schema.danglingReferences elements).map dangling

/-- The warnings about a conversion. -/
def ofConversion (conversion : Conversion) : List Warning :=
  ofExtraction conversion.extraction ++ ofElements conversion.extraction.elements

end Warning

end DeclSchema
