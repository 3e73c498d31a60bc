import DeclSchema.Parser.Error
import DeclSchema.Tree.Kind

/-!
# Why a declaration is dropped

The causes for which a declaration does not become an element, with their wording,
and diagnostics, which say of which declaration a cause holds.
-/

namespace DeclSchema

/-- Why a declaration is dropped. -/
inductive ExtractionError where
  /-- An interface or class without a name; the text says which of the two. -/
  | unnamed (what : String)
  /-- A property without a type, by its name or else by its kind. -/
  | untyped (property : String)
  /-- A type that others are nested in, without any of them. -/
  | emptyType (kind : NodeKind)
  /-- A reference or query without a name. -/
  | namelessReference
  /-- A name that stands for the operand of a query, without a query. -/
  | missingQuery (name : String)
  /-- A name that stands for its type argument, without one. -/
  | missingArgument (name : String)
  /-- The name of the declaration is already taken. -/
  | duplicate
  /-- A kind of type that no schema can express. -/
  | unsupportedKind (kind : NodeKind)
  /-- A text that names no type, or a number with no finite value. -/
  | unsupportedType (text : String)
  /-- A kind of type that is not mapped. -/
  | unmappedKind (kind : NodeKind)
  /-- A truth value as a type. -/
  | booleanLiteral
  /-- A literal type that holds no literal. -/
  | emptyLiteral
  /-- The declaration could not be read. -/
  | malformed (error : ParseError)
deriving DecidableEq, Repr

namespace ExtractionError

/-- The wording of a cause. -/
def message : ExtractionError → String
  | .unnamed what => "no " ++ what ++ " identifier found"
  | .untyped property => "no type found within " ++ property
  | .emptyType kind => "empty " ++ kind.name
  | .namelessReference => "no reference identifier found"
  | .missingQuery name => "no type query found in " ++ name
  | .missingArgument name => "no type argument found in " ++ name
  | .duplicate => "duplicate declaration, keeping the first"
  | .unsupportedKind kind => kind.name ++ " not supported"
  | .unsupportedType text => "type `" ++ text ++ "` not supported"
  | .unmappedKind kind => kind.name ++ " not implemented"
  | .booleanLiteral => "boolean literal types not implemented"
  | .emptyLiteral => "literal types without a value not implemented"
  | .malformed error => "syntax error: " ++ error.toText

end ExtractionError

/-- A cause and the declaration it holds of, if that has a name. -/
structure Diagnostic where
  declaration : Option String
  error : ExtractionError
deriving DecidableEq, Repr

namespace Diagnostic

/-- The wording of a diagnostic. -/
def toText (diagnostic : Diagnostic) : String :=
  match diagnostic.declaration with
  | some name => name ++ ": " ++ diagnostic.error.message
  | none => diagnostic.error.message

end Diagnostic

end DeclSchema
