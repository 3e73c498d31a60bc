import DeclSchema.Token.Basic

/-!
# Errors of reading declarations

An error has a cause and the token it was found at. Its wording is made from these
by `ParseError.message`.
-/

namespace DeclSchema

/-- What was looked for where something else stood. -/
inductive Wanted where
  | mark (kind : TokenKind)
  | name
  | interfaceName
  | className
  | typeAliasName
  | enumName
  | typeParameter
  | indexName
  | memberName
  | parameterName
  | type
deriving DecidableEq, Repr

namespace Wanted

/-- How punctuation is quoted in messages. Tokens without a fixed text are called by
the name of their kind. -/
def markText : TokenKind → String
  | .lBrace => "`\x7b`"
  | .rBrace => "`\x7d`"
  | .lParen => "`(`"
  | .rParen => "`)`"
  | .lBracket => "`[`"
  | .rBracket => "`]`"
  | .lt => "`<`"
  | .gt => "`>`"
  | .colon => "`:`"
  | .eq => "`=`"
  | .arrow => "`=>`"
  | kind => kind.name

/-- How messages call what was looked for. -/
def text : Wanted → String
  | .mark kind => markText kind
  | .name => "a name"
  | .interfaceName => "an interface name"
  | .className => "a class name"
  | .typeAliasName => "a type alias name"
  | .enumName => "an enum name"
  | .typeParameter => "a type parameter"
  | .indexName => "an index name"
  | .memberName => "a member name"
  | .parameterName => "a parameter name"
  | .type => "a type"

end Wanted

/-- Why reading stopped at a token. -/
inductive Fault where
  /-- Something else should stand here. -/
  | expected (what : Wanted)
  /-- A type query names nothing. -/
  | unnamedQuery
  /-- A closing brace that closes nothing. -/
  | strayBrace
  /-- Types or namespaces are nested beyond the limit. -/
  | nestingTooDeep
  /-- A template in the place of a type. -/
  | templateType
  /-- A word that makes a type from a type. -/
  | typeOperator (word : String)
deriving DecidableEq, Repr

namespace Fault

/-- The first part of an error message. -/
def text : Fault → String
  | .expected what => "expected " ++ what.text
  | .unnamedQuery => "expected a name after `typeof`"
  | .strayBrace => "unexpected `\x7d`"
  | .nestingTooDeep => "nesting too deep"
  | .templateType => "template literal types are not supported"
  | .typeOperator word => "type operator `" ++ word ++ "` is not supported"

end Fault

/-- A fault with the text and the span of the token it was found at. At the end of
the input there is no token, and the span is empty. -/
structure ParseError where
  fault : Fault
  found : Option String
  span : Span
deriving DecidableEq, Repr

namespace ParseError

/-- The wording of an error, without its place. -/
def message (error : ParseError) : String :=
  error.fault.text ++
    match error.found with
    | some text => ", found `" ++ text ++ "`"
    | none => ", found end of input"

/-- The wording of an error and its place. -/
def toText (error : ParseError) : String :=
  error.message ++ " at " ++ error.span.toText

end ParseError

end DeclSchema
