/-!
# Kinds of nodes in a declaration tree

The vocabulary is closed: every node has one of these kinds. Two classes of kinds
matter to readers of a tree, `isType` for what may stand as the type of a member,
and `isModifier` for the words before a declaration or member.
-/

namespace DeclSchema

/-- What a node of a declaration tree is. -/
inductive NodeKind where
  | sourceFile
  | moduleDeclaration
  | moduleBlock
  | interfaceDeclaration
  | classDeclaration
  | typeAliasDeclaration
  | enumDeclaration
  | heritageClause
  | typeParameter
  | propertySignature
  | methodSignature
  | indexSignature
  | propertyDeclaration
  | methodDeclaration
  | constructorDeclaration
  | parameter
  | identifier
  | qualifiedName
  | stringLiteral
  | numericLiteral
  | questionToken
  | exportKeyword
  | declareKeyword
  | publicKeyword
  | privateKeyword
  | protectedKeyword
  | readonlyKeyword
  | staticKeyword
  | abstractKeyword
  | anyKeyword
  | booleanKeyword
  | numberKeyword
  | stringKeyword
  | voidKeyword
  | nullKeyword
  | undefinedKeyword
  | bigIntKeyword
  | symbolKeyword
  | neverKeyword
  | objectKeyword
  | unknownKeyword
  | trueKeyword
  | falseKeyword
  | interfaceKeyword
  | classKeyword
  | functionKeyword
  | enumKeyword
  | typeReference
  | typeQuery
  | literalType
  | parenthesizedType
  | unionType
  | intersectionType
  | arrayType
  | tupleType
  | spreadElement
  | functionType
  | typeLiteral
  | indexedAccessType
deriving DecidableEq, Repr, Inhabited

namespace NodeKind

/-- The name of a kind, as it is written in messages. -/
def name : NodeKind → String
  | .sourceFile => "SourceFile"
  | .moduleDeclaration => "ModuleDeclaration"
  | .moduleBlock => "ModuleBlock"
  | .interfaceDeclaration => "InterfaceDeclaration"
  | .classDeclaration => "ClassDeclaration"
  | .typeAliasDeclaration => "TypeAliasDeclaration"
  | .enumDeclaration => "EnumDeclaration"
  | .heritageClause => "HeritageClause"
  | .typeParameter => "TypeParameter"
  | .propertySignature => "PropertySignature"
  | .methodSignature => "MethodSignature"
  | .indexSignature => "IndexSignature"
  | .propertyDeclaration => "PropertyDeclaration"
  | .methodDeclaration => "MethodDeclaration"
  | .constructorDeclaration => "Constructor"
  | .parameter => "Parameter"
  | .identifier => "Identifier"
  | .qualifiedName => "QualifiedName"
  | .stringLiteral => "StringLiteral"
  | .numericLiteral => "NumericLiteral"
  | .questionToken => "QuestionToken"
  | .exportKeyword => "ExportKeyword"
  | .declareKeyword => "DeclareKeyword"
  | .publicKeyword => "PublicKeyword"
  | .privateKeyword => "PrivateKeyword"
  | .protectedKeyword => "ProtectedKeyword"
  | .readonlyKeyword => "ReadonlyKeyword"
  | .staticKeyword => "StaticKeyword"
  | .abstractKeyword => "AbstractKeyword"
  | .anyKeyword => "AnyKeyword"
  | .booleanKeyword => "BooleanKeyword"
  | .numberKeyword => "NumberKeyword"
  | .stringKeyword => "StringKeyword"
  | .voidKeyword => "VoidKeyword"
  | .nullKeyword => "NullKeyword"
  | .undefinedKeyword => "UndefinedKeyword"
  | .bigIntKeyword => "BigIntKeyword"
  | .symbolKeyword => "SymbolKeyword"
  | .neverKeyword => "NeverKeyword"
  | .objectKeyword => "ObjectKeyword"
  | .unknownKeyword => "UnknownKeyword"
  | .trueKeyword => "TrueKeyword"
  | .falseKeyword => "FalseKeyword"
  | .interfaceKeyword => "InterfaceKeyword"
  | .classKeyword => "ClassKeyword"
  | .functionKeyword => "FunctionKeyword"
  | .enumKeyword => "EnumKeyword"
  | .typeReference => "TypeReference"
  | .typeQuery => "TypeQuery"
  | .literalType => "LiteralType"
  | .parenthesizedType => "ParenthesizedType"
  | .unionType => "UnionType"
  | .intersectionType => "IntersectionType"
  | .arrayType => "ArrayType"
  | .tupleType => "TupleType"
  | .spreadElement => "SpreadElement"
  | .functionType => "FunctionType"
  | .typeLiteral => "TypeLiteral"
  | .indexedAccessType => "IndexedAccessType"

/-- Every kind. -/
def all : List NodeKind :=
  [.sourceFile, .moduleDeclaration, .moduleBlock, .interfaceDeclaration, .classDeclaration,
    .typeAliasDeclaration, .enumDeclaration, .heritageClause, .typeParameter,
    .propertySignature, .methodSignature, .indexSignature, .propertyDeclaration,
    .methodDeclaration, .constructorDeclaration, .parameter, .identifier, .qualifiedName,
    .stringLiteral, .numericLiteral, .questionToken, .exportKeyword, .declareKeyword,
    .publicKeyword, .privateKeyword, .protectedKeyword, .readonlyKeyword, .staticKeyword,
    .abstractKeyword, .anyKeyword, .booleanKeyword, .numberKeyword, .stringKeyword,
    .voidKeyword, .nullKeyword, .undefinedKeyword, .bigIntKeyword, .symbolKeyword,
    .neverKeyword, .objectKeyword, .unknownKeyword, .trueKeyword, .falseKeyword,
    .interfaceKeyword, .classKeyword, .functionKeyword, .enumKeyword, .typeReference,
    .typeQuery, .literalType, .parenthesizedType, .unionType, .intersectionType, .arrayType,
    .tupleType, .spreadElement, .functionType, .typeLiteral, .indexedAccessType]

/-- The kind with a given name. -/
def ofName? (name : String) : Option NodeKind :=
  all.find? (·.name == name)

/-- Whether a node of the kind may stand as the type of a member. -/
def isType : NodeKind → Bool
  | .anyKeyword | .booleanKeyword | .numberKeyword | .stringKeyword | .voidKeyword
  | .nullKeyword | .undefinedKeyword | .bigIntKeyword | .symbolKeyword | .neverKeyword
  | .objectKeyword | .unknownKeyword | .interfaceKeyword | .classKeyword | .functionKeyword
  | .enumKeyword | .typeReference | .typeQuery | .literalType | .parenthesizedType
  | .unionType | .intersectionType | .arrayType | .tupleType | .spreadElement
  | .functionType | .typeLiteral | .indexedAccessType => true
  | _ => false

/-- Whether a node of the kind is a word before a declaration or member. -/
def isModifier : NodeKind → Bool
  | .exportKeyword | .declareKeyword | .publicKeyword | .privateKeyword | .protectedKeyword
  | .readonlyKeyword | .staticKeyword | .abstractKeyword => true
  | _ => false

/-- The keyword type that a word spells. Declaration keywords are among them: in the
place of a type they read as types that nothing can be made of. -/
def keywordType? : String → Option NodeKind
  | "any" => some .anyKeyword
  | "boolean" => some .booleanKeyword
  | "number" => some .numberKeyword
  | "string" => some .stringKeyword
  | "void" => some .voidKeyword
  | "null" => some .nullKeyword
  | "undefined" => some .undefinedKeyword
  | "bigint" => some .bigIntKeyword
  | "symbol" => some .symbolKeyword
  | "never" => some .neverKeyword
  | "object" => some .objectKeyword
  | "unknown" => some .unknownKeyword
  | "interface" => some .interfaceKeyword
  | "class" => some .classKeyword
  | "function" => some .functionKeyword
  | "enum" => some .enumKeyword
  | _ => none

/-- The modifier that a word spells. -/
def modifier? : String → Option NodeKind
  | "export" => some .exportKeyword
  | "declare" => some .declareKeyword
  | "public" => some .publicKeyword
  | "private" => some .privateKeyword
  | "protected" => some .protectedKeyword
  | "readonly" => some .readonlyKeyword
  | "static" => some .staticKeyword
  | "abstract" => some .abstractKeyword
  | _ => none

theorem isType_of_keywordType? {word : String} {kind : NodeKind}
    (h : keywordType? word = some kind) : kind.isType := by
  unfold keywordType? at h
  split at h <;> simp_all [isType] <;> subst h <;> rfl

theorem isModifier_of_modifier? {word : String} {kind : NodeKind}
    (h : modifier? word = some kind) : kind.isModifier := by
  unfold modifier? at h
  split at h <;> simp_all [isModifier] <;> subst h <;> rfl

end NodeKind

end DeclSchema
