import DeclSchema.Proofs.Extraction.Invariants
import DeclSchema.Proofs.Extraction.Printing
import DeclSchema.Proofs.Number.Notation
import DeclSchema.Proofs.Number.Writing
import DeclSchema.Proofs.Schema.Domain

/-!
# Numbers mean the same in every notation

Whatever spelling a whole number of at most 64 bits has, with a minus sign in front of it or
without one, the literal that it is as a type is the value nearest to the number. Two spellings of
one number are therefore one literal, also where both stand in one union, and a schema holds the
decimal digits of the number as long as no digit was rounded (`ofSource_spellings`).
-/

namespace DeclSchema

open Pattern Resolution TypeVariant NumericLiteral

namespace Extraction

/-- An interface with a property of a type. -/
def withProperty (name key : Word) (type : String) : String :=
  "interface " ++ name.text ++ " \x7b " ++ key.text ++ ": " ++ type ++ "; \x7d"

/-- The element of an interface with a property. -/
theorem ofSource_withProperty {t : Phrase (.one .type)} {type : String} {meaning : Resolution}
    {levels : Nat} (hlevels : levels ≤ Parser.maxDepth) (h : Writes t levels type meaning)
    (name key : Word) :
    (ofSource {} (withProperty name key type)).elements =
        [⟨name.text, [⟨some key.text, true, meaning.types, meaning.multiple⟩]⟩] ∧
      (ofSource {} (withProperty name key type)).diagnostics = [] := by
  obtain ⟨node, hnodes, htype, hnode, hdeclares⟩ := h.nodes
  have hsource : withProperty name key type = document [⟨name, [⟨.word key, false, t⟩]⟩] := by
    rw [← Parse.annotated_eq, Parse.annotated, h.print]
    rfl
  have hshallow : ∀ declared ∈ [(⟨name, [⟨.word key, false, t⟩]⟩ : InterfacePhrase)],
      ∀ property ∈ declared.properties, property.phrase.depth ≤ Parser.maxDepth := by
    simpa using h.depth.trans hlevels
  obtain ⟨herrors, hroot⟩ := Parse.ofSource_document hshallow
  rw [← hsource] at herrors hroot
  have hproperty : property (.bare .propertySignature [key.node, node]) =
      .ok ⟨some key.text, true, meaning.types, meaning.multiple⟩ := by
    have hidentifier : NodeKind.isType .identifier = false := rfl
    obtain ⟨hkey, hquestion⟩ := NodeKind.not_name_of_isType htype
    simp [property, Node.bare, Word.node, Node.bareLeaf, Node.leaf, Node.childText,
      Node.firstChildOf, Node.hasChild, Node.firstChild, Node.firstChildWhere, hidentifier, htype,
      hnode, hquestion]
  refine ofSource_of_tree herrors hroot ?_ ?_ (List.nodup_singleton _)
  · refine filter_selects_preorder (List.forall_mem_singleton.mpr ⟨rfl, ?_⟩)
    refine List.forall_mem_cons.mpr ⟨Node.declaresNothing_bareLeaf _ (by decide), ?_⟩
    refine List.forall_mem_singleton.mpr (Node.declaresNothing_bare (by decide) ?_)
    refine List.forall_mem_cons.mpr ⟨Node.declaresNothing_bareLeaf _ (by decide), ?_⟩
    show ∀ below ∈ t.nodes, below.DeclaresNothing
    rw [hnodes]
    exact List.forall_mem_singleton.mpr hdeclares
  · have hmembers : [Node.bare .propertySignature (key.node :: t.nodes)].mapM property =
        .ok [⟨some key.text, true, meaning.types, meaning.multiple⟩] := by
      rw [hnodes, List.mapM_cons, hproperty]
      rfl
    have helement : element (InterfacePhrase.node ⟨name, [⟨.word key, false, t⟩]⟩) =
        .ok ⟨name.text, [⟨some key.text, true, meaning.types, meaning.multiple⟩]⟩ := by
      show elementOf "interface" [Node.bare .propertySignature (key.node :: t.nodes)]
        (InterfacePhrase.node ⟨name, [⟨.word key, false, t⟩]⟩) = _
      rw [elementOf, hmembers]
      rfl
    exact congrArg ([·]) helement

end Extraction

namespace Spelling

/-- A number with a sign as a phrase. -/
def phrase (negative : Bool) (s : Spelling) : Phrase (.one .suffixed) :=
  .number negative ⟨s.text, s.isNumeral⟩

/-- The restriction to a number. -/
def meaning (value : Binary64) : Resolution :=
  single (.restricted [.number value])

variable {s a b : Spelling} {negative : Bool} {value : Binary64}

theorem writes_phrase (h : value? (sign negative ++ s.text) = some value) :
    Writes (s.phrase negative) 0 (sign negative ++ s.text) (meaning value) := by
  have htext : (s.phrase negative).print = sign negative ++ s.text := by
    cases negative with
    | true => rfl
    | false => exact String.empty_append.symm
  have hnodes : (s.phrase negative).nodes =
      [.bare .literalType [.bareLeaf .numericLiteral (sign negative ++ s.text)]] := by
    rw [← htext]
    cases negative <;> rfl
  refine ⟨htext, ?_, _, hnodes, rfl, ?_, ?_⟩
  · cases negative <;> exact Nat.le_refl 0
  · have hliteral : literal? (.bareLeaf .numericLiteral (sign negative ++ s.text)) =
        .ok (some (.number value)) := by
      simp [literal?, Node.bareLeaf, Node.leaf, h]
    show ofLiterals [.bareLeaf .numericLiteral (sign negative ++ s.text)] = _
    rw [ofLiterals, List.mapM_cons, hliteral]
    rfl
  · refine Node.declaresNothing_bare (by decide) (List.forall_mem_singleton.mpr ?_)
    exact Node.declaresNothing_bareLeaf _ (by decide)

/-- A spelling alone is a literal type. -/
theorem writes_single (h : value? (sign negative ++ s.text) = some value) :
    Writes (.ofIntersection (.ofSuffixed (s.phrase negative))) 1 (sign negative ++ s.text)
      (meaning value) := by
  have hwrites := writes_phrase h
  exact ⟨hwrites.print, Nat.succ_le_succ hwrites.depth, hwrites.nodes⟩

/-- Two spellings of one value are one literal. -/
theorem writes_union (ha : value? (sign negative ++ a.text) = some value)
    (hb : value? (sign negative ++ b.text) = some value) :
    Writes (.union (.ofSuffixed (a.phrase negative)) (.ofSuffixed (b.phrase negative)) .done) 1
      (sign negative ++ a.text ++ " | " ++ (sign negative ++ b.text)) (meaning value) := by
  have hfirst := writes_phrase ha
  have hsecond := writes_phrase hb
  obtain ⟨first, hfirstNodes, hfirstType, hfirstNode, hfirstDeclares⟩ := hfirst.nodes
  obtain ⟨second, hsecondNodes, hsecondType, hsecondNode, hsecondDeclares⟩ := hsecond.nodes
  have htypes := typesOf_cons hfirstType hfirstNode
    (typesOf_cons hsecondType hsecondNode typesOf_nil)
  have hmerged : mergeRestrictions [.restricted [.number value], .restricted [.number value]] =
      [.restricted [.number value]] := by
    have hsame : (Literal.number value).same (.number value) := by
      simp [Literal.same, Binary64.same]
    simp [mergeRestrictions, mergeRestrictions.go, mergeRestrictions.isOther, literals, addLiteral,
      hsame]
  have hnodes : (Phrase.union (.ofSuffixed (a.phrase negative)) (.ofSuffixed (b.phrase negative))
      .done).nodes = [.bare .unionType [first, second]] := by
    simp [hfirstNodes, hsecondNodes]
  refine ⟨?_, ?_, _, hnodes, rfl, ?_, ?_⟩
  · simp [hfirst.print, hsecond.print, String.append_assoc]
  · have hfirstDepth := hfirst.depth
    have hsecondDepth := hsecond.depth
    simp
    omega
  · have hunion := ofNode_bare (.inr (.inl rfl)) htypes (List.cons_ne_nil _ _)
    rw [hunion]
    exact congrArg (fun types => Except.ok (⟨types, false⟩ : Resolution)) hmerged
  · refine Node.declaresNothing_bare (by decide) (List.forall_mem_cons.mpr ⟨hfirstDeclares, ?_⟩)
    exact List.forall_mem_singleton.mpr hsecondDeclares

end Spelling

namespace Schema

open Xml

/-- The declaration of an element with one attribute, which is required and has one decimal
value. -/
def singleValue (element key value : String) : Tag :=
  let values := (Tag.new "simpleType").addTag
    (((Tag.new "restriction").set "base" "xs:decimal").addTag
      ((Tag.new "enumeration").set "value" value))
  ((Tag.new "element").set "name" element).addTag
    ((Tag.new "complexType").addTag
      ((((Tag.new "attribute").set "name" key).addTag values).set "use" "required"))

theorem build_number {element key : String} (h : key ≠ Property.contentName)
    (value : Binary64) :
    build [⟨element, [⟨some key, true, [.restricted [.number value]], false⟩]⟩] =
      .ok (root.addTag (singleValue element key (Literal.number value).toText)) := by
  have hcontent : Property.isContent ⟨some key, true, [.restricted [.number value]], false⟩ =
      false := by
    simpa [Property.isContent] using h
  have hcomponent : component element false ⟨some key, true, [.restricted [.number value]], false⟩ =
      .ok (some ((((Tag.new "attribute").set "name" key).addTag
        (enumeration [.number value])).set "use" "required")) := by
    simp [component, hcontent, attributeTag, references, simpleTypes, allowedValues,
      typedAttribute]
  have htype : elementType ⟨element, [⟨some key, true, [.restricted [.number value]], false⟩]⟩ =
      .ok (some ((Tag.new "complexType").addTag
        ((((Tag.new "attribute").set "name" key).addTag
          (enumeration [.number value])).set "use" "required"))) := by
    simp [elementType, contentType, Element.content?, hcontent, attribution, Element.attributes,
      complexType, hcomponent, List.reduceOption, Tag.sortBy, Tag.addTag, Tag.addTags]
  rw [build, List.mapM_cons, elementDeclaration_eq, htype]
  rfl

end Schema

namespace Extraction

/-- Two spellings of a number of at most 64 bits are one token each, behind that of the sign if
there is one. They are literals of one value, which is the signed value nearest to the number. A
property that has one of them or their union for its type is restricted to this value, and as
long as the number is exact, the schema holds its decimal digits. -/
theorem ofSource_spellings {n : Nat} (h : n < 2 ^ 64) {a b : Spelling} (ha : a.number = n)
    (hb : b.number = n) (negative : Bool) (name key : Word) :
    (∀ s ∈ [a, b],
      (tokenize (sign negative ++ s.text)).map (fun lexeme => (lexeme.kind, lexeme.text)) =
        (if negative then [(.minus, "-")] else []) ++ [(.number, s.text)]) ∧
    ∃ value : Binary64,
      (Binary64.ofNat? n).map (signed negative) = some value ∧
      (∀ s ∈ [a, b], NumericLiteral.value? (sign negative ++ s.text) = some value) ∧
      (∀ type ∈ [sign negative ++ a.text, sign negative ++ b.text,
          sign negative ++ a.text ++ " | " ++ (sign negative ++ b.text)],
        (ofSource {} (withProperty name key type)).elements =
          [⟨name.text, [⟨some key.text, true, [.restricted [.number value]], false⟩]⟩] ∧
        (ofSource {} (withProperty name key type)).diagnostics = [] ∧
        (negative = false → n ≤ 2 ^ 53 → key.text ≠ Property.contentName →
          (Conversion.ofSource {} (withProperty name key type)).schema =
            .ok (Schema.root.addTag (Schema.singleValue name.text key.text n.repr)))) := by
  obtain ⟨magnitude, hmagnitude, -⟩ := Binary64.exists_ofNat? h
  have hvalue : ∀ s : Spelling, s.number = n →
      value? (sign negative ++ s.text) = some (signed negative magnitude) := by
    rintro s rfl
    rw [value?_spelling h, hmagnitude]
    rfl
  have hwrites : ∀ type ∈ [sign negative ++ a.text, sign negative ++ b.text,
      sign negative ++ a.text ++ " | " ++ (sign negative ++ b.text)],
      ∃ t : Phrase (.one .type), Writes t 1 type (Spelling.meaning (signed negative magnitude)) := by
    rw [List.forall_mem_cons, List.forall_mem_cons, List.forall_mem_singleton]
    exact ⟨⟨_, Spelling.writes_single (hvalue a ha)⟩, ⟨_, Spelling.writes_single (hvalue b hb)⟩,
      ⟨_, Spelling.writes_union (hvalue a ha) (hvalue b hb)⟩⟩
  refine ⟨fun s _ => tokenize_spelling s negative, signed negative magnitude, ?_, ?_, ?_⟩
  · rw [hmagnitude, Option.map_some]
  · exact List.forall_mem_cons.mpr ⟨hvalue a ha, List.forall_mem_singleton.mpr (hvalue b hb)⟩
  · intro type htype
    obtain ⟨t, ht⟩ := hwrites type htype
    obtain ⟨helements, hdiagnostics⟩ := ofSource_withProperty (by decide) ht name key
    refine ⟨helements, hdiagnostics, ?_⟩
    rintro rfl hexact hkey
    rw [Conversion.schema_ofSource, helements, ← Binary64.toText_of_ofNat? hexact hmagnitude]
    exact Schema.build_number hkey magnitude

/-- 255 in hexadecimal notation, with a capital letter, a gap and a small letter. -/
def hexadecimal255 : Spelling where
  radix := .hexadecimal
  capital := true
  places := [.digit 15 true, .gap, .digit 15 false]
  digits_lt := by decide
  digits_ne_nil := by decide
  starts := by decide

/-- 255 in decimal notation, with a zero in front and a gap at the end. -/
def decimal255 : Spelling where
  radix := .decimal
  capital := false
  places := [.digit 0 false, .digit 2 false, .digit 5 false, .digit 5 false, .gap]
  digits_lt := by decide
  digits_ne_nil := by decide
  starts := by decide

theorem ofSource_255 :
    let name : Word := ⟨"A", rfl⟩
    let key : Word := ⟨"x", rfl⟩
    let source := "interface A \x7b x: 0XF_f | 0255_; \x7d"
    hexadecimal255.number = 255 ∧ decimal255.number = 255 ∧
      withProperty name key (sign false ++ hexadecimal255.text ++ " | " ++
        (sign false ++ decimal255.text)) = source ∧
      (∃ value, (ofSource {} source).elements =
        [⟨"A", [⟨some "x", true, [.restricted [.number value]], false⟩]⟩]) ∧
      (Conversion.ofSource {} source).schema =
        .ok (Schema.root.addTag (Schema.singleValue "A" "x" "255")) := by
  intro name key source
  have hhexadecimal : hexadecimal255.number = 255 := by decide
  have hdecimal : decimal255.number = 255 := by decide
  have hsource : withProperty name key (sign false ++ hexadecimal255.text ++ " | " ++
      (sign false ++ decimal255.text)) = source := by
    decide
  obtain ⟨-, value, -, -, htypes⟩ :=
    ofSource_spellings (by decide) hhexadecimal hdecimal false name key
  obtain ⟨helements, -, hschema⟩ :=
    htypes _ (List.mem_cons_of_mem _ (List.mem_cons_of_mem _ List.mem_cons_self))
  rw [hsource] at helements hschema
  exact ⟨hhexadecimal, hdecimal, hsource, ⟨value, helements⟩,
    hschema rfl (by decide) (by decide)⟩

end Extraction

end DeclSchema
