import DeclSchema.Schema.Attribute

/-!
# Model groups

What may stand inside an element: a group of references to other elements, and how
often it may occur.
-/

namespace DeclSchema.Schema

open Xml

/-- How the particles of a group go together. -/
inductive Compositor where
  | all
  | choice
  | sequence
deriving DecidableEq, Repr

/-- The name of the tag of a group. -/
def Compositor.name : Compositor → String
  | .all => "all"
  | .choice => "choice"
  | .sequence => "sequence"

/-- How often something may occur at most. -/
inductive MaxOccurs where
  | unbounded
  | count (n : Nat)
deriving DecidableEq, Repr

/-- An upper bound as it is written in a schema. -/
def MaxOccurs.toText : MaxOccurs → String
  | .unbounded => "unbounded"
  | .count n => toString n

/-- How often something may occur. -/
structure Occurs where
  min : Nat
  max : MaxOccurs
deriving DecidableEq, Repr

namespace Occurs

/-- How often what a property holds may occur. -/
def ofProperty (property : Property) : Occurs :=
  ⟨if property.mandatory then 1 else 0, if property.multiple then .unbounded else .count 1⟩

/-- Bounds as attributes. -/
def apply (occurs : Occurs) (tag : Tag) : Tag :=
  (tag.set "minOccurs" (toString occurs.min)).set "maxOccurs" occurs.max.toText

end Occurs

/-- The particle that refers to an element. -/
def elementReference (name : String) : Tag :=
  (Tag.new "element").set "ref" name

/-- Why a type cannot be a particle, if it cannot. Where text is mixed in, plain text
needs no particle. -/
def particleError? (element : String) (mixed : Bool) : TypeVariant → Option SchemaError
  | .reference _ => none
  | .simple type =>
    if mixed && type = .string then none else some (.mixedContent element type.name)
  | .restricted _ => some (.restrictedContent element)

/-- The group of references to the named elements. A single one carries the bounds
itself. -/
def groupOf (occurs : Occurs) : List String → Option Tag
  | [] => none
  | [name] =>
    some ((Tag.new Compositor.sequence.name).addTag (occurs.apply (elementReference name)))
  | names =>
    some ((occurs.apply (Tag.new Compositor.choice.name)).addTags (names.map elementReference))

/-- The group of what the content property of an element holds, if it holds elements. -/
def modelGroup (element : String) (content : Property) (mixed : Bool) :
    Except SchemaError (Option Tag) :=
  match content.types.findSome? (particleError? element mixed) with
  | some error => .error error
  | none => .ok (groupOf (Occurs.ofProperty content) (references content.types))

end DeclSchema.Schema
