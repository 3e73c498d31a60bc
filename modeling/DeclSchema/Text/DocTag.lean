import DeclSchema.Text.Blank

/-!
# Block tags of documentation comments

A documentation comment holds block tags such as `@deprecated use Other`: a name
behind an at sign at the start of a line, and a comment on it that may go on over
the lines that follow.
-/

namespace DeclSchema

/-- A block tag with the comment on it, if there is one. -/
structure DocTag where
  name : String
  comment : Option String
deriving DecidableEq, Repr, Inhabited

namespace DocTag

/-- A text without the comment openings at its start, however many there are. -/
def dropOpenings : List Char → List Char
  | '/' :: '*' :: '*' :: rest => dropOpenings rest
  | cs => cs

/-- The same for comment closings; the text is read from its end, so both marks
stand the other way round. -/
def dropClosingsReversed : List Char → List Char
  | '/' :: '*' :: rest => dropClosingsReversed rest
  | cs => cs

/-- What stands between the openings and the closings of a comment. -/
def body (comment : List Char) : List Char :=
  (dropClosingsReversed (dropOpenings comment).reverse).reverse

/-- A line of a comment without its margin: white space and leading stars. -/
def stripMargin (line : List Char) : List Char :=
  Text.trim ((Text.trim line).dropWhile (· == '*'))

/-- The tag that a line names behind its at sign. There is none when white space or
the end of the line follows the sign. -/
def ofLine? (line : List Char) : Option DocTag :=
  match line.takeWhile (!Text.isBlank ·) with
  | [] => none
  | name =>
    let comment := Text.trim (line.dropWhile (!Text.isBlank ·))
    some ⟨String.ofList name, if comment.isEmpty then none else some (String.ofList comment)⟩

/-- A tag whose comment goes on with one more line. -/
def extend (tag : DocTag) (line : String) : DocTag :=
  match tag.comment with
  | none => { tag with comment := some line }
  | some text => { tag with comment := some (text ++ " " ++ line) }

/-- Reads one line, given the tags of the lines before it, the last one first. -/
def addLine (tags : List DocTag) (line : List Char) : List DocTag :=
  match stripMargin line, tags with
  | [], _ => tags
  | '@' :: rest, _ =>
    match ofLine? rest with
    | none => tags
    | some tag => tag :: tags
  | _, [] => []
  | line, last :: before => last.extend (String.ofList line) :: before

/-- The block tags of a documentation comment, in the order of the comment. -/
def ofComment (comment : String) : List DocTag :=
  ((Text.lines (body comment.toList)).foldl addLine []).reverse

end DocTag

end DeclSchema
