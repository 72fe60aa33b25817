import JavaDecl.ParseError
import JavaDecl.Violation

/-!
# Failures of a project

Reading sources and setting up a project can fail for reasons outside the text
of a source, so a refused text is one of several failures here.
-/

namespace JavaDecl

/-- Why an operation on a project failed. -/
inductive Failure where
  /-- A source text is not a compilation unit. -/
  | parse (line column : Nat) (detail : String)
  /-- A source text holds characters that form no token. -/
  | lexical (line column : Nat) (detail : String)
  /-- The settings do not fit the files they speak of. -/
  | configuration (detail : String)
  | file (detail : String)
  | violation (cause : Violation)
deriving DecidableEq, Repr, Inhabited

namespace Failure

def ofParseError (refused : ParseError) : Failure :=
  match refused with
  | .lexical detail place => .lexical place.line place.column detail
  | other => .parse other.place.line other.place.column other.message

def position? : Failure → Option (Nat × Nat)
  | parse line column _ => some (line, column)
  | lexical line column _ => some (line, column)
  | configuration _ | file _ | violation _ => none

instance : ToString Failure where
  toString
    | .parse line column detail => inText "Parse" line column detail
    | .lexical line column detail => inText "Lexical" line column detail
    | .configuration detail => "Configuration error: " ++ detail
    | .file detail => "IO error: " ++ detail
    | .violation cause => cause.message
where
  /-- The text of a failure at a place of a source. -/
  inText (stage : String) (line column : Nat) (detail : String) : String :=
    stage ++ " error at line " ++ toString line ++ ", column " ++ toString column ++ ": " ++ detail

/-- The failure in words, and then what caused it. -/
def causes (failure : Failure) : List String :=
  match failure with
  | file detail => [toString failure, detail]
  | _ => [toString failure]

end Failure

end JavaDecl
