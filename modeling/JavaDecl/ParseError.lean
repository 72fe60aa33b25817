import JavaDecl.Location

/-!
# Why a source text was refused

The first fault of a source text ends its reading.  It carries the place where
reading stopped.
-/

namespace JavaDecl

/-- The fault that ended the reading of a source text. -/
inductive ParseError where
  /-- Another token stands where `expected` has to. -/
  | unexpectedToken (expected found : String) (place : Location)
  /-- The source ends where `expected` has to stand. -/
  | unexpectedEnd (expected : String) (place : Location)
  /-- The tokens are those of the grammar, but not in an arrangement that is allowed. -/
  | invalidSyntax (detail : String) (place : Location)
  | lexical (detail : String) (place : Location)
deriving DecidableEq, Repr, Inhabited

namespace ParseError

/-- Where reading stopped. -/
def place : ParseError → Location
  | unexpectedToken _ _ place => place
  | unexpectedEnd _ place => place
  | invalidSyntax _ place => place
  | lexical _ place => place

def message : ParseError → String
  | unexpectedToken expected found _ => "expected " ++ expected ++ ", found " ++ found
  | unexpectedEnd expected _ => "unexpected end of input, expected " ++ expected
  | invalidSyntax detail _ => detail
  | lexical detail _ => detail

instance : ToString ParseError where
  toString failure :=
    let stage :=
      match failure with
      | lexical .. => "Lexical"
      | _ => "Parse"
    stage ++ " error at " ++ toString failure.place ++ ": " ++ failure.message

end ParseError

end JavaDecl
