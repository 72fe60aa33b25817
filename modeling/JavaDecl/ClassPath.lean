import JavaDecl.Text.Blank

/-!
# Class paths

A class path is a list of directories in one text, with colons between them.
-/

namespace JavaDecl.ClassPath

/-- The directories of a class path, without the blanks around them. -/
def entries (classPath : String) : List String :=
  let pieces := Text.splitAt ':' classPath.toList
  ((pieces.map Text.trim).filter fun piece => !piece.isEmpty).map String.ofList

/-- One class path from several, of which empty ones are left out. -/
def join (classPaths : List String) : String :=
  ":".intercalate (classPaths.filter fun classPath => !classPath.isEmpty)

/-- The environment variables that hold a class path, the most important first. -/
def variableNames : List String :=
  ["CLASSPATH", "JAVAMODEL_CLASSPATH"]

/-- The class path of an environment: the first variable for one that is not empty. -/
def ofEnvironment? (environment : List (String × String)) : Option String :=
  variableNames.findSome? fun name =>
    (environment.lookup name).filter fun value => !value.isEmpty

/-- The class path to use: the given one or else that of the environment. -/
def choose? (given : Option String) (environment : List (String × String)) : Option String :=
  given.or (ofEnvironment? environment)

end JavaDecl.ClassPath
