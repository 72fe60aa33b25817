/-!
# Kinds of token

Keywords, punctuation marks and the other classes of token.  `Keyword.spelling`
and `Mark.spelling` are the only tables; finding a keyword or mark by its text
searches them.
-/

namespace JavaDecl

/-- A reserved word of the source language. -/
inductive Keyword where
  | abstractKw | assertKw | booleanKw | breakKw | byteKw | caseKw | catchKw | charKw | classKw
    | continueKw | defaultKw | doKw | doubleKw | elseKw | enumKw | extendsKw | finalKw |
    finallyKw | floatKw | forKw | ifKw | implementsKw | importKw | instanceOfKw | intKw |
    interfaceKw | longKw | nativeKw | newKw | packageKw | privateKw | protectedKw | publicKw |
    returnKw | shortKw | staticKw | strictfpKw | superKw | switchKw | synchronizedKw | thisKw
    | throwKw | throwsKw | transientKw | tryKw | voidKw | volatileKw | whileKw | trueKw |
    falseKw | nullKw
deriving DecidableEq, Repr, Inhabited

namespace Keyword

def spelling : Keyword → String
  | .abstractKw => "abstract"
  | .assertKw => "assert"
  | .booleanKw => "boolean"
  | .breakKw => "break"
  | .byteKw => "byte"
  | .caseKw => "case"
  | .catchKw => "catch"
  | .charKw => "char"
  | .classKw => "class"
  | .continueKw => "continue"
  | .defaultKw => "default"
  | .doKw => "do"
  | .doubleKw => "double"
  | .elseKw => "else"
  | .enumKw => "enum"
  | .extendsKw => "extends"
  | .finalKw => "final"
  | .finallyKw => "finally"
  | .floatKw => "float"
  | .forKw => "for"
  | .ifKw => "if"
  | .implementsKw => "implements"
  | .importKw => "import"
  | .instanceOfKw => "instanceof"
  | .intKw => "int"
  | .interfaceKw => "interface"
  | .longKw => "long"
  | .nativeKw => "native"
  | .newKw => "new"
  | .packageKw => "package"
  | .privateKw => "private"
  | .protectedKw => "protected"
  | .publicKw => "public"
  | .returnKw => "return"
  | .shortKw => "short"
  | .staticKw => "static"
  | .strictfpKw => "strictfp"
  | .superKw => "super"
  | .switchKw => "switch"
  | .synchronizedKw => "synchronized"
  | .thisKw => "this"
  | .throwKw => "throw"
  | .throwsKw => "throws"
  | .transientKw => "transient"
  | .tryKw => "try"
  | .voidKw => "void"
  | .volatileKw => "volatile"
  | .whileKw => "while"
  | .trueKw => "true"
  | .falseKw => "false"
  | .nullKw => "null"

def all : List Keyword :=
  [.abstractKw, .assertKw, .booleanKw, .breakKw, .byteKw, .caseKw, .catchKw, .charKw,
    .classKw, .continueKw, .defaultKw, .doKw, .doubleKw, .elseKw, .enumKw, .extendsKw,
    .finalKw, .finallyKw, .floatKw, .forKw, .ifKw, .implementsKw, .importKw, .instanceOfKw,
    .intKw, .interfaceKw, .longKw, .nativeKw, .newKw, .packageKw, .privateKw, .protectedKw,
    .publicKw, .returnKw, .shortKw, .staticKw, .strictfpKw, .superKw, .switchKw,
    .synchronizedKw, .thisKw, .throwKw, .throwsKw, .transientKw, .tryKw, .voidKw, .volatileKw,
    .whileKw, .trueKw, .falseKw, .nullKw]

theorem mem_all (keyword : Keyword) : keyword ∈ all := by
  cases keyword <;> decide

/-- The keyword with a given spelling. -/
def ofSpelling? (word : String) : Option Keyword :=
  all.find? fun keyword => keyword.spelling == word

/-- The name of a keyword: its spelling with a capital, and both words of
`instanceof` told apart. -/
def name : Keyword → String
  | .instanceOfKw => "InstanceOf"
  | keyword => keyword.spelling.capitalize

/-- The keywords that may stand in front of a declaration. -/
def isModifier : Keyword → Bool
  | .publicKw | .protectedKw | .privateKw | .abstractKw | .finalKw | .nativeKw
  | .synchronizedKw | .transientKw | .volatileKw | .staticKw | .strictfpKw => true
  | _ => false

/-- The primitive types and `void`. -/
def isPrimitiveType : Keyword → Bool
  | .booleanKw | .byteKw | .shortKw | .intKw | .longKw | .charKw | .floatKw | .doubleKw
  | .voidKw => true
  | _ => false

/-- The keywords that are values. -/
def isLiteral : Keyword → Bool
  | .trueKw | .falseKw | .nullKw => true
  | _ => false

end Keyword

/-- A separator or operator.  There is none that starts with two closing angle
brackets, so nested type arguments close one bracket at a time. -/
inductive Mark where
  | leftParen | rightParen | leftBrace | rightBrace | leftBracket | rightBracket | semicolon |
    comma | dot | ellipsis | atSign | doubleColon | assign | equal | bang | notEqual | less |
    lessEqual | shiftLeft | shiftLeftAssign | greater | plus | increment | plusAssign | minus
    | decrement | minusAssign | arrow | star | starAssign | slash | slashAssign | percent |
    percentAssign | ampersand | logicalAnd | ampersandAssign | bar | logicalOr | barAssign |
    caret | caretAssign | tilde | question | colon
deriving DecidableEq, Repr, Inhabited

namespace Mark

def spelling : Mark → String
  | .leftParen => "("
  | .rightParen => ")"
  | .leftBrace => "\x7b"
  | .rightBrace => "\x7d"
  | .leftBracket => "["
  | .rightBracket => "]"
  | .semicolon => ";"
  | .comma => ","
  | .dot => "."
  | .ellipsis => "..."
  | .atSign => "@"
  | .doubleColon => "::"
  | .assign => "="
  | .equal => "=="
  | .bang => "!"
  | .notEqual => "!="
  | .less => "<"
  | .lessEqual => "<="
  | .shiftLeft => "<<"
  | .shiftLeftAssign => "<<="
  | .greater => ">"
  | .plus => "+"
  | .increment => "++"
  | .plusAssign => "+="
  | .minus => "-"
  | .decrement => "--"
  | .minusAssign => "-="
  | .arrow => "->"
  | .star => "*"
  | .starAssign => "*="
  | .slash => "/"
  | .slashAssign => "/="
  | .percent => "%"
  | .percentAssign => "%="
  | .ampersand => "&"
  | .logicalAnd => "&&"
  | .ampersandAssign => "&="
  | .bar => "|"
  | .logicalOr => "||"
  | .barAssign => "|="
  | .caret => "^"
  | .caretAssign => "^="
  | .tilde => "~"
  | .question => "?"
  | .colon => ":"

def name : Mark → String
  | .leftParen => "LParen"
  | .rightParen => "RParen"
  | .leftBrace => "LBrace"
  | .rightBrace => "RBrace"
  | .leftBracket => "LBracket"
  | .rightBracket => "RBracket"
  | .semicolon => "Semicolon"
  | .comma => "Comma"
  | .dot => "Dot"
  | .ellipsis => "Ellipsis"
  | .atSign => "At"
  | .doubleColon => "DoubleColon"
  | .assign => "Assign"
  | .equal => "Eq"
  | .bang => "Bang"
  | .notEqual => "Ne"
  | .less => "Lt"
  | .lessEqual => "Le"
  | .shiftLeft => "LShift"
  | .shiftLeftAssign => "LShiftAssign"
  | .greater => "Gt"
  | .plus => "Plus"
  | .increment => "Inc"
  | .plusAssign => "AddAssign"
  | .minus => "Minus"
  | .decrement => "Dec"
  | .minusAssign => "SubAssign"
  | .arrow => "Arrow"
  | .star => "Star"
  | .starAssign => "MulAssign"
  | .slash => "Slash"
  | .slashAssign => "DivAssign"
  | .percent => "Percent"
  | .percentAssign => "ModAssign"
  | .ampersand => "Amp"
  | .logicalAnd => "AndAnd"
  | .ampersandAssign => "AndAssign"
  | .bar => "Pipe"
  | .logicalOr => "PipePipe"
  | .barAssign => "OrAssign"
  | .caret => "Caret"
  | .caretAssign => "XorAssign"
  | .tilde => "Tilde"
  | .question => "Question"
  | .colon => "Colon"

/-- Every mark, longer spellings first. -/
def all : List Mark :=
  [.ellipsis, .shiftLeftAssign, .doubleColon, .equal, .notEqual, .lessEqual, .shiftLeft,
    .increment, .plusAssign, .decrement, .minusAssign, .arrow, .starAssign, .slashAssign,
    .percentAssign, .logicalAnd, .ampersandAssign, .logicalOr, .barAssign, .caretAssign,
    .leftParen, .rightParen, .leftBrace, .rightBrace, .leftBracket, .rightBracket, .semicolon,
    .comma, .dot, .atSign, .assign, .bang, .less, .greater, .plus, .minus, .star, .slash,
    .percent, .ampersand, .bar, .caret, .tilde, .question, .colon]

theorem mem_all (mark : Mark) : mark ∈ all := by
  cases mark <;> decide

/-- The longest mark that a text starts with. -/
def longest? (text : List Char) : Option Mark :=
  all.find? fun mark => mark.spelling.toList.isPrefixOf text

end Mark

inductive TokenKind where
  | keyword (word : Keyword)
  | identifier
  | stringLiteral
  | charLiteral
  | numberLiteral
  | mark (symbol : Mark)
  /-- A comment that opens with two stars. -/
  | docComment
  /-- The content of a block in braces, taken as a whole. -/
  | block
  | endOfInput
deriving DecidableEq, Repr, Inhabited

namespace TokenKind

def name : TokenKind → String
  | keyword word => word.name
  | identifier => "Identifier"
  | stringLiteral => "StringLiteral"
  | charLiteral => "CharLiteral"
  | numberLiteral => "NumberLiteral"
  | mark symbol => symbol.name
  | docComment => "JavaDoc"
  | block => "CodeBlock"
  | endOfInput => "Eof"

/-- How a token kind is called in running text. -/
def describe : TokenKind → String
  | identifier => "identifier"
  | stringLiteral => "string literal"
  | charLiteral => "character literal"
  | numberLiteral => "number"
  | docComment => "doc comment"
  | block => "code block"
  | endOfInput => "end of input"
  | kind => kind.name

def isModifier : TokenKind → Bool
  | keyword word => word.isModifier
  | _ => false

def isPrimitiveType : TokenKind → Bool
  | keyword word => word.isPrimitiveType
  | _ => false

/-- The literals, those spelled by keywords included. -/
def isLiteral : TokenKind → Bool
  | keyword word => word.isLiteral
  | stringLiteral | charLiteral | numberLiteral => true
  | _ => false

end TokenKind

end JavaDecl
