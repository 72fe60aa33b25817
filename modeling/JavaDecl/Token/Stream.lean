import JavaDecl.ParseError
import JavaDecl.Text.Quoted
import JavaDecl.Token.Block
import JavaDecl.Token.Scan

/-!
# Tokens of a source text

A `TokenStream` stands somewhere in a source text and gives the next token, or
the whole rest of a block in braces as one token.  Blanks and plain comments
belong to no token.  A token's place is found by walking from the last place
that was asked for, never backwards.
-/

namespace JavaDecl

structure Token where
  kind : TokenKind
  /-- The token as written, words with their Unicode escapes decoded. -/
  text : String
  span : Span
deriving DecidableEq, Repr, Inhabited

namespace Token

def place (token : Token) : Location := token.span.start

/-- The line on which the token starts. -/
def line (token : Token) : Nat := token.span.start.line

end Token

namespace Lexeme

/-- A lexeme in its source text. -/
structure Cut where
  shape : Shape
  text : List Char
  /-- The offset of its first byte. -/
  first : Nat
  rest : List Char
deriving DecidableEq, Repr

def Cut.stop (cut : Cut) : Nat :=
  cut.first + Text.byteSize cut.text

/-- Blanks and plain comments, which stand between tokens. -/
def Shape.isLayout : Shape → Bool
  | space | comment => true
  | _ => false

/-- The first lexeme of a text that is no blank and no plain comment.  The text
starts at byte `offset` of its source. -/
def next? (offset : Nat) (text : List Char) : Option Cut :=
  match text with
  | [] => none
  | c :: rest =>
      let reach := scan c rest
      let taken := c :: rest.take reach.following
      if reach.shape.isLayout then
        next? (offset + Text.byteSize taken) (rest.drop reach.following)
      else
        some
          { shape := reach.shape, text := taken, first := offset,
            rest := rest.drop reach.following }
termination_by text.length
decreasing_by
  simp only [List.length_drop, List.length_cons]
  omega

/-- The kind and text of the token that a lexeme is, or what is wrong with it. -/
def Cut.token? (cut : Cut) : Except String (TokenKind × String) :=
  let written := String.ofList cut.text
  match cut.shape with
  | .word =>
      let word := String.ofList (Text.decodeEscapes cut.text)
      .ok (((Keyword.ofSpelling? word).map .keyword).getD .identifier, word)
  | .number => .ok (.numberLiteral, written)
  | .string => .ok (.stringLiteral, written)
  | .character => .ok (.charLiteral, written)
  | .docComment => .ok (.docComment, written)
  | .mark symbol => .ok (.mark symbol, written)
  | .unclosedComment => .error (complaint "unterminated comment")
  | .invalid | .space | .comment => .error (complaint "invalid character")
where
  complaint (fault : String) : String :=
    fault ++ " '" ++ String.ofList (Text.quoted cut.text) ++ "'"

end Lexeme

/-- A place in a source text from which tokens are taken. -/
structure TokenStream where
  source : List Char
  /-- The text that is not yet taken. -/
  rest : List Char
  /-- The number of bytes that are taken. -/
  offset : Nat
  /-- The furthest place that a token or an error was given. -/
  place : Location
  /-- The source text from that place on. -/
  ahead : List Char
  text : String
deriving DecidableEq, Repr, Inhabited

namespace TokenStream

/-- The mark that may stand in front of a source text and takes no column. -/
def byteOrderMark : Char := '\uFEFF'

def ofSource (source : List Char) : TokenStream :=
  match source with
  | [] => { source, rest := [], offset := 0, place := .start, ahead := [], text := "" }
  | c :: rest =>
      if c = byteOrderMark then
        let place := { Location.start with offset := c.utf8Size }
        { source, rest, offset := place.offset, place, ahead := rest, text := "" }
      else { source, rest := source, offset := 0, place := .start, ahead := source, text := "" }

/-- Moves the place forward to a byte offset. -/
def locate (stream : TokenStream) (offset : Nat) : TokenStream :=
  let (place, ahead) := stream.place.seek stream.ahead offset
  { stream with place, ahead }

def endOffset (stream : TokenStream) : Nat :=
  stream.offset + Text.byteSize stream.rest

/-- Takes the next token.  At the end of the source it is the end of input, again and
again.  Characters that form no token are taken as well. -/
def next (stream : TokenStream) : Except ParseError Token × TokenStream :=
  match Lexeme.next? stream.offset stream.rest with
  | none =>
      let stop := stream.endOffset
      let stream := { stream with rest := [], offset := stop, text := "" }.locate stop
      (.ok { kind := .endOfInput, text := "", span := ⟨stream.place, stop, stop⟩ }, stream)
  | some cut =>
      let stream := { stream with rest := cut.rest, offset := cut.stop }.locate cut.first
      match cut.token? with
      | .ok (kind, text) =>
          (.ok { kind, text, span := ⟨stream.place, cut.first, cut.stop⟩ }, { stream with text })
      | .error detail => (.error (.lexical detail stream.place), stream)

/-- Takes the rest of a block whose opening brace is taken, its closing brace
included, as one token.  A block without an end leaves the text where it is. -/
def takeBlock (stream : TokenStream) : Except ParseError Token × TokenStream :=
  match Block.blockEnd 0 stream.rest with
  | .closed rest =>
      let first := stream.offset
      let body := stream.rest.take (stream.rest.length - rest.length - 1)
      let stop := first + Text.byteSize body + 1
      let text := String.ofList body
      let stream := { stream with rest, offset := stop, text }.locate first
      (.ok { kind := .block, text, span := ⟨stream.place, first, stop⟩ }, stream)
  | .unclosedComment text =>
      let stream := stream.locate (stream.endOffset - Text.byteSize text)
      (.error (.lexical "unterminated comment" stream.place), stream)
  | .unclosed =>
      let stream := stream.locate stream.endOffset
      (.error (.unexpectedEnd "'\x7d' closing code block" stream.place), stream)

def next? (stream : TokenStream) : Option (Except ParseError Token) × TokenStream :=
  match stream.next with
  | (.ok token, after) => (if token.kind = .endOfInput then none else some (.ok token), after)
  | (.error failure, after) => (some (.error failure), after)

theorem length_rest_lt_of_cut {offset : Nat} {text : List Char} {cut : Lexeme.Cut}
    (found : Lexeme.next? offset text = some cut) : cut.rest.length < text.length := by
  fun_induction Lexeme.next? offset text with
  | case1 => cases found
  | case2 offset c rest reach taken layout ih =>
      have := ih found
      simp only [List.length_drop, List.length_cons] at this ⊢
      omega
  | case3 offset c rest reach taken layout =>
      cases found
      simp only [List.length_drop, List.length_cons]
      omega

/-- All tokens of a source up to its end, and the fault that cut them short. -/
def tokensFrom (stream : TokenStream) : List Token × Option ParseError :=
  match _found : Lexeme.next? stream.offset stream.rest with
  | none =>
      match stream.next.1 with
      | .ok token => ([token], none)
      | .error failure => ([], some failure)
  | some _cut =>
      match stream.next.1 with
      | .ok token =>
          let (tokens, failure) := tokensFrom (stream.next.2)
          (token :: tokens, failure)
      | .error failure => ([], some failure)
termination_by stream.rest.length
decreasing_by
  have shorter := length_rest_lt_of_cut _found
  have rest : stream.next.2.rest = _cut.rest := by
    unfold next
    rw [_found]
    simp only [locate]
    split <;> rfl
  rw [rest]
  exact shorter

end TokenStream

/-- The tokens of a source text with the end of input as the last, and the fault that
cut them short. -/
def scanTokens (source : List Char) : List Token × Option ParseError :=
  (TokenStream.ofSource source).tokensFrom

end JavaDecl
