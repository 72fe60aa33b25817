import JavaDecl.Proofs.ParallelDeclarations
import JavaDecl.Proofs.TiledSources

/-!
# Places in sources

The place of a token, and that of the fault that ends a reading, is found by walking over the
source up to it.
-/

namespace JavaDecl

namespace Correspondence

variable {source : List Char}

/-- A source beside itself.  Everything that is taken from it stands somewhere in it. -/
def within (source : List Char) : Correspondence where
  streams one other := one = other ∧ ∃ taken, one.Located source taken
  offsets := Eq
  places one other := one = other ∧ one.IsIn source
  restore := id

theorem tokens_within {token : Token} (inside : token.place.IsIn source) :
    (within source).Tokens token token :=
  ⟨rfl, rfl, ⟨rfl, inside⟩, rfl, rfl⟩

theorem within_lawful (source : List Char) : (within source).Lawful where
  line places := congrArg Location.line places.1
  equal starts stops := by
    cases starts
    cases stops
    rfl
  offset streams := congrArg TokenStream.offset streams.1
  slice streams starts stops := by
    obtain ⟨rfl, -⟩ := streams
    cases starts
    cases stops
    rfl
  next streams := by
    obtain ⟨rfl, taken, located⟩ := streams
    have answered := located.next
    revert answered
    generalize TokenStream.next _ = answer
    intro answered
    cases answered with
    | @token gap slice token after split _ covers later =>
        have inside := located.isIn split
        rw [← covers.place] at inside
        exact .token (tokens_within inside) ⟨rfl, _, later⟩
    | failure inside => exact .failure ⟨rfl, inside⟩
  block streams := by
    obtain ⟨rfl, taken, located⟩ := streams
    have answered := located.takeBlock
    revert answered
    generalize TokenStream.takeBlock _ = answer
    intro answered
    cases answered with
    | token _ _ _ later => exact .block rfl ⟨rfl, _, later⟩
    | failure inside => exact .failure ⟨rfl, inside⟩

end Correspondence

/-- The fault that ends the reading of a source is at a place in it. -/
theorem isIn_of_readUnit {source : List Char} {failure : ParseError}
    (failed : (readUnit source).2 = some failure) : failure.place.IsIn source := by
  have streams : (Correspondence.within source).streams (.ofSource source) (.ofSource source) :=
    ⟨rfl, [], .ofSource source⟩
  have places := ((Correspondence.within_lawful source).readUnit (Nat.le_refl _) streams).2
  rw [failed] at places
  cases places with
  | some place => exact place.2

/-- The tokens of a source tile it, and every place that is given, that of a token or that of
the fault of a reading, is found by walking over the source up to it. -/
theorem tokens_tile_their_source (source : List Char) (requests : List TokenStream.Request) :
    let tokens := (TokenStream.ofSource source).answers requests
    (∃ last, Tiles source [] tokens last) ∧
      tokens.Pairwise (fun one other => one.span.stop ≤ other.span.first) ∧
      (∀ token ∈ tokens, token.place.IsIn source ∧ token.place.offset = token.span.first ∧
        ∃ slice, Text.slice? source token.span.first token.span.stop = some slice ∧
          token.Writes slice) ∧
      ∀ failure ∈ (readUnit source).2, failure.place.IsIn source := by
  intro tokens
  obtain ⟨last, tiles⟩ := (TokenStream.Located.ofSource source).tiles requests
  refine ⟨⟨last, tiles⟩, tiles.pairwise.2, fun token member => ?_, fun failure => isIn_of_readUnit⟩
  obtain ⟨inside, offset⟩ := tiles.isIn token member
  exact ⟨inside, offset, tiles.slice token member⟩

/-- A mark in front, an escape in a name, and a block over two lines: the block comes without
its brace, and the fault is on the second line. -/
theorem tokens_of_marked_source :
    let source := "\uFEFFclass \\u0041 /* ä */ \x7b int ä\n ; int \x7d".toList
    let tokens := (TokenStream.ofSource source).answers [.next, .next, .next, .block]
    tokens.map (fun token => (token.text, token.place)) =
        [("class", ⟨1, 1, 3⟩), ("A", ⟨1, 7, 9⟩), ("\x7b", ⟨1, 22, 25⟩),
          (" int ä\n ; int ", ⟨1, 23, 26⟩)] ∧
      (readUnit source).2 = some (.unexpectedToken "identifier" "'\x7d'" ⟨2, 8, 41⟩) ∧
      (⟨2, 8, 41⟩ : Location).IsIn source ∧ ∃ last, Tiles source [] tokens last := by
  intro source tokens
  have failed : (readUnit source).2 =
      some (.unexpectedToken "identifier" "'\x7d'" ⟨2, 8, 41⟩) := by
    decide +kernel
  obtain ⟨tiled, -, -, places⟩ := tokens_tile_their_source source [.next, .next, .next, .block]
  exact ⟨by decide +kernel, failed, places _ failed, tiled⟩

end JavaDecl
