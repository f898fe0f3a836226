import SchemaLang.Token.Lexeme

/-!
# The tokens of a source

`Tokens.ofSource` cuts a source into tokens and places each of them.  Blanks and comments stand
between tokens and are skipped; a comment runs from two slashes to the end of its line.
-/

namespace SchemaLang

namespace Tokens

/-- Characters a comment may hold. -/
def inComment (c : Char) : Bool :=
  c ≠ '\n'

/-- The tokens of a text that starts at the place `p` of the named source. -/
def cut (source : String) (p : Position) : List Char → List Token
  | [] => []
  | '/' :: '/' :: cs =>
      cut source (p.advance ('/' :: '/' :: cs.takeWhile inComment)) (cs.dropWhile inComment)
  | c :: cs =>
      if Lexeme.isBlank c then cut source (p.after c) cs
      else
        let lexeme := Lexeme.next c cs
        ⟨lexeme.1.kind, String.ofList lexeme.1.text, p.toLocation source⟩ ::
          cut source (p.advance lexeme.1.text) lexeme.2
termination_by cs => cs.length
decreasing_by
  · have := (List.dropWhile_suffix (l := cs) inComment).length_le
    simp only [List.length_cons]
    omega
  · simp
  · exact Lexeme.next_length_lt c cs

/-- The tokens of a source text, placed under the name of the source. -/
def ofSource (text : String) (source : String) : Tokens :=
  ⟨cut source .start text.toList, (Position.start.advance text.toList).toLocation source⟩

end Tokens

end SchemaLang
