import SchemaLang.Location

/-!
# Tokens

The words a schema source is made of.  The end of the source is not a token: a source is the list
of its tokens and the place where it stops.
-/

namespace SchemaLang

/-- What a token is, apart from its text. -/
inductive TokenKind where
  | packageKeyword
  | useKeyword
  | classKeyword
  | structKeyword
  | enumKeyword
  | identifier
  | string
  | integer
  | float
  | leftBrace
  | rightBrace
  | leftBracket
  | rightBracket
  | leftAngle
  | rightAngle
  | leftParen
  | rightParen
  | colon
  | comma
  | at
  | plus
  | minus
  | star
  | slash
  | caret
  /-- Text that no rule of the language covers. -/
  | invalid
deriving DecidableEq, Repr, Inhabited

/-- A word of the source with the place of its first character. -/
structure Token where
  kind : TokenKind
  literal : String
  location : Location
deriving DecidableEq, Repr, Inhabited

/-- A source cut into words: its tokens in order, and the place where the text stops. -/
structure Tokens where
  list : List Token
  stop : Location
deriving DecidableEq, Repr, Inhabited

namespace Tokens

/-- The first answers of a reader that asks for one token after another.  Behind the last token
every further question finds the end of the source, written `none`. -/
def ask (ts : Tokens) (count : Nat) : List (Option Token) :=
  ((ts.list.take count).map some) ++ List.replicate (count - ts.list.length) none

end Tokens

end SchemaLang
