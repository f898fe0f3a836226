import SchemaLang.Token

/-!
# The lexeme at the front of a text

`Lexeme.next` cuts the longest word from the front of a text that starts with neither a blank nor
a comment.  Every character belongs to some lexeme, because text without a rule is cut off as an
invalid one.  `next_append` says that cutting loses nothing and `next_text_ne_nil` that a lexeme
is never empty, so a source is used up after finitely many cuts.
-/

namespace SchemaLang

/-- A word cut from a text: its kind and its characters. -/
structure Lexeme where
  kind : TokenKind
  text : List Char
deriving DecidableEq, Repr

namespace Lexeme

/-- Space, tab, carriage return, line feed and form feed; no other character separates words. -/
def isBlank (c : Char) : Bool :=
  c = ' ' || c = '\t' || c = '\r' || c = '\n' || c = '\x0c'

/-- ASCII digits only. -/
def isDigit (c : Char) : Bool :=
  '0' ≤ c && c ≤ '9'

/-- Characters a name may start with: ASCII letters and the underscore. -/
def isNameStart (c : Char) : Bool :=
  ('a' ≤ c && c ≤ 'z') || ('A' ≤ c && c ≤ 'Z') || c = '_'

/-- Characters a name may go on with. -/
def isNameChar (c : Char) : Bool :=
  isNameStart c || isDigit c

/-- The word that names a keyword, if it does. -/
def keyword? (word : List Char) : Option TokenKind :=
  if word = ['p', 'a', 'c', 'k', 'a', 'g', 'e'] then some .packageKeyword
  else if word = ['u', 's', 'e'] then some .useKeyword
  else if word = ['c', 'l', 'a', 's', 's'] then some .classKeyword
  else if word = ['s', 't', 'r', 'u', 'c', 't'] then some .structKeyword
  else if word = ['e', 'n', 'u', 'm'] then some .enumKeyword
  else none

/-- The tokens of one character. -/
def punctuation? (c : Char) : Option TokenKind :=
  match c with
  | '\x7b' => some .leftBrace
  | '\x7d' => some .rightBrace
  | '[' => some .leftBracket
  | ']' => some .rightBracket
  | '<' => some .leftAngle
  | '>' => some .rightAngle
  | '(' => some .leftParen
  | ')' => some .rightParen
  | ':' => some .colon
  | ',' => some .comma
  | '@' => some .at
  | '+' => some .plus
  | '-' => some .minus
  | '*' => some .star
  | '/' => some .slash
  | '^' => some .caret
  | _ => none

/-- The further parts `.name.name` of a dotted name, and the text behind them.  A dot that no name
follows is not part of the name. -/
def dottedParts : List Char → List Char × List Char
  | '.' :: c :: cs =>
      if isNameStart c then
        let more := dottedParts (cs.dropWhile isNameChar)
        ('.' :: c :: cs.takeWhile isNameChar ++ more.1, more.2)
      else ([], '.' :: c :: cs)
  | cs => ([], cs)
termination_by cs => cs.length
decreasing_by
  have := (List.dropWhile_suffix (l := cs) isNameChar).length_le
  simp only [List.length_cons]
  omega

/-- An exponent `e+12` directly behind the digits of a fraction, and the text behind it.  A mark
that no digit follows is not an exponent. -/
def exponent (cs : List Char) : List Char × List Char :=
  match cs with
  | mark :: sign :: d :: rest =>
      if mark = 'e' || mark = 'E' then
        if (sign = '+' || sign = '-') && isDigit d then
          (mark :: sign :: d :: rest.takeWhile isDigit, rest.dropWhile isDigit)
        else if isDigit sign then
          (mark :: (sign :: d :: rest).takeWhile isDigit, (sign :: d :: rest).dropWhile isDigit)
        else ([], cs)
      else ([], cs)
  | [mark, d] =>
      if (mark = 'e' || mark = 'E') && isDigit d then ([mark, d], []) else ([], cs)
  | _ => ([], cs)

/-- The lexeme of a name that starts with `c`.  A dot behind a keyword makes it a plain name,
whether or not the dot continues it. -/
def name (c : Char) (cs : List Char) : Lexeme × List Char :=
  let word := c :: cs.takeWhile isNameChar
  let behind := cs.dropWhile isNameChar
  let more := dottedParts behind
  let kind := if behind.head? = some '.' then .identifier else (keyword? word).getD .identifier
  (⟨kind, word ++ more.1⟩, more.2)

/-- The lexeme of a number that starts with the digit `c`.  A point makes it a float if a digit
follows, and only a float has an exponent. -/
def number (c : Char) (cs : List Char) : Lexeme × List Char :=
  let whole := c :: cs.takeWhile isDigit
  match cs.dropWhile isDigit with
  | '.' :: d :: rest =>
      if isDigit d then
        let more := exponent (rest.dropWhile isDigit)
        (⟨.float, whole ++ '.' :: d :: rest.takeWhile isDigit ++ more.1⟩, more.2)
      else (⟨.integer, whole⟩, '.' :: d :: rest)
  | behind => (⟨.integer, whole⟩, behind)

/-- Characters that may stand between the quotes of a string. -/
def isQuotable (c : Char) : Bool :=
  c ≠ '"' && c ≠ '\n'

/-- The lexeme behind an opening quote.  Without a closing quote on the same line the rest of the
line is invalid. -/
def quoted (cs : List Char) : Lexeme × List Char :=
  match cs.dropWhile isQuotable with
  | '"' :: rest => (⟨.string, '"' :: cs.takeWhile isQuotable ++ ['"']⟩, rest)
  | behind => (⟨.invalid, '"' :: cs.takeWhile isQuotable⟩, behind)

/-- The lexeme at the front of the text `c :: cs`, and the text behind it. -/
def next (c : Char) (cs : List Char) : Lexeme × List Char :=
  if isNameStart c then name c cs
  else if isDigit c then number c cs
  else if c = '"' then quoted cs
  else (⟨(punctuation? c).getD .invalid, [c]⟩, cs)

theorem dottedParts_append (cs : List Char) :
    (dottedParts cs).1 ++ (dottedParts cs).2 = cs := by
  fun_induction dottedParts cs with
  | case1 c cs h more ih => simp [more, ih, List.takeWhile_append_dropWhile]
  | case2 => rfl
  | case3 => rfl

theorem exponent_append (cs : List Char) : (exponent cs).1 ++ (exponent cs).2 = cs := by
  fun_cases exponent cs <;> simp [List.takeWhile_append_dropWhile]

theorem name_append (c : Char) (cs : List Char) :
    (name c cs).1.text ++ (name c cs).2 = c :: cs := by
  simp [name, List.append_assoc, dottedParts_append, List.takeWhile_append_dropWhile]

theorem number_append (c : Char) (cs : List Char) :
    (number c cs).1.text ++ (number c cs).2 = c :: cs := by
  have split := List.takeWhile_append_dropWhile (p := isDigit) (l := cs)
  unfold number
  dsimp only
  split
  · rename_i d rest h
    rw [h] at split
    have tail := List.takeWhile_append_dropWhile (p := isDigit) (l := rest)
    split
    · simp [List.append_assoc, exponent_append, tail, split]
    · simp [split]
  · rename_i behind
    simp [split]

theorem quoted_append (cs : List Char) :
    (quoted cs).1.text ++ (quoted cs).2 = '"' :: cs := by
  have split := List.takeWhile_append_dropWhile (p := isQuotable) (l := cs)
  unfold quoted
  split
  · rename_i rest h
    rw [h] at split
    simp [split]
  · rename_i behind
    simp [split]

/-- A lexeme and the text behind it make up the text it was cut from. -/
theorem next_append (c : Char) (cs : List Char) :
    (next c cs).1.text ++ (next c cs).2 = c :: cs := by
  unfold next
  split
  · exact name_append c cs
  split
  · exact number_append c cs
  split
  · rename_i h
    subst h
    exact quoted_append cs
  · rfl

theorem next_text_ne_nil (c : Char) (cs : List Char) : (next c cs).1.text ≠ [] := by
  unfold next
  split
  · simp [name]
  split
  · unfold number
    dsimp only
    split
    · split <;> simp
    · simp
  split
  · unfold quoted
    split <;> simp
  · simp

/-- Cutting a lexeme leaves less text than there was. -/
theorem next_length_lt (c : Char) (cs : List Char) :
    (next c cs).2.length < (c :: cs).length := by
  have whole := congrArg List.length (next_append c cs)
  have some := List.length_pos_iff.mpr (next_text_ne_nil c cs)
  simp only [List.length_append] at whole
  omega

end Lexeme

end SchemaLang
