/-!
# Text on a terminal

Some characters of a text are orders to a terminal: control characters, and sequences that begin
with an escape character and whose form tells where they end.  `Terminal.visible` is the text
without them.  What it leaves shows as it is, and a text of such characters is not changed.
-/

namespace SchemaLang.Terminal

/-- What the next character is a part of. -/
inductive Mode where
  /-- The text between sequences. -/
  | text
  /-- A sequence of which there is only the escape character. -/
  | escape
  /-- An escape sequence with intermediate characters, which ends with its next other one. -/
  | intermediate
  /-- A control sequence, which begins with a bracket behind the escape character. -/
  | control
  /-- A command to the operating system, which ends with a bell. -/
  | command
  /-- The head of a device control string, from its start. -/
  | device
  /-- The parameters in the head of a device control string. -/
  | deviceParameters
  /-- The intermediate characters in the head of a device control string. -/
  | deviceIntermediate
  /-- A string that is not shown, which ends with a string terminator. -/
  | content
deriving DecidableEq, Repr

/-- The control characters that leave a blank. -/
def isBlankControl (c : Char) : Bool :=
  c = '\t' || c = '\n' || c = '\x0c' || c = '\r'

/-- Characters that are no orders: the blanks, and all that are no control characters. -/
def isShown (c : Char) : Bool :=
  isBlankControl c || (' ' ≤ c && c ≠ '\x7f')

/-- The string terminator of one byte, which is found also inside the bytes of a character. -/
def hasTerminator (c : Char) : Bool :=
  (String.utf8EncodeChar c).contains 0x9c

namespace Mode

/-- What follows one more character of a sequence.  An escape character begins another sequence,
and a cancelling character ends the one it is in. -/
def next (mode : Mode) (c : Char) : Mode :=
  if c = '\x1b' then .escape
  else if c = '\x18' || c = '\x1a' then .text
  else
    match mode with
    | .text => .text
    | .escape =>
        if c = '[' then .control
        else if c = ']' then .command
        else if c = 'P' then .device
        else if c = 'X' || c = '^' || c = '_' then .content
        else if ' ' ≤ c && c ≤ '/' then .intermediate
        else if '0' ≤ c && c ≤ '~' then .text
        else .escape
    | .intermediate => if '0' ≤ c && c ≤ '~' then .text else .intermediate
    | .control => if '@' ≤ c && c ≤ '~' then .text else .control
    | .command => if c = '\x07' then .text else .command
    | .device =>
        if ' ' ≤ c && c ≤ '/' then .deviceIntermediate
        else if '0' ≤ c && c ≤ '?' then .deviceParameters
        else if '@' ≤ c && c ≤ '~' then .content
        else .device
    | .deviceParameters =>
        if ' ' ≤ c && c ≤ '/' then .deviceIntermediate
        else if '<' ≤ c && c ≤ '~' then .content
        else .deviceParameters
    | .deviceIntermediate => if '0' ≤ c && c ≤ '~' then .content else .deviceIntermediate
    | .content => if hasTerminator c then .text else .content

/-- Whether a character that is no order shows where it stands.  Blanks show also inside short
sequences. -/
def shows (mode : Mode) (c : Char) : Bool :=
  match mode with
  | .text => true
  | .escape | .intermediate | .control => isBlankControl c
  | _ => false

end Mode

/-- The characters that show, read from a mode on.  What stands behind a character that shows does
so too, until an order comes; the sequence that a blank has interrupted goes on with that order,
unless a character beyond ASCII has ended it. -/
def visibleFrom (mode : Mode) (shown : Bool) : List Char → List Char
  | [] => []
  | c :: cs =>
      if isShown c && (shown || mode.shows c) then
        c :: visibleFrom (if c.val < 0x80 then mode else .text) true cs
      else visibleFrom (mode.next c) false cs

/-- A text without control characters and the sequences they begin.  Blanks are kept. -/
def visible (text : String) : String :=
  String.ofList (visibleFrom .text false text.toList)

end SchemaLang.Terminal
