import SchemaLang.Command.Help
import SchemaLang.Terminal

/-!
# Arguments

Reading the words behind the name of the program.  They start with flags of the program, then a
verb, then flags and values of the command in any mixture; behind a lone `--` every word is a
value.  Values fill the slots of the command in order.

A value is looked at only when the next value or flag or the end of the words shows that it is
complete, so a word that fits nowhere is reported before a bad value directly in front of it.
-/

namespace SchemaLang.Command

/-- What is wrong with the words of a command line. -/
inductive UsageError where
  /-- No words at all. -/
  | nothingAsked
  /-- Flags and no verb behind them. -/
  | missingVerb
  | unknownVerb (word : String)
  /-- A flag that does not exist or a value that no slot is left for. -/
  | unexpectedArgument (word : String)
  /-- A value attached to a flag. -/
  | unexpectedValue (value : String) (flag : Flag)
  | repeatedFlag (flag : Flag)
  | emptyValue (slot : Slot)
  | invalidLanguage (word : String)
  | missingValues (slots : List Slot)
deriving DecidableEq, Repr

/-- What a user reads about a wrong command line.  Where nothing was asked it is the page of help,
otherwise one complaint, in which the words of the user give no orders to the terminal. -/
def UsageError.message : UsageError → String
  | .nothingAsked => (Topic.level .program).page
  | .missingVerb =>
      complaint ("'" ++ programName ++ "' requires a subcommand but one was not provided")
  | .unknownVerb word =>
      complaint ("unrecognized subcommand '" ++ Terminal.visible word ++ "'")
  | .unexpectedArgument word =>
      complaint ("unexpected argument '" ++ Terminal.visible word ++ "' found")
  | .unexpectedValue value flag =>
      complaint ("unexpected value '" ++ Terminal.visible value ++ "' for '" ++ flag.text ++
        "' found; no more were expected")
  | .repeatedFlag flag =>
      complaint ("the argument '" ++ flag.text ++ "' cannot be used multiple times")
  | .emptyValue slot =>
      complaint ("a value is required for '" ++ slot.text ++ "' but none was supplied")
  | .invalidLanguage word =>
      complaint ("invalid value '" ++ Terminal.visible word ++ "' for '" ++ Slot.language.text ++
        "'")
  | .missingValues slots =>
      complaint ("the following required arguments were not provided:" ++
        String.join (slots.map fun slot => "\n  " ++ slot.text))
where
  complaint (text : String) : String :=
    "error: " ++ text ++ "\n\nFor more information, try '--help'.\n"

/-- What the words ask for instead of a command. -/
inductive Ending where
  | usage (e : UsageError)
  | help (topic : Topic)
  | version
deriving DecidableEq, Repr

/-- A word by its form. -/
inductive Word where
  /-- A lone `--`. -/
  | separator
  /-- The name of a flag, with the value behind an equals sign if there is one. -/
  | long (name : String) (value : Option String)
  /-- The letters behind a dash. -/
  | short (letters : List Char)
  | plain (text : String)
deriving DecidableEq, Repr

/-- The form of a word.  A lone dash is a plain word. -/
def Word.ofText (text : String) : Word :=
  match text.toList with
  | ['-', '-'] => .separator
  | '-' :: '-' :: cs =>
      .long (String.ofList (cs.takeWhile (· ≠ '=')))
        ((cs.dropWhile (· ≠ '=')).tail?.map String.ofList)
  | '-' :: c :: cs => .short (c :: cs)
  | _ => .plain text

namespace Level

/-- Takes notice of one flag and says whether `--verbose` was given so far.  Other flags end the
reading. -/
def raise (level : Level) (verbose : Bool) : Flag → Except Ending Bool
  | .verbose => if verbose then .error (.usage (.repeatedFlag .verbose)) else .ok true
  | .help => .error (.help (.level level))
  | .version => .error .version

/-- Reads a flag by its name.  What `ready` complains about comes before anything that the flag
does. -/
def readName (level : Level) (ready : Except Ending Unit) (verbose : Bool) (name : String)
    (value : Option String) : Except Ending Bool :=
  match level.flagOfName? name, value with
  | none, _ => .error (.usage (.unexpectedArgument ("--" ++ name)))
  | some flag, some value => .error (.usage (.unexpectedValue value flag))
  | some flag, none => do
      ready
      level.raise verbose flag

/-- Reads flags by their letters. -/
def readLetters (level : Level) (ready : Except Ending Unit) (verbose : Bool) :
    List Char → Except Ending Bool
  | [] => .ok verbose
  | c :: cs =>
      match level.flagOfLetter? c with
      | none => .error (.usage (.unexpectedArgument (String.ofList ['-', c])))
      | some flag => do
          ready
          let verbose ← level.raise verbose flag
          readLetters level ready verbose cs

end Level

/-- What is wrong with the value of a slot. -/
def Slot.check (slot : Slot) (value : String) : Except UsageError Unit :=
  if value.isEmpty then .error (.emptyValue slot)
  else if slot = .language && (Language.ofName? value).isNone then .error (.invalidLanguage value)
  else .ok ()

namespace Verb

/-- Checks the values given so far, in order. -/
def check (verb : Verb) (values : List String) : Except Ending Unit :=
  ((verb.slots.zip values).forM fun (slot, value) => slot.check value).mapError .usage

/-- The command that the values make, if every slot has one. -/
def complete (verb : Verb) (values : List String) : Except Ending Command := do
  verb.check values
  match verb, values with
  | .run, [path, directory, word] =>
      match Language.ofName? word with
      | some language => return .run path directory language
      | none => .error (.usage (.invalidLanguage word))
  | .printTree, [path] => return .printTree path
  | verb, values => .error (.usage (.missingValues (verb.slots.drop values.length)))

/-- The values with one more of them, if a slot is left for it. -/
def place (verb : Verb) (values : List String) (value : String) : Except Ending (List String) :=
  if values.length < verb.slots.length then do
    verb.check values
    return values ++ [value]
  else .error (.usage (.unexpectedArgument value))

/-- Reads words that are all values. -/
def readValues (verb : Verb) (values : List String) : List String → Except Ending Command
  | [] => verb.complete values
  | word :: words => do
      let values ← verb.place values word
      readValues verb values words

/-- Reads the words behind a verb. -/
def read (verb : Verb) (verbose : Bool) (values : List String) :
    List String → Except Ending Command
  | [] => verb.complete values
  | word :: words =>
      match Word.ofText word with
      | .separator => verb.readValues values words
      | .long name value => do
          let verbose ← (Level.verb verb).readName (verb.check values) verbose name value
          read verb verbose values words
      | .short letters => do
          let verbose ← (Level.verb verb).readLetters (verb.check values) verbose letters
          read verb verbose values words
      | .plain text => do
          let values ← verb.place values text
          read verb verbose values words

end Verb

/-- What the words behind the verb `help` ask for: the page about the program, or about the one
topic they name. -/
def readHelp : List String → Ending
  | [] => .help (.level .program)
  | [name] =>
      match Topic.ofName? name with
      | some topic => .help topic
      | none => .usage (.unknownVerb name)
  | name :: further :: _ =>
      match Topic.ofName? name with
      | some _ => .usage (.unknownVerb further)
      | none => .usage (.unknownVerb name)

/-- The complaint that the words of the program end without a verb. -/
def withoutVerb (verbose : Bool) : Ending :=
  .usage (if verbose then .missingVerb else .nothingAsked)

/-- What the words behind a `--` in front of any verb ask for; the program takes no values. -/
def readStray (verbose : Bool) : List String → Ending
  | [] => withoutVerb verbose
  | word :: _ =>
      if (Topic.ofName? word).isSome then .usage (.unexpectedArgument word)
      else .usage (.unknownVerb word)

/-- Reads the words of the program, where `verbose` says whether that flag was given. -/
def readFrom (verbose : Bool) : List String → Except Ending Command
  | [] => .error (withoutVerb verbose)
  | word :: words =>
      match Word.ofText word with
      | .separator => .error (readStray verbose words)
      | .long name value => do
          let verbose ← Level.program.readName (.ok ()) verbose name value
          readFrom verbose words
      | .short letters => do
          let verbose ← Level.program.readLetters (.ok ()) verbose letters
          readFrom verbose words
      | .plain text =>
          if text = "help" then .error (readHelp words)
          else
            match Verb.ofName? text with
            | some verb => verb.read false [] words
            | none => .error (.usage (.unknownVerb text))

/-- The command that the words behind the name of the program make, or what they ask for
instead. -/
def ofArguments (words : List String) : Except Ending Command :=
  readFrom false words

end SchemaLang.Command
