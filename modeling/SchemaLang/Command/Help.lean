import SchemaLang.Command

/-!
# Help pages

What the program says about itself, its commands and the help command.
-/

namespace SchemaLang.Command

/-- What a slot is for. -/
def Slot.purpose : Slot → String
  | .path => "A `.sdl` file or a directory searched recursively for `.sdl` files"
  | .directory => "Directory the generated file is written to; created if missing"
  | .language => "Target language of the generated file [possible values: json, ast]"

/-- What a page of help is about. -/
inductive Topic where
  | level (level : Level)
  | help
deriving DecidableEq, Repr

namespace Topic

/-- The topic that a word of the help command names. -/
def ofName? (name : String) : Option Topic :=
  if name = "help" then some .help
  else (Verb.ofName? name).map fun verb => .level (.verb verb)

/-- The first line of a page. -/
def about : Topic → String
  | .level .program => "SDL schema compiler CLI (" ++ programName ++ ")"
  | .level (.verb .run) => "Compile schemas and write the output for a target language"
  | .level (.verb .printTree) => "Compile schemas and print the linked tree to stdout"
  | .help => "Print this message or the help of the given subcommand(s)"

/-- How a command is written. -/
def usage : Topic → String
  | .level .program => programName ++ " [OPTIONS] <COMMAND>"
  | .level (.verb verb) =>
      programName ++ " " ++ verb.name ++ " [OPTIONS] " ++
        String.intercalate " " (verb.slots.map Slot.text)
  | .help => programName ++ " help [COMMAND]..."

/-- A table of names with what they are for. -/
def table (title : String) (rows : List (String × String)) : List String :=
  let width := (rows.map fun row => row.1.length).foldl max 0
  let line (row : String × String) : String :=
    "  " ++ row.1 ++ String.ofList (List.replicate (width - row.1.length + 2) ' ') ++ row.2
  "" :: title :: rows.map line

/-- The flags of a level. -/
def flagTable (level : Level) : List String :=
  table "Options:" <|
    [("-v, --verbose", "Enable debug logging on stderr"), ("-h, --help", "Print help")] ++
      if level = .program then [("-V, --version", "Print version")] else []

/-- The lines behind the usage of a page. -/
def details : Topic → List String
  | .level .program =>
      table "Commands:" [("run", (level (.verb .run)).about),
        ("print-ast", (level (.verb .printTree)).about), ("help", help.about)] ++
      flagTable .program
  | .level (.verb verb) =>
      table "Arguments:" (verb.slots.map fun slot => (slot.text, slot.purpose)) ++
      flagTable (.verb verb)
  | .help => table "Arguments:" [("[COMMAND]...", "Print help for the subcommand(s)")]

/-- The page of help about a topic. -/
def page (topic : Topic) : String :=
  String.join <| (topic.about :: "" :: ("Usage: " ++ topic.usage) :: topic.details).map fun line =>
    line ++ "\n"

end Topic

end SchemaLang.Command
