import LazyConfig.Demo

/-! The command line: lists, checks and runs the demos. -/

namespace LazyConfig.Command

/-- What a command writes, and its exit code. -/
structure Output where
  code : Nat := 0
  stdout : String := ""
  stderr : String := ""
  deriving DecidableEq, Inhabited

/-- Lines of text, each with its end. -/
def lines (texts : List String) : String :=
  texts.foldl (fun out text => out ++ text ++ "\n") ""

/-- The description of all commands. -/
def usage : String :=
  lines
    [ "Ncl demo runner",
      "",
      "Usage: nclc <command> [options]",
      "",
      "Commands:",
      "  list                 List the bundled demos",
      "  run <demo>           Evaluate a demo and print its value",
      "  check <demo>         Resolve a demo's annotations without evaluating",
      "",
      "Options for run:",
      "  --max-depth=<n>      Evaluation depth limit (default: 100000)",
      "  --shallow            Print the result without forcing it completely",
      "",
      "Set NCL_LOG (or RUST_LOG) to enable tracing, e.g. NCL_LOG=ncl_eval=trace" ]

/-- A command that fails with some lines on the error stream. -/
def failure (texts : List String) : Output :=
  { code := 1, stderr := lines texts }

/-- A text filled up with blanks to a width. -/
def padRight (width : Nat) (text : String) : String :=
  text.pushn ' ' (width - text.length)

/-- The value of decimal digits, of which there must be at least one. -/
def digits? (chars : List Char) : Option Nat :=
  if chars.isEmpty || !chars.all Char.isDigit then none
  else some (chars.foldl (fun value c => 10 * value + (c.toNat - '0'.toNat)) 0)

/-- Reads a limit: decimal digits, with or without a plus sign, that fit into 64 bits. -/
def limit? (text : String) : Option Nat :=
  let chars := text.toList
  let value := digits? (if chars.head? == some '+' then chars.tail else chars)
  value.filter fun n => n < UInt64.size

/-- What a run of a demo is asked to do. -/
structure RunOptions where
  settings : Settings := {}
  name : Option String := none
  deriving DecidableEq, Inhabited

/-- The option that sets the depth limit. -/
def depthOption : String :=
  "--max-depth="

/-- What stands after the option that sets the depth limit. -/
def depthText? (arg : String) : Option String :=
  if depthOption.toList.isPrefixOf arg.toList then
    some (String.ofList (arg.toList.drop depthOption.length))
  else none

/--
Reads the arguments of a run. The first one without a leading dash is the name; a limit that cannot
be read is reported as it is written, and other options are passed over.
-/
def readArguments : List String → RunOptions → Except String RunOptions
  | [], options => .ok options
  | arg :: rest, options =>
    match depthText? arg with
    | some text =>
      match limit? text with
      | some limit =>
        readArguments rest { options with settings := { options.settings with maxDepth := limit } }
      | none => .error text
    | none =>
      if arg == "--shallow" then
        readArguments rest { options with settings := { options.settings with deepForce := false } }
      else if arg.toList.head? != some '-' && options.name.isNone then
        readArguments rest { options with name := some arg }
      else readArguments rest options

/-- The report that a program has no value. -/
def report (fault : RunFault) : Output :=
  failure (("error: " ++ fault.message) :: fault.notes.map fun note => "  note: " ++ note)

/-- Goes on with the demo of a name. -/
def withDemo (name : String) (body : Demo → Output) : Output :=
  match Demo.find? name with
  | some demo => body demo
  | none => failure ["error: unknown demo `" ++ name ++ "` (see `nclc list`)"]

/-- Lists the demos. -/
def list : Output :=
  { stdout := lines (Demo.all.map fun demo => padRight 20 demo.name ++ " " ++ demo.summary) }

/-- Runs a demo and shows its value. -/
def run (args : List String) : Output :=
  match readArguments args {} with
  | .error text => failure ["error: invalid depth limit `" ++ text ++ "`"]
  | .ok ⟨_, none⟩ =>
    failure ["error: missing demo name", "Usage: nclc run <demo> [--max-depth=<n>] [--shallow]"]
  | .ok ⟨settings, some name⟩ =>
    withDemo name fun demo =>
      match demo.program.run settings ample with
      | some (.ok (value, store)) => { stdout := lines (store.display? ample value).toList }
      | some (.error fault) => report fault
      | none => failure []

/-- Resolves the annotations of a demo. -/
def check (args : List String) : Output :=
  match args with
  | [] => failure ["Usage: nclc check <demo>"]
  | name :: _ =>
    withDemo name fun demo =>
      match demo.program.annotations with
      | .ok annotations =>
        { stdout := lines ["ok (" ++ toString annotations.size ++ " annotations)"] }
      | .error fault => report (.type fault)

/-- Carries out a command line. -/
def execute : List String → Output
  | [] => { stdout := usage }
  | "list" :: _ => list
  | "run" :: args => run args
  | "check" :: args => check args
  | "help" :: _ => { stdout := usage }
  | "--help" :: _ => { stdout := usage }
  | "-h" :: _ => { stdout := usage }
  | other :: _ =>
    { code := 1, stdout := usage, stderr := lines ["Unknown command: " ++ other, ""] }

end LazyConfig.Command
