import Componentry.Project.Compiler

/-!
# The command line

A request names a command with its operand and the options file to use. It is carried out on a file
tree, and ends with a text for its reader or with the failure that stopped it.
-/

namespace Componentry.CommandLine

/-- The commands. -/
inductive Command where
  | compile
  /-- Gives the companion script of a unit. -/
  | script
  /-- Lists the routes of all units of a directory. -/
  | manifest
deriving DecidableEq, Repr, Inhabited

def Command.name : Command → String
  | .compile => "compile"
  | .script => "script"
  | .manifest => "manifest"

def Command.ofName? (name : String) : Option Command :=
  [Command.compile, .script, .manifest].find? (·.name == name)

/-- A request that can be carried out. -/
structure Request where
  config : Option String
  /-- How much is told while the request runs. -/
  verbosity : Nat
  command : Command
  operand : String
  out : Option String
deriving DecidableEq, Repr

/-- Why a line is no request. -/
inductive Stop where
  /-- It asks what the program, or one of its commands, can do. -/
  | help (command : Option Command)
  | version
  | misuse
deriving DecidableEq, Repr

def sharedOptions : List String :=
  ["  -c, --config <CONFIG>  Options file (.json or .toml)",
   "  -v, --verbose...       Increase log verbosity (-v info, -vv debug, -vvv trace)",
   "  -h, --help             Print help"]

def Command.about : Command → String
  | .compile => "Compile a component source unit to an ES module"
  | .script => "Emit the companion behavior script module for a unit"
  | .manifest => "Print the route manifest for every unit under a directory"

def helpLines : Option Command → List String
  | none =>
    ["Single-file component compiler", "", "Usage: sfc [OPTIONS] <COMMAND>", "", "Commands:",
     "  compile   " ++ Command.compile.about, "  script    " ++ Command.script.about,
     "  manifest  " ++ Command.manifest.about,
     "  help      Print this message or the help of the given subcommand(s)", "", "Options:"] ++
    sharedOptions ++ ["  -V, --version          Print version"]
  | some c =>
    let operand := if c = .manifest then "<DIR>" else "<FILE>"
    let out := "  -o, --out <OUT>        Write the module code here instead of printing the full result as JSON"
    [c.about, "", "Usage: sfc " ++ c.name ++ " [OPTIONS] " ++ operand, "", "Arguments:", "  " ++ operand,
     "", "Options:"] ++ (if c = .compile then [out] else []) ++ sharedOptions

def helpText (c : Option Command) : String := String.intercalate "\n" (helpLines c)

def versionText : String := "sfc 0.1.0"

/-- What is said of a line that cannot be used. -/
def misuseText : String :=
  "error: the arguments cannot be used\n\nUsage: sfc [OPTIONS] <COMMAND>\n\n" ++
  "For more information, try '--help'."

/-! ### Reading a command line

The words before the command and those after it are read in the same way, each part with the
options it allows. A value is taken up when the next option or operand comes, so the first fault of
a part is the one that counts; the last value before the command is taken up after the command has
been read. -/

/-- What takes a value. -/
inductive Slot where
  | config
  | out
  | operand
deriving DecidableEq, Repr

/-- One part of a line as far as it has been read. -/
structure Part where
  /-- The command whose words these are; none for the words before a command. -/
  command : Option Command
  config : Option String := none
  out : Option String := none
  operand : Option String := none
  /-- How often more words were asked for. -/
  verbosity : Nat := 0
  /-- A slot whose value is not taken up yet, and the value if it has been seen. -/
  pending : Option (Slot × Option String) := none
  closed : Bool := false
deriving DecidableEq, Repr

namespace Part

variable (p : Part)

def value? : Slot → Option String
  | .config => p.config
  | .out => p.out
  | .operand => p.operand

def fill (slot : Slot) (value : String) : Part :=
  match slot with
  | .config => { p with config := some value }
  | .out => { p with out := some value }
  | .operand => { p with operand := some value }

/-- Takes up the pending value. It must be there, must not be empty, and must be the first of its
slot. -/
def settle : Except Stop Part :=
  match p.pending with
  | none => .ok p
  | some (_, none) => .error .misuse
  | some (slot, some value) =>
    if value.isEmpty || (p.value? slot).isSome then .error .misuse
    else .ok { p.fill slot value with pending := none }

def awaits : Bool :=
  !p.closed && match p.pending with
    | some (_, none) => true
    | _ => false

def attach (slot : Slot) (value : String) : Except Stop Part := do
  let p ← p.settle
  { p with pending := some (slot, some value) }.settle

def await (slot : Slot) : Except Stop Part := do
  return { ← p.settle with pending := some (slot, none) }

def louder : Except Stop Part := do
  let p ← p.settle
  return { p with verbosity := p.verbosity + 1 }

def askHelp : Except Stop Part := do
  let p ← p.settle
  throw (.help p.command)

/-- Takes a request for the version, which only the program itself has. -/
def askVersion : Except Stop Part := do
  if p.command.isSome then throw .misuse
  let _ ← p.settle
  throw .version

def allowsOut : Bool := p.command == some .compile

def takeOperand (word : String) : Except Stop Part := do
  let p ← if p.command.isSome then p.settle else throw .misuse
  if p.operand.isSome then throw .misuse
  return { p with pending := some (.operand, some word) }

/-- Takes an option letter that has a value; the rest of the word, less an equals sign, is it. -/
def letterValue (slot : Slot) : List Char → Except Stop Part
  | [] => p.await slot
  | '=' :: value => p.attach slot (String.ofList value)
  | value => p.attach slot (String.ofList value)

def letters (p : Part) : List Char → Except Stop Part
  | [] => .ok p
  | c :: rest =>
    if c == 'v' then do letters (← p.louder) rest
    else if c == 'h' then p.askHelp
    else if c == 'V' then p.askVersion
    else if c == 'c' then p.letterValue .config rest
    else if c == 'o' && p.allowsOut then p.letterValue .out rest
    else .error .misuse

/-- Takes an option by its name, with the value that follows an equals sign. -/
def named (name : String) (value : Option String) : Except Stop Part :=
  let take (slot : Slot) : Except Stop Part :=
    match value with
    | some v => p.attach slot v
    | none => p.await slot
  if name == "config" then take .config
  else if name == "out" && p.allowsOut then take .out
  else if value.isSome then .error .misuse
  else if name == "verbose" then p.louder
  else if name == "help" then p.askHelp
  else if name == "version" then p.askVersion
  else .error .misuse

def nameAndValue (s : List Char) : String × Option String :=
  match s.dropWhile (· != '=') with
  | [] => (String.ofList s, none)
  | _ :: value => (String.ofList (s.takeWhile (· != '=')), some (String.ofList value))

/-- Takes a word that is neither a value nor after the end of options. -/
def openWord (word : String) : Except Stop Part :=
  match word.toList with
  | ['-', '-'] => .ok { p with closed := true }
  | '-' :: '-' :: s =>
    let (name, value) := nameAndValue s
    p.named name value
  | '-' :: c :: s => p.letters (c :: s)
  | _ =>
    match p.pending with
    | some (slot, none) => .ok { p with pending := some (slot, some word) }
    | _ => p.takeOperand word

def word (w : String) : Except Stop Part :=
  if p.closed then p.takeOperand w else p.openWord w

end Part

def readCommand (command : Command) (words : List String) : Except Stop Part := do
  let p ← words.foldlM Part.word { command := some command }
  p.settle

def readHelp : List String → Stop
  | [] => .help none
  | [name] =>
    match Command.ofName? name with
    | some command => .help (some command)
    | none => if name == "help" then .help none else .misuse
  | _ => .misuse

/-- The request of the words before and after a command. What stands after it comes first. -/
def request (before after : Part) (command : Command) : Except Stop Request :=
  match after.operand with
  | none => .error .misuse
  | some operand => .ok {
      config := after.config.or before.config
      verbosity := before.verbosity + after.verbosity
      command, operand, out := after.out }

def readFrom (p : Part) : List String → Except Stop Request
  | [] => .error .misuse
  | word :: rest =>
    let mayCommand := !p.closed && !p.awaits
    match Command.ofName? word, mayCommand with
    | some command, true => do
      let after ← readCommand command rest
      request (← p.settle) after command
    | _, _ =>
      if mayCommand && word == "help" then .error (readHelp rest)
      else do readFrom (← p.word word) rest

def read (words : List String) : Except Stop Request := readFrom { command := none } words

/-! ### Carrying out a request -/

/-- How a command line ended. -/
inductive Outcome where
  | stopped (stop : Stop)
  /-- It was carried out, with a text for the reader and remarks beside it. -/
  | finished (text : String) (remarks : List Diagnostic)
  | failed (failure : Failure)

def Outcome.code : Outcome → Nat
  | .stopped .misuse => 2
  | .stopped _ | .finished .. => 0
  | .failed .aborted => 101
  | .failed _ => 1

variable (t : FileTree)

def optionsOf : Option String → Except Failure Options
  | none => .ok {}
  | some path => do Config.ofText path (← t.textAt path)

def Outcome.ofExcept : Except Failure (String × List Diagnostic) → Outcome
  | .ok (text, remarks) => .finished text remarks
  | .error e => .failed e

/-- Puts a compiled module where it belongs: its code into a file, or all of it into the text. -/
def deliver (out : Option String) (m : Module) : Except Failure (String × FileTree) :=
  match out with
  | none => .ok (m.toJson.pretty ++ "\n", t)
  | some path => do
    return ("", ← (t.write path (Text.utf8 m.code.toList)).mapError (.file path))

variable (options : Options)

def runCompile (file : String) (out : Option String) : Outcome × FileTree :=
  match (Compiler.ofOptions options t).compile t file with
  | (.error e, _) => (.failed e, t)
  | (.ok m, c) =>
    match deliver t out m with
    | .error e => (.failed e, t)
    | .ok (text, t) => (.finished text m.diagnostics, (c.flush t).2)

def runScript (file : String) : Except Failure (String × List Diagnostic) := do
  let source ← t.textAt file
  let blocks := Source.blocks options source
  let m ← ScriptModule.compile blocks.scriptText (Module.scriptId file blocks)
  return (m.code ++ "\n", m.diagnostics)

def runManifest (dir : String) : Except Failure (String × List Diagnostic) := do
  let routes ← Project.manifest t options dir
  return ((Json.array (routes.map Route.toJson)).pretty ++ "\n", [])

def Request.run (r : Request) (t : FileTree) : Outcome × FileTree :=
  match optionsOf t r.config with
  | .error e => (.failed e, t)
  | .ok options =>
    match r.command with
    | .compile => runCompile t options r.operand r.out
    | .script => (Outcome.ofExcept (runScript t options r.operand), t)
    | .manifest => (Outcome.ofExcept (runManifest t options r.operand), t)

def run (words : List String) (t : FileTree) : Outcome × FileTree :=
  match read words with
  | .error stop => (.stopped stop, t)
  | .ok r => r.run t

end Componentry.CommandLine
