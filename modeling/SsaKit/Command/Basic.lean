import SsaKit.Command.Help
/-!
The command line: which words make a request. A word that starts with a hyphen is an option,
unless it is a negative number where arguments of a program are expected, or follows `--`.
-/
namespace SsaKit

open Help

inductive Command where
  | list
  | show (demo : String)
  | run (demo function : String) (args passes : List String)
  | emit (demo output : String)
  | exec (input function : String) (args : List String)

inductive Request where
  | version
  | help (page : Page)
  | command (target : String) (command : Command)

namespace Command

/-- The name that the program is called by. -/
def program : String := "rcg"

/-- One command: its words beside the options that are always accepted. -/
structure Shape where
  name : String
  about : String
  operands : List Entry := []
  /-- More words may follow the operands. -/
  args : Option Entry := none
  hasPasses : Bool := false
  hasOutput : Bool := false
  /-- The first operand is the name of a file, which is never empty. -/
  hasInput : Bool := false

inductive Slot where
  | target | pass | output
deriving DecidableEq

/-- What has been read of one level. -/
structure Words where
  positional : List String := []
  target : Option String := none
  passes : List String := []
  output : Option String := none
  /-- The option whose value is the next word. -/
  pending : Option Slot := none
  onlyPositional : Bool := false

/-- Why reading ends early. -/
inductive Stop where
  | misuse
  | help

/-- Give an option its value. Only passes may be given twice, and an output is never empty. -/
def Words.addValue (w : Words) (slot : Slot) (value : String) : Except Stop Words :=
  let w := { w with pending := none }
  match slot with
  | .target => if w.target.isSome then .error .misuse else .ok { w with target := value }
  | .pass => .ok { w with passes := w.passes ++ [value] }
  | .output =>
    if w.output.isSome ∨ value.isEmpty then .error .misuse else .ok { w with output := value }

namespace Shape

variable (s : Shape)

/-! ### Reading -/

def slot? (name : String) : Option Slot :=
  if name = "target" then some .target
  else if name = "pass" ∧ s.hasPasses then some .pass
  else if name = "output" ∧ s.hasOutput then some .output
  else none

def addPositional (w : Words) (word : String) : Except Stop Words :=
  if s.hasInput ∧ w.positional = [] ∧ word.isEmpty then .error .misuse
  else if w.positional.length < s.operands.length ∨ s.args.isSome then
    .ok { w with positional := w.positional ++ [word] }
  else .error .misuse

/-- A word that is no option: the value of the option before it, or an operand. -/
def addWord (w : Words) (word : String) : Except Stop Words :=
  match w.pending with
  | some slot => w.addValue slot word
  | none => s.addPositional w word

/-- The text after two hyphens: a name, and perhaps a value after an equals sign. -/
def addLong (w : Words) (body : List Char) : Except Stop Words :=
  let (name, rest) := body.span (· ≠ '=')
  match s.slot? (String.ofList name), rest with
  | some slot, _ :: value => w.addValue slot (String.ofList value)
  | some slot, [] => .ok { w with pending := some slot }
  | none, [] =>
    if name = "verbose".toList then .ok w
    else if name = "help".toList then .error .help
    else .error .misuse
  | none, _ :: _ => .error .misuse

/-- The letters after one hyphen. -/
def addShort (w : Words) : List Char → Except Stop Words
  | [] => .ok w
  | 'v' :: cs => addShort w cs
  | 'h' :: _ => .error .help
  | 'o' :: cs =>
    if s.hasOutput then
      match cs with
      | [] => .ok { w with pending := some .output }
      | '=' :: cs => w.addValue .output (String.ofList cs)
      | cs => w.addValue .output (String.ofList cs)
    else .error .misuse
  | _ => .error .misuse

/-- Digits, with a point and more digits after them, and then an exponent without a sign. -/
def isUnsignedNumber (cs : List Char) : Bool :=
  let (whole, rest) := cs.span Char.isDigit
  let rest := match rest with
    | '.' :: rest => rest.dropWhile Char.isDigit
    | rest => rest
  !whole.isEmpty && match rest with
    | [] => true
    | mark :: power =>
      (mark = 'e' || mark = 'E') && !power.isEmpty && power.all Char.isDigit

def acceptsNegative (w : Words) : Bool :=
  s.args.isSome && s.operands.length ≤ w.positional.length

/-- Read one more word. An option cannot stand where a value is expected. -/
def addAny (w : Words) (word : String) : Except Stop Words :=
  if w.onlyPositional then s.addPositional w word
  else match word.toList with
    | ['-', '-'] =>
      if w.pending.isSome then .error .misuse else .ok { w with onlyPositional := true }
    | '-' :: '-' :: body => if w.pending.isSome then .error .misuse else s.addLong w body
    | '-' :: c :: cs =>
      if s.acceptsNegative w && isUnsignedNumber (c :: cs) then s.addWord w word
      else if w.pending.isSome then .error .misuse
      else s.addShort w (c :: cs)
    | _ => s.addWord w word

/-- The words of a command, if none is missing. -/
def read (words : List String) : Except Stop Words := do
  let w ← words.foldlM s.addAny {}
  if w.pending.isSome ∨ w.positional.length < s.operands.length then throw .misuse
  return w

/-! ### Help -/

def page : Page where
  about := s.about
  usage := [program, s.name, "[OPTIONS]"] ++ (if s.hasOutput then [Flag.output.label] else []) ++
    s.operands.map Entry.label ++ s.args.toList.map Entry.label
  operands := s.operands ++ s.args.toList
  flags := (if s.hasPasses then [.pass] else []) ++ (if s.hasOutput then [.output] else []) ++
    [.target, .verbose, .help]

/-! ### The commands -/

def demo : Entry := ⟨"<DEMO>", ""⟩

def all : List Shape :=
  [{ name := "list", about := "List the bundled demo programs" },
   { name := "show", about := "Print the IR of a demo", operands := [demo] },
   { name := "run", about := "Build a demo and run one of its functions"
     operands := [demo, ⟨"<FUNCTION>", "Function to call"⟩]
     args := some ⟨"[ARGS]...", "Arguments, parsed according to the parameter types"⟩
     hasPasses := true },
   { name := "emit", about := "Write a demo module as bitcode", operands := [demo]
     hasOutput := true },
   { name := "exec", about := "Read a bitcode file and run one of its functions"
     operands := [⟨"<INPUT>", ""⟩, ⟨"<FUNCTION>", ""⟩], args := some ⟨"[ARGS]...", ""⟩
     hasInput := true }]

def find? (name : String) : Option Shape := all.find? fun s => s.name = name

end Shape

def ofWords? (name : String) (w : Words) : Option Command :=
  match name, w.positional with
  | "list", [] => some .list
  | "show", [demo] => some (.show demo)
  | "run", demo :: function :: args => some (.run demo function args w.passes)
  | "emit", [demo] => w.output.map (.emit demo ·)
  | "exec", input :: function :: args => some (.exec input function args)
  | _, _ => none

/-! ### Help on the program -/

/-- The command that answers with help. -/
def helpEntry : Entry := ⟨"help", "Print this message or the help of the given subcommand(s)"⟩

def programPage : Page where
  about := "RCG IR construction toolkit"
  usage := [program, "[OPTIONS]", "<COMMAND>"]
  commands := Shape.all.map (fun s => ⟨s.name, s.about⟩) ++ [helpEntry]
  flags := [.target, .verbose, .help, .version]

def helpPage : Page :=
  let operand : Entry := ⟨"[COMMAND]...", "Print help for the subcommand(s)"⟩
  { about := helpEntry.about, usage := [program, helpEntry.label, operand.label]
    operands := [operand] }

/-- The page on what the words after the name of the help command say. -/
def pageOn? : List String → Option Page
  | [] => some programPage
  | [name] => if name = helpEntry.label then some helpPage else (Shape.find? name).map Shape.page
  | _ => none

end Command

namespace Request

def defaultTarget : String := "x86-64"

/-- What a group of letters asks for before anything else goes wrong. -/
def ofLetters? : List Char → Option Request
  | 'v' :: cs => ofLetters? cs
  | 'V' :: _ => some .version
  | 'h' :: _ => some (.help Command.programPage)
  | _ => none

/-- The words from the name of the command on. A target given among them wins. -/
def ofCommand? (target : Option String) (name : String) (words : List String) :
    Option Request :=
  if name = Command.helpEntry.label then (Command.pageOn? words).map .help
  else do
    let shape ← Command.Shape.find? name
    match shape.read words with
    | .error .misuse => none
    | .error .help => some (.help shape.page)
    | .ok w =>
      some (.command ((w.target <|> target).getD defaultTarget) (← Command.ofWords? name w))

/-- Options, and then the command. -/
def read? (w : Command.Words) : List String → Option Request
  | [] => none
  | word :: words =>
    let proceed : Except Command.Stop Command.Words → Option Request
      | .ok w => read? w words
      | .error .help => some (.help Command.programPage)
      | .error .misuse => none
    match w.pending, word.toList with
    | none, '-' :: '-' :: body =>
      if body = "version".toList then some .version
      else if body = [] then none
      else proceed (Command.Shape.addLong { name := "", about := "" } w body)
    | none, '-' :: c :: cs => (ofLetters? (c :: cs)).or
        (proceed (Command.Shape.addShort { name := "", about := "" } w (c :: cs)))
    | none, _ => ofCommand? w.target word words
    | some _, '-' :: _ :: _ => none
    | some slot, _ => proceed (w.addValue slot word)

/-- The request that the words of a command line make; none if they make none. -/
def ofWords? (words : List String) : Option Request := read? {} words

end Request
end SsaKit
