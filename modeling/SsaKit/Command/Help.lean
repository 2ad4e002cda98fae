/-!
Help pages: what a command does, how it is called, and its operands and options in columns.
-/
namespace SsaKit.Help

/-- A label with a line about it. -/
structure Entry where
  label : String
  about : String := ""

/-- An option as help shows it. -/
structure Flag where
  letter : Option Char := none
  label : String
  about : String

structure Page where
  about : String
  usage : List String
  commands : List Entry := []
  operands : List Entry := []
  flags : List Flag := []

namespace Flag

def target : Flag where
  label := "--target <TARGET>"
  about := "Target architecture to initialize before running anything [default: x86-64]"

def verbose : Flag where
  letter := 'v'
  label := "--verbose..."
  about := "Raise the log level (-v info, -vv debug, -vvv trace)"

def help : Flag where
  letter := 'h'
  label := "--help"
  about := "Print help"

def version : Flag where
  letter := 'V'
  label := "--version"
  about := "Print version"

def pass : Flag where
  label := "--pass <PASSES>"
  about := "Pass to run before executing (repeatable)"

def output : Flag where
  letter := 'o'
  label := "--output <OUTPUT>"
  about := "Output bitcode file"

/-- The letter stands before the long form; without one the long form is moved in. -/
def entry (f : Flag) : Entry where
  label := (match f.letter with
    | some c => "-" ++ c.toString ++ ", "
    | none => "    ") ++ f.label
  about := f.about

end Flag

/-- Pad with blanks on the right. -/
def padded (width : Nat) (s : String) : String :=
  s ++ String.ofList (List.replicate (width - s.length) ' ')

namespace Page

/-- Entries under a heading, in two columns; nothing where there are none. -/
def sectionText (heading : String) : List Entry → String
  | [] => ""
  | entries =>
    let width := (entries.map fun e => e.label.length).foldl max 0
    "\n" ++ heading ++ ":\n" ++
      String.join (entries.map fun e => "  " ++ padded width e.label ++ "  " ++ e.about ++ "\n")

def text (p : Page) : String :=
  p.about ++ "\n\nUsage: " ++ " ".intercalate p.usage ++ "\n" ++
    sectionText "Commands" p.commands ++ sectionText "Arguments" p.operands ++
    sectionText "Options" (p.flags.map Flag.entry)

end Page
end SsaKit.Help
