import Offside.Program

/-!
A kernel for the program: it sorts arguments into inputs and flags, runs the command that they name,
and says what is wrong with them or what there is to call.
-/

namespace Offside.CommandLine

structure Parsed where
  inputs : List Text := []
  instructions : Bool := false
  trace : Bool := false
  snapshot : Bool := false
  line : Option Text := none
  unknown : List Text := []
  deriving DecidableEq, Repr

def isFlag (t : Text) : Bool := t.head? == some 0x2D && t.length != 1

def lineValue? (t : Text) : Option Text :=
  let start := Text.ofString "--line="
  if start.isPrefixOf t then some (t.drop start.length) else none

def parse (p : Parsed) : List Text → Parsed
  | [] => p
  | arg :: rest =>
    if arg = Text.ofString "--instructions" then parse { p with instructions := true } rest
    else if arg = Text.ofString "--trace" then parse { p with trace := true } rest
    else if arg = Text.ofString "--snapshot" then parse { p with snapshot := true } rest
    else if arg = Text.ofString "--line" ∨ arg = Text.ofString "-l" then
      match rest with
      | value :: rest => parse { p with line := some value } rest
      | [] => { p with line := some [] }
    else if arg = Text.ofString "--" then { p with inputs := p.inputs ++ rest }
    else
      match lineValue? arg with
      | some value => parse { p with line := some value } rest
      | none =>
        if isFlag arg then
          let named := { p with unknown := p.unknown ++ [arg.takeWhile (· != 0x3D)] }
          match rest with
          | value :: rest =>
            if isFlag value ∨ arg.contains 0x3D then parse named (value :: rest)
            else parse named rest
          | [] => named
        else parse { p with inputs := p.inputs ++ [arg] } rest

/-- The flag that shows how to call the program, although no command has it. -/
def usageFlag : Text := Text.ofString "--finding:command"

def overview : List Entry := Entry.lines
  ["",
   "Options:",
   "  -h, --help     Display help information\n  -v, --version  Display version number",
   "",
   "Available commands:",
   "  help           View help for a given command\n" ++
     "  list           View list of available commands\n" ++
     "  tokens         Print the token stream the scanner produces for a file"]

def help : List Entry := Entry.lines
  ["",
   "Description:",
   "  Print the token stream the scanner produces for a file",
   "",
   "Usage:",
   "  blockscan tokens [options] [--] <input>",
   "",
   "Arguments:",
   "  input              Source file to scan",
   "",
   "Options:",
   "  --instructions     Scan text after a `|` marker as raw instruction text\n" ++
     "  --trace            Log every scanner decision and diagnostic\n" ++
     "  -l, --line[=LINE]  Only print tokens within five lines of this line\n" ++
     "  --snapshot         Print the final scanner snapshot as hex bytes"]

def missingInput : Entry := .refusal (Text.ofString "Missing required argument \"input\"")

def unknownFlag (flag : Text) : Entry := .refusal <|
  Text.ofString "Unknown flag \"" ++ flag ++
    Text.ofString "\". The mentioned flag is not accepted by the command"

def unknownCommand (name : Text) : Entry := .refusal <|
  Text.ofString "Command \"" ++ name ++ Text.ofString "\" is not defined"

def call (command : Request → Report) (p : Parsed) : Report :=
  match p.inputs, p.unknown with
  | [], _ => ⟨1, [missingInput]⟩
  | _, flag :: _ => ⟨1, [unknownFlag flag]⟩
  | path :: _, [] =>
    command
      { path, instructions := p.instructions, trace := p.trace, snapshot := p.snapshot,
        line := p.line }

def kernel : Kernel where
  handle registration arguments :=
    match arguments with
    | [] => { entries := overview, kept := some 0 }
    | name :: rest =>
      if name = Invocation.command then
        let p := parse {} rest
        let shown := if p.unknown.contains usageFlag then registration.usage else []
        let report := call registration.command p
        { entries := shown ++ report.entries, kept := some report.exit }
      else if name = Text.ofString "help" ∧ rest = [Invocation.command] then
        { entries := help, kept := some 0 }
      else
        let name := if name = Text.ofString "help" then rest.headD [] else name
        { entries := [unknownCommand name], kept := some 1 }

def path? : List Text → Option Text
  | [] => none
  | _ :: rest => (parse {} rest).inputs.head?

def run (arguments : List Text) (read : Text → Except Failure Bytes) : Report :=
  Program.run kernel read arguments

end Offside.CommandLine
