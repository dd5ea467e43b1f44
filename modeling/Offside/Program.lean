import Offside.Command

/-!
The program. It registers its command with a kernel and hands it the arguments; how the process ends
depends on what becomes of that. The kernel is not part of this library: it is a parameter, and
`Kernel.RunsCommand` is what is assumed of it.
-/

namespace Offside

/-- What the program registers: its command, and what it writes where commands are looked up. -/
structure Registration where
  command : Request → Report
  usage : List Entry

inductive Ending where
  | returned
  /-- With an exception, which the console prints as this text. -/
  | threw (error : Text)
  | exited (code : Nat)
  deriving DecidableEq, Repr

/-- What handling arguments comes to. The code of the command is one that the kernel keeps; the
process has its own, if any was set. -/
structure Handled where
  entries : List Entry
  kept : Option Nat := none
  process : Option Nat := none
  ending : Ending := .returned
  deriving DecidableEq, Repr

structure Kernel where
  handle : Registration → List Text → Handled

inductive Flag where
  | instructions
  | trace
  | snapshot
  | joinedLine (value : Text)
  | longLine (value : Text)
  | shortLine (value : Text)
  deriving DecidableEq, Repr

namespace Flag

def words : Flag → List Text
  | .instructions => [Text.ofString "--instructions"]
  | .trace => [Text.ofString "--trace"]
  | .snapshot => [Text.ofString "--snapshot"]
  | .joinedLine value => [Text.ofString "--line=" ++ value]
  | .longLine value => [Text.ofString "--line", value]
  | .shortLine value => [Text.ofString "-l", value]

def line? : Flag → Option Text
  | .joinedLine value | .longLine value | .shortLine value => some value
  | .instructions | .trace | .snapshot => none

end Flag

structure Invocation where
  before : List Flag := []
  path : Text
  after : List Flag := []
  deriving DecidableEq, Repr

namespace Invocation

def command : Text := Text.ofString "tokens"

def words (i : Invocation) : List Text :=
  command :: (i.before.flatMap Flag.words ++ i.path :: i.after.flatMap Flag.words)

def flags (i : Invocation) : List Flag := i.before ++ i.after

def request (i : Invocation) : Request :=
  { path := i.path
    instructions := i.flags.contains .instructions
    trace := i.flags.contains .trace
    snapshot := i.flags.contains .snapshot
    line := (i.flags.filterMap Flag.line?).getLast? }

end Invocation

def Text.isPlain (t : Text) : Bool := t.head?.any (· != 0x2D)

def Text.isNegative (t : Text) : Bool :=
  t.head? == some 0x2D && t.tail != [] && t.tail.all CodeUnit.isDigit

/-- Whether the value of a flag is given, and cannot be taken for a flag where it is a word of its
own. -/
def Flag.isPlain : Flag → Bool
  | .joinedLine value => value != []
  | .longLine value | .shortLine value => value.isPlain || value.isNegative
  | .instructions | .trace | .snapshot => true

/-- A call with one reading: no word of it can be taken for something else, and the line is given at
most once. A truth value could be taken for that of the flag in front of it. -/
structure Invocation.Plain (i : Invocation) : Prop where
  path : i.path.isPlain = true
  noTruth : i.path ≠ Text.ofString "true" ∧ i.path ≠ Text.ofString "false"
  flags : ∀ flag ∈ i.flags, flag.isPlain = true
  line : (i.flags.filterMap Flag.line?).length ≤ 1

/-- What is assumed of a kernel that is called with the words of the command: it runs the command as
they ask for and writes what it writes, keeps its exit code, returns also where the command has
failed, and leaves the process alone. -/
structure Kernel.RunsCommand (kernel : Kernel) : Prop where
  entries : ∀ registration (i : Invocation), i.Plain →
    (kernel.handle registration i.words).entries = (registration.command i.request).entries
  kept : ∀ registration (i : Invocation), i.Plain →
    (kernel.handle registration i.words).kept = some (registration.command i.request).exit
  returned : ∀ registration (i : Invocation), i.Plain →
    (kernel.handle registration i.words).ending = .returned
  process : ∀ registration (i : Invocation), i.Plain →
    (kernel.handle registration i.words).process = none

namespace Program

def usage : List Entry := Entry.lines
  ["blockscan v0.1.0",
   "",
   "Usage: blockscan <command> [options]",
   "",
   "Commands:",
   "  tokens    Print the token stream for a source file",
   "",
   "Run \"blockscan --help\" for available commands and options."]

def registration (read : Text → Except Failure Bytes) : Registration :=
  ⟨fun r => r.run read, usage⟩

/-- Runs the program. A process that nothing else ends has the code that was set for it, or zero;
an exception is printed and ends it with one. -/
def run (kernel : Kernel) (read : Text → Except Failure Bytes) (arguments : List Text) : Report :=
  let handled := kernel.handle (registration read) arguments
  match handled.ending with
  | .returned => ⟨handled.process.getD 0, handled.entries⟩
  | .threw error => ⟨1, handled.entries ++ [.exception error]⟩
  | .exited code => ⟨code, handled.entries⟩

end Program

end Offside
