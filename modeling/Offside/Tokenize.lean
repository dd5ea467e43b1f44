import Offside.Reader
import Offside.Snapshot
import Offside.Store

/-!
Tokens of a whole source.
-/

namespace Offside

structure Options where
  instructions : Bool := false
  trace : Bool := false
  settings : Settings := {}
  deriving DecidableEq, Repr

structure Tokenized where
  tokens : Store Token
  scanner : Scanner
  events : List Event
  deriving DecidableEq, Repr

def tokenize (source : Text) (options : Options) : Tokenized :=
  let start := Reader.start source options.settings
  let reading :=
    if options.trace then start.run options.instructions
    else start.runSilent options.instructions
  let lines := Lines.ofText source
  { tokens := .ofList (reading.lexemes.map (·.locate lines))
    scanner := reading.scanner
    events := reading.events }

section Projections

variable (source : Text) (options : Options)

theorem tokens_tokenize :
    (tokenize source options).tokens =
      .ofList (((Reader.start source options.settings).run options.instructions).lexemes.map
        (·.locate (Lines.ofText source))) := by
  rw [tokenize, Reader.runSilent_eq]
  split <;> rfl

theorem scanner_tokenize :
    (tokenize source options).scanner =
      ((Reader.start source options.settings).run options.instructions).scanner := by
  rw [tokenize, Reader.runSilent_eq]
  split <;> rfl

theorem events_tokenize :
    (tokenize source options).events =
      if options.trace then
        ((Reader.start source options.settings).run options.instructions).events
      else [] := by
  rw [tokenize, Reader.runSilent_eq]
  split <;> rfl

end Projections

end Offside
