import Offside.Diagnostic.Catalog
import Offside.Text.Literal

/-!
Failures of the outside world, and how a command reports them.
-/

namespace Offside

inductive Failure where
  | error (message : Text) (code : Option Value)
  | other (value : Value)
  deriving DecidableEq, Repr

namespace Failure

def hasCode : Failure → Bool
  | .error _ code => code.isSome
  | .other _ => false

def message : Failure → Text
  | .error message _ => message
  | .other value => value.render

def missingCode : Value := .text (Text.ofString "ENOENT")

def isMissing : Failure → Bool
  | .error _ code => code = some missingCode
  | .other _ => false

def readReport (path : Text) (f : Failure) : Text :=
  if f.isMissing then Code.missingFile.report [(Text.ofString "path", .text path)]
  else Code.unreadableFile.report [(Text.ofString "reason", .text f.message)]

def scanReport (f : Failure) : Text :=
  Code.failedScan.report [(Text.ofString "reason", .text f.message)]

end Failure

inductive ReadError where
  | missing
  | folder
  | throughFile
  | nameTooLong
  | nullUnit
  deriving DecidableEq, Repr

namespace ReadError

def code : ReadError → String
  | .missing => "ENOENT"
  | .folder => "EISDIR"
  | .throughFile => "ENOTDIR"
  | .nameTooLong => "ENAMETOOLONG"
  | .nullUnit => "ERR_INVALID_ARG_VALUE"

def opening (path : Text) (e : ReadError) (reason : String) : Text :=
  Text.ofString e.code ++ Text.ofString ": " ++ Text.ofString reason ++ Text.ofString ", open '" ++
    path ++ Text.ofString "'"

def message (path : Text) (e : ReadError) : Text :=
  match e with
  | .missing => e.opening path "no such file or directory"
  | .folder => Text.ofString "EISDIR: illegal operation on a directory, read"
  | .throughFile => e.opening path "not a directory"
  | .nameTooLong => e.opening path "name too long"
  | .nullUnit =>
    Text.ofString "The argument 'path' must be a string, Uint8Array, or URL without null bytes. " ++
      Text.ofString "Received " ++ path.shortLiteral

def failure (path : Text) (e : ReadError) : Failure :=
  .error (e.message path) (some (.text (Text.ofString e.code)))

end ReadError

end Offside
