import TapeMachine.Command

namespace TapeMachine

/-- A bracket without a partner and the place it is reported at. -/
structure Unmatched where
  bracket : Bracket
  place : Nat
  deriving DecidableEq, Repr

/-- The refusals of the operating system that files and directories meet. -/
inductive SystemError where
  | notFound
  | alreadyExists
  | notADirectory
  | isADirectory
  | nameTooLong
  | permissionDenied
  | other (code : Nat) (text : String)
  deriving DecidableEq, Repr

namespace SystemError

def code : SystemError → Nat
  | notFound => 2
  | alreadyExists => 17
  | notADirectory => 20
  | isADirectory => 21
  | nameTooLong => 36
  | permissionDenied => 13
  | other c _ => c

def message : SystemError → String
  | notFound => "No such file or directory"
  | alreadyExists => "File exists"
  | notADirectory => "Not a directory"
  | isADirectory => "Is a directory"
  | nameTooLong => "File name too long"
  | permissionDenied => "Permission denied"
  | other _ text => text

def kindName : SystemError → String
  | notFound => "NotFound"
  | alreadyExists => "AlreadyExists"
  | notADirectory => "NotADirectory"
  | isADirectory => "IsADirectory"
  | nameTooLong => "InvalidFilename"
  | permissionDenied => "PermissionDenied"
  | other _ _ => "Other"

end SystemError

/-- Faults of streams and files. -/
inductive StreamError where
  | endOfInput
  | readFailed
  | writeFailed
  | nothingWritten
  | flushFailed
  | notUtf8
  | nulInPath
  /-- Input or output failed, and nothing says how. -/
  | unexplained
  | system (e : SystemError)
  deriving DecidableEq, Repr

def StreamError.message : StreamError → String
  | endOfInput => "failed to fill whole buffer"
  | readFailed => "read failed"
  | writeFailed => "write failed"
  | nothingWritten => "failed to write whole buffer"
  | flushFailed => "flush failed"
  | notUtf8 => "stream did not contain valid UTF-8"
  | nulInPath => "file name contained an unexpected NUL byte"
  | unexplained => "I/O failed"
  | system e => s!"{e.message} (os error {e.code})"

inductive Failure where
  /-- The head would leave the tape, at an instruction that may be known. -/
  | outOfBounds (pc? : Option Nat)
  /-- A bracket without a partner, by command. -/
  | unmatchedCommand (u : Unmatched)
  /-- A bracket without a partner, by byte of the source. -/
  | unmatchedSource (u : Unmatched)
  /-- A bracket without a partner, by position given to the emitter. -/
  | unmatchedEmitted (u : Unmatched)
  | unknownEngine (name : String)
  | titleCollision (first second title : String)
  | offsetTooLarge
  | stream (e : StreamError)
  /-- What is shown of an assembler that did not commit its code, or of code that returned what no code returns. -/
  | assembler (shown : String)
  deriving DecidableEq, Repr

namespace Failure

def message : Failure → String
  | outOfBounds none => "data pointer out of bounds"
  | outOfBounds (some pc) => s!"data pointer out of bounds at pc={pc}"
  | unmatchedCommand u => s!"unmatched '{u.bracket.toChar}' at pc={u.place}"
  | unmatchedSource u => s!"Unmatched '{u.bracket.toChar}' at index {u.place}."
  | unmatchedEmitted ⟨.opening, p⟩ => s!"Unmatched opening '[' at position {p}."
  | unmatchedEmitted ⟨.closing, p⟩ => s!"Unmatched closing ']' at position {p}."
  | unknownEngine name => s!"unknown implementation {name}"
  | titleCollision a b title => s!"{a} and {b} would both write {title}.json"
  | offsetTooLarge => "number too large to fit in target type"
  | stream e => e.message
  | assembler shown => shown

end Failure

/-- How a run ends. A crash has no message: it is a look-up outside a table, or a jump behind the last word. -/
inductive Verdict where
  | done
  | failed (e : Failure)
  | crashed
  deriving DecidableEq, Repr

end TapeMachine
