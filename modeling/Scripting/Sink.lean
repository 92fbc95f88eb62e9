/-
# Output

What scripts print goes to the console, into a buffer that the host drains, or to
a writer of the host, which may refuse it.
-/
import Scripting.Fault

namespace Scripting

/-- Where output goes. A writer with a refusal fails on every text that is not
empty. -/
inductive Sink.Mode where
  | console
  | capture
  | writer (refusal : Option String)
  deriving DecidableEq, Repr

/-- What has been written, by where it went. -/
structure Sink where
  mode : Sink.Mode
  captured : String
  written : String
  shown : String
  deriving DecidableEq, Repr

namespace Sink

def fresh (mode : Mode) : Sink := ⟨mode, "", "", ""⟩

def setMode (s : Sink) (mode : Mode) : Sink := { s with mode := mode }

def isCapturing (s : Sink) : Bool := s.mode == .capture

/-- Writes a text, or fails with the writer's refusal. -/
def write (s : Sink) (text : String) : Except Fault Sink :=
  match s.mode with
  | .console => .ok { s with shown := s.shown ++ text }
  | .capture => .ok { s with captured := s.captured ++ text }
  | .writer none => .ok { s with written := s.written ++ text }
  | .writer (some refusal) =>
    if text.isEmpty then .ok s else .error (.of .raised s!"output error: {refusal}")

def take (s : Sink) : String × Sink := (s.captured, { s with captured := "" })

/-- The text that went to the writer, which is taken out. -/
def takeWritten (s : Sink) : String × Sink := (s.written, { s with written := "" })

/-- A sink described: its mode, and how many bytes are captured. -/
def describe (s : Sink) : String :=
  let mode := match s.mode with
    | .console => "PassThrough"
    | .capture => "Capture"
    | .writer _ => "Writer"
  "OutputSink \x7b mode: \"" ++ mode ++ s!"\", buffered: {s.captured.utf8ByteSize} \x7d"

end Sink

end Scripting
