import Mathlib.Data.Int.Notation
import Mathlib.Order.Compare
import Std.Data.ExtTreeMap

/-!
# The coordination protocol

The messages of `coordination.proto` that agents and the controller decide on.  Encoded metric
deltas and plans are opaque bytes here.  Left out are the fields nothing below reads: versions, core
counts and free texts of the registration, and the summaries agents attach to their run events.
-/

namespace Loadr

/-- Sorted string maps (`BTreeMap<String, String>`; also the labels, whose order nothing reads). -/
abbrev StringMap := Std.ExtTreeMap String String compare

def protocolVersion : ℕ := 4

structure Register where
  agentId : String
  agentName : String
  protocolVersion : ℕ
  labels : StringMap
  /-- The run still in flight on a reconnecting agent; empty for none. -/
  resumeRunId : String
  incarnation : String
deriving DecidableEq

inductive EventKind
  | started
  | prepFailed
  | finished
  | aborted
  | failed
  | other (kind : String)
deriving DecidableEq, Repr

/-- The kinds that end an agent's part in a run. -/
def EventKind.isTerminal : EventKind → Bool
  | .finished | .aborted | .failed => true
  | _ => false

structure RunEvent where
  runId : String
  kind : EventKind
  detail : String
deriving DecidableEq, Repr

inductive ControlAction
  | stop
  | kill
  | pause
  | resume
  | scale
  | other (action : String)
deriving DecidableEq, Repr

def ControlAction.isStop : ControlAction → Bool
  | .stop | .kill => true
  | _ => false

structure Control where
  runId : String
  action : ControlAction
  scenario : String
  value : ℕ
  commandId : ℕ
deriving DecidableEq, Repr

structure ControlAck where
  runId : String
  commandId : ℕ
  action : ControlAction
  scenario : String
  value : ℕ
  applied : Bool
  detail : String
deriving DecidableEq, Repr

structure Assignment where
  runId : String
  planYaml : String
  partitionIndex : ℕ
  partitionCount : ℕ
deriving DecidableEq, Repr

/-- What agents send; `β` is the type of encoded metric deltas. -/
inductive AgentMsg (β : Type)
  | register
  | heartbeat (activeVus : ℕ)
  | metrics (runId : String) (deltaJson : β)
  | event (ev : RunEvent)
  | controlAck (ack : ControlAck)
  | assignmentReady (runId : String) (partitionIndex : ℕ)
deriving DecidableEq, Repr

inductive CtrlMsg
  | registered
  | assignment (a : Assignment)
  | start (runId : String) (startUnixMs : ℤ)
  | control (c : Control)
  | uplinkAck (seq : ℕ)
deriving DecidableEq, Repr

/-- An item of a session's downlink: a message, or the status that closes the stream. -/
inductive DownItem
  | msg (m : CtrlMsg)
  | aborted
deriving DecidableEq, Repr

end Loadr
