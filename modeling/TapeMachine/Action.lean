import TapeMachine.Streams
import TapeMachine.Tape

namespace TapeMachine

/-- Where a run stands: the next instruction and the tape. -/
structure Config where
  pc : Nat
  tape : Tape
  deriving DecidableEq

namespace Config

/-- The start of a run on a tape left by an earlier one. -/
def start (t : Tape) : Config where
  pc := 0
  tape := t.rewind

def next (c : Config) (t : Tape) : Config where
  pc := c.pc + 1
  tape := t

end Config

/-- One instruction's dealings with the streams. Each request names the configuration that is left when
the streams refuse it, and how to go on when they grant it. -/
inductive Action where
  | resume (c : Config)
  | halt (c : Config) (v : Verdict)
  | read (refused : Config) (granted : UInt8 → Action)
  | write (refused : Config) (b : UInt8) (granted : Unit → Action)
  | flush (refused : Config) (granted : Unit → Action)

/-- An action's outcome: the run goes on or is over. -/
inductive Reply where
  | resume (c : Config) (io : Streams)
  | halt (c : Config) (v : Verdict) (io : Streams)

/-- The streams answer all requests of an action. A refusal ends the run with its error. -/
def Action.perform : Action → Streams → Reply
  | resume c, io => .resume c io
  | halt c v, io => .halt c v io
  | read c granted, io =>
    match io.read with
    | (.ok b, io') => (granted b).perform io'
    | (.error e, io') => .halt c (.failed (.stream e)) io'
  | write c b granted, io =>
    match io.write b with
    | (none, io') => (granted ()).perform io'
    | (some e, io') => .halt c (.failed (.stream e)) io'
  | flush c granted, io =>
    match io.flush with
    | (none, io') => (granted ()).perform io'
    | (some e, io') => .halt c (.failed (.stream e)) io'

/-- An engine, given its program: what it does in each configuration. -/
abbrev Step := Config → Action

structure Ended where
  verdict : Verdict
  config : Config
  io : Streams
  deriving DecidableEq

/-- Runs for at most `limit` instructions; `none` if the run is not over by then. -/
def runFor (step : Step) : Nat → Config → Streams → Option Ended
  | 0, _, _ => none
  | limit + 1, c, io =>
    match (step c).perform io with
    | .resume c' io' => runFor step limit c' io'
    | .halt c' v io' => some ⟨v, c', io'⟩

/-- The run from `c` on `io` is over after finitely many instructions, with result `e`. -/
def Ends (step : Step) (c : Config) (io : Streams) (e : Ended) : Prop :=
  ∃ limit, runFor step limit c io = some e

theorem runFor_add {step : Step} {n : Nat} {c : Config} {io : Streams} {e : Ended}
    (h : runFor step n c io = some e) (k : Nat) : runFor step (n + k) c io = some e := by
  induction n generalizing c io with
  | zero => cases h
  | succ n ih =>
    rw [Nat.succ_add, runFor]
    rw [runFor] at h
    split at h
    · exact ih h
    · exact h

theorem Ends.unique {step : Step} {c : Config} {io : Streams} {e e' : Ended}
    (h : Ends step c io e) (h' : Ends step c io e') : e = e' := by
  obtain ⟨n, hn⟩ := h
  obtain ⟨m, hm⟩ := h'
  have h₁ := runFor_add hn m
  rw [Nat.add_comm, runFor_add hm n] at h₁
  exact (Option.some.inj h₁).symm

end TapeMachine
