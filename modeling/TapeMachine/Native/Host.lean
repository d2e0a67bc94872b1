import TapeMachine.Native.Layout

namespace TapeMachine

/-- The byte that compiled code returns. -/
abbrev Status := UInt8

namespace Status

def ok : Status := 0

def outOfBounds : Status := 1

def ioError : Status := 2

end Status

/-- The streams that compiled code calls back to, and a slot for the error of a request that they refuse. -/
structure Callbacks where
  io : Streams
  slot : Option StreamError
  deriving DecidableEq

namespace Callbacks

def read (k : Callbacks) (t : Tape) : Status × Tape × Callbacks :=
  match k.io.read with
  | (.ok b, io) => (Status.ok, t.set b, ⟨io, k.slot⟩)
  | (.error e, io) => (Status.ioError, t, ⟨io, some e⟩)

/-- Writes a byte and flushes it. -/
def write (k : Callbacks) (b : UInt8) : Status × Callbacks :=
  match k.io.write b with
  | (some e, io) => (Status.ioError, ⟨io, some e⟩)
  | (none, io) =>
    match io.flush with
    | (none, io) => (Status.ok, ⟨io, k.slot⟩)
    | (some e, io) => (Status.ioError, ⟨io, some e⟩)

end Callbacks

namespace Native

/-- How compiled code is left: it returns, or it is killed where it touches memory beside the tape. -/
inductive Ending where
  | returned (s : Status)
  | killed
  deriving DecidableEq

inductive Flow where
  | next (c : Config) (k : Callbacks)
  | exit (c : Config) (x : Ending) (k : Callbacks)

def alter (c : Config) (f : Tape → Tape) (k : Callbacks) : Flow :=
  match c with
  | ⟨pc, t⟩ => .next ⟨pc + 1, f t⟩ k

/-- The cell that the pointer is moved to, or how code is left if the comparison does not let it pass. -/
def reach (l : Layout) (t : Tape) (d : Direction) (n : Nat) : Except Ending (Fin 30000) :=
  match l.pointer? t d n with
  | none => .error (.returned Status.outOfBounds)
  | some p =>
    match l.cell? p with
    | some i => .ok i
    | none => .error .killed

/-- An emitted operation on memory and callbacks. Code returns at once with a status that is not zero. -/
def exec (l : Layout) (o : Native) (c : Config) (k : Callbacks) : Flow :=
  match o with
  | move d n =>
    match reach l c.tape d n with
    | .ok i => alter c (fun t => ⟨t.cells, i⟩) k
    | .error x => .exit c x k
  | add b => alter c (fun t => t.set (t.current + b)) k
  | sub b => alter c (fun t => t.set (t.current - b)) k
  | clear => alter c (·.set 0) k
  | read =>
    match c with
    | ⟨pc, t⟩ =>
      let (s, t, k) := k.read t
      if s = 0 then .next ⟨pc + 1, t⟩ k else .exit ⟨pc, t⟩ (.returned s) k
  | write =>
    let (s, k) := k.write c.tape.current
    if s = 0 then .next (c.next c.tape) k else .exit c (.returned s) k
  | scan d n =>
    if c.tape.current = 0 then .next (c.next c.tape) k
    else match reach l c.tape d n with
      | .ok i => .next ⟨c.pc, ⟨c.tape.cells, i⟩⟩ k
      | .error x => .exit c x k
  | transfer d n =>
    if c.tape.current = 0 then .next (c.next c.tape) k
    else match reach l c.tape d n with
      | .ok i => alter c (·.transferTo i) k
      | .error x => .exit c x k
  | halfScan => .next (c.next c.tape) k

/-- Jumps go behind the label that they are linked to. Behind the last instruction code returns. -/
def flow (l : Layout) (code : Code Native) (c : Config) (k : Callbacks) : Flow :=
  match code[c.pc]? with
  | none => .exit c (.returned Status.ok) k
  | some (.op o) => o.exec l c k
  | some (.ifZero d) => .next (if c.tape.current = 0 then ⟨d + 1, c.tape⟩ else c.next c.tape) k
  | some (.ifNonzero d) => .next (if c.tape.current ≠ 0 then ⟨d + 1, c.tape⟩ else c.next c.tape) k

def flowFor (l : Layout) (code : Code Native) : Nat → Config → Callbacks → Option (Config × Ending × Callbacks)
  | 0, _, _ => none
  | limit + 1, c, k =>
    match flow l code c k with
    | .next c' k' => flowFor l code limit c' k'
    | .exit c' x k' => some (c', x, k')

end Native

/-- The verdict on code that was left, and the callbacks with the error of a refusal taken out of its slot. -/
def Callbacks.report (k : Callbacks) : Native.Ending → Verdict × Callbacks
  | .killed => (.crashed, k)
  | .returned s =>
    if s = Status.ok then (.done, k)
    else if s = Status.outOfBounds then (.failed (.outOfBounds none), k)
    else if s = Status.ioError then (.failed (.stream (k.slot.getD .unexplained)), ⟨k.io, none⟩)
    else (.failed (.assembler s!"compiled program returned unknown status {s}"), k)

/-- A tape in memory and callbacks that outlive the code that is run on them. -/
structure Host where
  layout : Layout
  tape : Tape
  callbacks : Callbacks

namespace Host

def start (l : Layout) (io : Streams) : Host where
  layout := l
  tape := .blank
  callbacks := ⟨io, none⟩

def run? (limit : Nat) (code : Code Native) (h : Host) : Option (Verdict × Host) :=
  match Native.flowFor h.layout code limit (.start h.tape) h.callbacks with
  | some (c, x, k) =>
    let (v, k) := k.report x
    some (v, ⟨h.layout, c.tape, k⟩)
  | none => none

end Host

end TapeMachine
