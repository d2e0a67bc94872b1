import TapeMachine.Code.Linker

namespace TapeMachine

/-- An emitted operation; counts of increments are reduced to a byte when they are emitted. -/
inductive Native where
  | move (d : Direction) (n : Nat)
  | add (b : UInt8)
  | sub (b : UInt8)
  | clear
  | read
  | write
  | scan (d : Direction) (n : Nat)
  | transfer (d : Direction) (n : Nat)
  /-- The head of a scan whose move was refused. It jumps to a label that is bound nowhere. -/
  | halfScan
  deriving DecidableEq, Repr, Inhabited

/-- Offsets are encoded as signed 32-bit numbers. -/
def maxOffset : Nat := Nat.pow 2 31 - 1

namespace Native

/-- The operation is whole, and its offset fits. -/
def Encodable : Native → Prop
  | move _ n => n ≤ maxOffset
  | scan _ n => n ≤ maxOffset
  | transfer _ n => n ≤ maxOffset
  | halfScan => False
  | _ => True

def act (o : Native) (c : Config) : Action :=
  match o with
  | move d n => c.moveBy d n (.outOfBounds none)
  | add b => c.update fun t => t.set (t.current + b)
  | sub b => c.update fun t => t.set (t.current - b)
  | clear => c.update (·.set 0)
  | read => c.readByte
  | write => c.writeByte
  | scan d n => c.scanBy d n (.outOfBounds none)
  | transfer d n => c.transferBy d n (.outOfBounds none)
  | halfScan => .resume (c.next c.tape)

def step (code : Code Native) : Step :=
  Code.step act code

end Native

abbrev Emitter := Linker Native

namespace Emitter

/-- What can be asked of an emitter. -/
inductive Request where
  | move (d : Direction) (n : Nat)
  | add (n : Nat)
  | sub (n : Nat)
  | clear
  | read
  | write
  | jumpBegin (position : Nat)
  | jumpEnd (position : Nat)
  | scan (d : Direction) (n : Nat)
  | transfer (d : Direction) (n : Nat)
  deriving DecidableEq, Repr, Inhabited

/-- Why a request is refused, and the emitter that the refusal leaves. -/
structure Refused where
  failure : Failure
  left : Emitter
  deriving DecidableEq, Repr

/-- An operation with an offset of `n` cells. `begun` emits what comes before the offset is looked at. -/
def withOffset (e : Emitter) (n : Nat) (o : Native) (begun : Emitter → Emitter) : Except Refused Emitter :=
  if n ≤ maxOffset then .ok (e.pushOp o) else .error ⟨.offsetTooLarge, begun e⟩

def beginScan (e : Emitter) : Emitter :=
  e.pushOp .halfScan

def emit (e : Emitter) : Request → Except Refused Emitter
  | .move d n => e.withOffset n (.move d n) id
  | .add n => .ok (e.pushOp (.add (UInt8.ofNat n)))
  | .sub n => .ok (e.pushOp (.sub (UInt8.ofNat n)))
  | .clear => .ok (e.pushOp .clear)
  | .read => .ok (e.pushOp .read)
  | .write => .ok (e.pushOp .write)
  | .jumpBegin p => .ok (e.openLoop p)
  | .jumpEnd p =>
    match e.pop with
    | (none, left) => .error ⟨.unmatchedEmitted ⟨.closing, p⟩, left⟩
    | (some o, left) => .ok (left.close o)
  | .scan d n => e.withOffset n (.scan d n) beginScan
  | .transfer d n => e.withOffset n (.transfer d n) id

def after (e : Emitter) (r : Request) : Emitter :=
  match e.emit r with
  | .ok e' => e'
  | .error x => x.left

/-- Makes all requests, whether they are granted or not. -/
def afterAll (e : Emitter) (rs : List Request) : Emitter :=
  rs.foldl after e

/-- Makes requests up to the first that is refused. -/
def emitAll (e : Emitter) : List Request → Except Failure Emitter
  | [] => .ok e
  | r :: rs =>
    match e.emit r with
    | .ok e' => emitAll e' rs
    | .error x => .error x.failure

end Emitter

end TapeMachine
