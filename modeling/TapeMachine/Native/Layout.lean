import TapeMachine.Native

namespace TapeMachine

/-- Where emitted code moves the pointer `p` by `n` cells. It computes on addresses, and compares with the end of the
tape that it moves to. -/
def Native.pointer? (start stop : UInt64) (d : Direction) (p n : UInt64) : Option UInt64 :=
  match d with
  | .forward => if stop ≤ p + n then none else some (p + n)
  | .backward => if p - n < start then none else some (p - n)

/-- Where the tape lies in memory. No offset that can be encoded leads from it past either end of the addresses. -/
structure Layout where
  base : Nat
  low : maxOffset ≤ base
  high : base + Tape.size + maxOffset ≤ Nat.pow 2 64

namespace Layout

/-- The tape begins behind the first four gigabytes. -/
def standard : Layout where
  base := Nat.pow 2 32
  low := by decide
  high := by decide

def start (l : Layout) : UInt64 :=
  .ofNat l.base

def stop (l : Layout) : UInt64 :=
  .ofNat (l.base + Tape.size)

def address (l : Layout) (i : Fin 30000) : UInt64 :=
  .ofNat (l.base + i)

/-- The cell at an address, if the address lies on the tape. -/
def cell? (l : Layout) (p : UInt64) : Option (Fin 30000) :=
  if h : l.base ≤ p.toNat ∧ p.toNat - l.base < 30000 then some ⟨p.toNat - l.base, h.2⟩ else none

/-- The pointer `n` cells away from the head, if the comparison lets it pass. -/
def pointer? (l : Layout) (t : Tape) (d : Direction) (n : Nat) : Option UInt64 :=
  Native.pointer? l.start l.stop d (l.address t.head) (.ofNat n)

end Layout

end TapeMachine
