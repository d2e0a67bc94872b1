namespace TapeMachine.Utf8

/-- A character that has begun: the continuation bytes still owed, the bounds of the next one, and the
bits read so far. -/
structure Partial where
  owed : Nat
  least : UInt8
  greatest : UInt8
  bits : Nat
  deriving DecidableEq, Repr

/-- What a byte at the start of a character announces. -/
inductive Lead where
  | single (c : Char)
  | begins (p : Partial)
  | illFormed
  deriving DecidableEq, Repr

/-- The second byte is bounded so that no character is encoded longer than needed, none is a surrogate and
none lies beyond the last code point. -/
def lead (b : UInt8) : Lead :=
  if b < 0x80 then .single (Char.ofNat b.toNat)
  else if b < 0xC2 then .illFormed
  else if b < 0xE0 then .begins ⟨1, 0x80, 0xBF, b.toNat - 0xC0⟩
  else if b = 0xE0 then .begins ⟨2, 0xA0, 0xBF, 0⟩
  else if b = 0xED then .begins ⟨2, 0x80, 0x9F, 0xD⟩
  else if b < 0xF0 then .begins ⟨2, 0x80, 0xBF, b.toNat - 0xE0⟩
  else if b = 0xF0 then .begins ⟨3, 0x90, 0xBF, 0⟩
  else if b < 0xF4 then .begins ⟨3, 0x80, 0xBF, b.toNat - 0xF0⟩
  else if b = 0xF4 then .begins ⟨3, 0x80, 0x8F, 4⟩
  else .illFormed

def start (done : Array (Option Char)) (b : UInt8) : Array (Option Char) × Option Partial :=
  match lead b with
  | .single c => (done.push (some c), none)
  | .begins p => (done, some p)
  | .illFormed => (done.push none, none)

/-- Takes a byte. One that cannot continue the character begun leaves a gap and starts anew. -/
def take (done : Array (Option Char)) (begun : Option Partial) (b : UInt8) :
    Array (Option Char) × Option Partial :=
  match begun with
  | none => start done b
  | some p =>
    if p.least ≤ b ∧ b ≤ p.greatest then
      let bits := p.bits * 64 + b.toNat % 64
      if p.owed ≤ 1 then (done.push (some (Char.ofNat bits)), none)
      else (done, some ⟨p.owed - 1, 0x80, 0xBF, bits⟩)
    else start (done.push none) b

def decodeOnto (done : Array (Option Char)) (begun : Option Partial) :
    List UInt8 → Array (Option Char)
  | [] => if begun.isSome then done.push none else done
  | b :: bs =>
    let (done, begun) := take done begun b
    decodeOnto done begun bs

/-- The characters of a byte string, `none` for every maximal ill-formed piece. -/
def decode (bs : List UInt8) : List (Option Char) :=
  (decodeOnto #[] none bs).toList

def replacement : Char := '\uFFFD'

/-- The text with a replacement character for every gap. -/
def lossy (bs : List UInt8) : String :=
  String.ofList ((decode bs).map (·.getD replacement))

def strict? (bs : List UInt8) : Option String :=
  let cs := decode bs
  if cs.all Option.isSome then some (String.ofList (cs.filterMap id)) else none

def encode (s : String) : List UInt8 :=
  s.toUTF8.toList

end TapeMachine.Utf8
