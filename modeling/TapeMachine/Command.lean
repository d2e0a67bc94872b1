namespace TapeMachine

inductive Direction where
  | forward
  | backward
  deriving DecidableEq, Repr, Inhabited

namespace Direction

def opposite : Direction → Direction
  | forward => backward
  | backward => forward

end Direction

inductive Bracket where
  | opening
  | closing
  deriving DecidableEq, Repr, Inhabited

def Bracket.toChar : Bracket → Char
  | opening => '['
  | closing => ']'

/-- A command that is no bracket. -/
inductive Basic where
  | move (d : Direction)
  | increment
  | decrement
  | read
  | write
  deriving DecidableEq, Repr, Inhabited

def Basic.toChar : Basic → Char
  | move .forward => '>'
  | move .backward => '<'
  | increment => '+'
  | decrement => '-'
  | read => ','
  | write => '.'

/-- A program over operations of type `α` is a list of these. -/
inductive Token (α : Type) where
  | op (a : α)
  | bracket (b : Bracket)
  deriving DecidableEq, Repr, Inhabited

namespace Token

variable {α β : Type}

@[match_pattern]
abbrev opening : Token α := bracket .opening

@[match_pattern]
abbrev closing : Token α := bracket .closing

def map (f : α → β) : Token α → Token β
  | op a => op (f a)
  | bracket b => bracket b

end Token

/-- A token of a source text. -/
abbrev Command := Token Basic

namespace Command

def toChar : Command → Char
  | .op b => b.toChar
  | .bracket b => b.toChar

/-- Every other character is a comment. -/
def ofChar? : Char → Option Command
  | '>' => some (.op (.move .forward))
  | '<' => some (.op (.move .backward))
  | '+' => some (.op .increment)
  | '-' => some (.op .decrement)
  | ',' => some (.op .read)
  | '.' => some (.op .write)
  | '[' => some .opening
  | ']' => some .closing
  | _ => none

theorem ofChar?_toChar (c : Command) : ofChar? c.toChar = some c := by
  rcases c with b | b
  · rcases b with d | _ | _ | _ | _
    · cases d <;> rfl
    all_goals rfl
  · cases b <;> rfl

theorem toChar_of_ofChar? {x : Char} {c : Command} (h : ofChar? x = some c) : c.toChar = x := by
  unfold ofChar? at h
  split at h <;> first | (cases Option.some.inj h; rfl) | cases h

end Command

end TapeMachine
