import TapeMachine.Failure
import TapeMachine.Source
import TapeMachine.Tree

namespace TapeMachine.Tree

/-- A loop that is not closed yet, with its preceding siblings in reverse. -/
structure Pending where
  place : Nat
  before : Tree

/-- Reads tokens behind the reversed nodes `done`, inside of the loops `outer`. Of several loops that stay
open the innermost is reported. -/
def buildOnto (done : Tree) (outer : List Pending) : List (Located Op) → Except Unmatched Tree
  | [] =>
    match outer with
    | [] => .ok done.reverse
    | p :: _ => .error ⟨.opening, p.place⟩
  | ⟨_, .op o⟩ :: ts => buildOnto (.op o done) outer ts
  | ⟨i, .opening⟩ :: ts => buildOnto .nil (⟨i, done⟩ :: outer) ts
  | ⟨i, .closing⟩ :: ts =>
    match outer with
    | [] => .error ⟨.closing, i⟩
    | p :: outer => buildOnto (.loop done.reverse p.before) outer ts

/-- The tree of a token list, or its first closing bracket without a partner, or else its last opening one. -/
def ofLocated (ts : List (Located Op)) : Except Unmatched Tree :=
  buildOnto .nil [] ts

/-- The tree of a source text; brackets are reported by byte offset. -/
def ofSource (text : String) : Except Unmatched Tree :=
  ofLocated ((Source.located text).map fun l => ⟨l.place, l.token.map .basic⟩)

end TapeMachine.Tree
