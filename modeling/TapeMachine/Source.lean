import TapeMachine.Command

namespace TapeMachine

/-- A token and the place it is reported at. -/
structure Located (α : Type) where
  place : Nat
  token : Token α
  deriving DecidableEq, Repr

namespace Source

/-- The commands of a text; all other characters are skipped. -/
def commands (text : String) : List Command :=
  text.toList.filterMap Command.ofChar?

/-- Appends the commands of `cs`, whose first character lies at byte `offset`. -/
def locateOnto (found : Array (Located Basic)) (offset : Nat) : List Char → Array (Located Basic)
  | [] => found
  | c :: cs =>
    let found := match Command.ofChar? c with
      | some k => found.push ⟨offset, k⟩
      | none => found
    locateOnto found (offset + c.utf8Size) cs

/-- The commands of a text with the offsets of their characters in its UTF-8 form. -/
def located (text : String) : List (Located Basic) :=
  (locateOnto #[] 0 text.toList).toList

theorem map_token_locateOnto (cs : List Char) (found : Array (Located Basic)) (offset : Nat) :
    (locateOnto found offset cs).toList.map Located.token =
      found.toList.map Located.token ++ cs.filterMap Command.ofChar? := by
  induction cs generalizing found offset with
  | nil => simp [locateOnto]
  | cons c cs ih =>
    rw [locateOnto, ih]
    cases h : Command.ofChar? c <;> simp [h]

/-- Locating the commands neither loses nor adds one. -/
theorem map_token_located (text : String) : (located text).map Located.token = commands text := by
  simp [located, commands, map_token_locateOnto]

end Source

end TapeMachine
