import TapeMachine.Text.Hidden

namespace TapeMachine.Text

/-- How one character stands between double quotes. -/
abbrev Escape := Char → List Char

def quote (escape : Escape) (s : String) : String :=
  String.ofList ('"' :: s.toList.flatMap escape ++ ['"'])

def dataEscape : Escape
  | '"' => ['\\', '"']
  | '\\' => ['\\', '\\']
  | '\n' => ['\\', 'n']
  | '\r' => ['\\', 'r']
  | '\t' => ['\\', 't']
  | c =>
    if c.toNat = 8 then ['\\', 'b']
    else if c.toNat = 12 then ['\\', 'f']
    else if c.toNat < 32 then
      ['\\', 'u', '0', '0'] ++ (if c.toNat < 16 then ['0'] else []) ++ Nat.toDigits 16 c.toNat
    else [c]

def reportEscape : Escape
  | '"' => ['\\', '"']
  | '\\' => ['\\', '\\']
  | '\n' => ['\\', 'n']
  | '\r' => ['\\', 'r']
  | '\t' => ['\\', 't']
  | c =>
    if c.toNat = 0 then ['\\', '0']
    else if isHidden c then ['\\', 'u', '\x7b'] ++ Nat.toDigits 16 c.toNat ++ ['\x7d']
    else [c]

def quoteData (s : String) : String :=
  quote dataEscape s

def quoteReport (s : String) : String :=
  quote reportEscape s

end TapeMachine.Text
