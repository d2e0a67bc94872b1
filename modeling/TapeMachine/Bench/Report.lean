import TapeMachine.Decimal.Format
import TapeMachine.Text.Quoted
import TapeMachine.Text.Utf8

namespace TapeMachine

structure Sample where
  engine : String
  milliseconds : Float

structure Report where
  title : String
  samples : List Sample

/-- What a report is written to its file as. -/
abbrev Printer := Report → List UInt8

/-- The title and the names of the engines in order can be told from the bytes. -/
structure Printer.Tells (print : Printer) : Prop where
  title : ∀ {r r'}, print r = print r' → r.title = r'.title
  engines : ∀ {r r'}, print r = print r' → r.samples.map Sample.engine = r'.samples.map Sample.engine

namespace Report

/-- Numbers are written out between a hundred-thousandth and ten quadrillions. -/
def number : Decimal.Format where
  writtenFrom := -5
  writtenBelow := 16
  exponentSign := "+"
  notFinite := "null"

def sampleText (s : Sample) : String :=
  "    \x7b\n      \"implementation\": " ++ Text.quoteData s.engine ++ ",\n      \"milliseconds\": " ++
    number.text s.milliseconds.toBits ++ "\n    \x7d"

def moreText : List Sample → String
  | [] => "\n  ]"
  | s :: ss => ",\n" ++ sampleText s ++ moreText ss

def samplesText : List Sample → String
  | [] => "[]"
  | s :: ss => "[\n" ++ sampleText s ++ moreText ss

/-- An indented data file, without a final line break. -/
def text (r : Report) : String :=
  "\x7b\n  \"title\": " ++ Text.quoteData r.title ++ ",\n  \"data\": " ++ samplesText r.samples ++ "\n\x7d"

def print : Printer :=
  fun r => Utf8.encode r.text

end Report

end TapeMachine
