/-
The text exposition of a registry.

Three lines for a metric: its help text, its kind and its value.  A backslash
and a line feed in a help text are written as escapes.  Whatever number a metric
keeps, its value is exposed as a double, and a double that is a whole number as
the digits of its shortest decimal with zeros behind them.
-/
import Scrape.Decimal.Layout
import Scrape.Metrics.Registry

namespace Scrape.Metrics

/-- The name of a kind. -/
def Kind.name : Kind → String
  | counter => "counter"
  | gauge => "gauge"

/-- A character of a help text. -/
def escapeHelp (c : Char) : List Char :=
  match c with
  | '\\' => ['\\', '\\']
  | '\n' => ['\\', 'n']
  | _ => [c]

/-- The text of a natural number as a double. -/
def naturalText (n : Nat) : List Char :=
  if n = 0 then ['0']
  else
    let d := (Magnitude.ofNat n).shortest
    Decimal.natDigits d.digits ++ List.replicate d.exponent.toNat '0'

/-- The text of a value. -/
def valueText (value : Int) : String :=
  let magnitude := naturalText value.natAbs
  String.ofList (if value < 0 then '-' :: magnitude else magnitude)

/-- The lines of a metric with the text of its value. -/
def lines (d : Descriptor) (kind : Kind) (value : String) : String :=
  "# HELP " ++ d.name ++ " " ++ String.ofList (d.help.toList.flatMap escapeHelp) ++ "\n" ++
    "# TYPE " ++ d.name ++ " " ++ kind.name ++ "\n" ++
    d.name ++ " " ++ value ++ "\n"

/-- What is exposed of a metric with its value. -/
def Metric.expose {ι : Type} (m : Metric ι) (value : Int) : String :=
  lines m.descriptor m.kind (valueText value)

/-- The exposition of a registry, given what the sources are worth. -/
def Registry.expose {ι : Type} (r : Registry ι) (value : ι → Int) : String :=
  String.join (r.metrics.map fun m => m.expose (value m.source))

end Scrape.Metrics
