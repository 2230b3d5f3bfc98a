/-
Descriptors of exported metrics.

A descriptor is the full name of a metric and its help text.  None of the
metrics here has labels of its own, so a registry identifies a metric by a hash
of its name, and tells whether two metrics of one name agree by a hash of the
help text.
-/
import Scrape.Fnv
import Scrape.Utf8

namespace Scrape.Metrics

/-- The name of a metric and what it says of itself. -/
structure Descriptor where
  name : String
  help : String
deriving DecidableEq, Repr

/-- What can be wrong with a metric, or with its registration. -/
inductive Fault where
  /-- The name is no metric name. -/
  | invalidName (name : String)
  /-- The metric, or a collector of the same metrics, is registered already. -/
  | alreadyRegistered
  /-- The name was registered with another help text. -/
  | inconsistent (d : Descriptor)
  /-- A collector has the name twice. -/
  | repeated (d : Descriptor)
deriving DecidableEq, Repr

namespace Descriptor

/-- Whether a character may begin a metric name. -/
def isNameStart (c : Char) : Bool :=
  c.isAlpha || c == '_' || c == ':'

/-- Whether a text is a metric name: ASCII letters, digits, underscores and colons, without a digit
at the beginning. -/
def isName (s : String) : Bool :=
  match s.toList with
  | [] => false
  | c :: cs => isNameStart c && cs.all fun c => isNameStart c || c.isDigit

/-- The full name: the parts that are not empty, joined by underscores. -/
def fullName (space subsystem name : String) : String :=
  "_".intercalate ([space, subsystem, name].filter fun s => !s.isEmpty)

/-- The descriptor of a name and a help text. -/
def create (name help : String) : Except Fault Descriptor :=
  if isName name then .ok ⟨name, help⟩ else .error (.invalidName name)

/-- The hash of a text that ends with a separator. -/
def textHash (s : String) : UInt64 :=
  Fnv.step (Fnv.fold Fnv.offsetBasis (Utf8.encode s)) Fnv.separator

/-- What identifies the metric. -/
def id (d : Descriptor) : UInt64 := textHash d.name

/-- What metrics of one name must agree on. -/
def dimension (d : Descriptor) : UInt64 := textHash d.help

/-- A descriptor in full, as registration faults quote it. -/
def quoted (d : Descriptor) : String :=
  "Desc \x7b fq_name: \"" ++ d.name ++ "\", help: \"" ++ d.help ++
    "\", const_label_pairs: [], variable_labels: [], id: " ++ toString d.id.toNat ++
    ", dim_hash: " ++ toString d.dimension.toNat ++ " \x7d"

end Descriptor

/-- The wording of a fault. -/
def Fault.message : Fault → String
  | invalidName name => "Error: '" ++ name ++ "' is not a valid metric name"
  | alreadyRegistered => "Duplicate metrics collector registration attempted"
  | inconsistent d =>
    "Error: a previously registered descriptor with the same fully-qualified name as " ++
      d.quoted ++ " has different label names or a different help string"
  | repeated d =>
    "Error: a duplicate descriptor within the same collector the same fully-qualified name: \"" ++
      d.name ++ "\""

end Scrape.Metrics
