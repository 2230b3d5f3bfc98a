/-
Labels in their order.

The set of labels a sample ends up with.  It is kept as two columns, the keys
and the values, since the fingerprint and the exporters read them as columns.
A label is added at the end, and a key keeps the row it was given first:
whoever sets a key first keeps it, unless a later writer is told to replace
the value.

The operations are total on any two columns, also on columns of unequal length
or with a repeated key; they then act on the first row of the key and on as
much of the other column as there is.  Starting from `empty` they build only
sets whose columns are equally long and whose keys are distinct.
-/

namespace Scrape

/-- Labels in the order in which their keys were first set. -/
structure Labels where
  keys : List String
  values : List String
deriving DecidableEq, Repr

namespace Labels

/-- The set without labels. -/
def empty : Labels := ⟨[], []⟩

instance : Inhabited Labels := ⟨empty⟩

/-! ## Looking up -/

/-- The first row of a key. -/
def row? (s : Labels) (key : String) : Option Nat :=
  s.keys.findIdx? (· == key)

/-- Whether a key is present. -/
def contains (s : Labels) (key : String) : Bool :=
  (s.row? key).isSome

/-- The value of a key. -/
def get? (s : Labels) (key : String) : Option String :=
  (s.row? key).bind (s.values[·]?)

/-- How many labels the set holds. -/
def size (s : Labels) : Nat := s.keys.length

/-- Whether the set holds no label. -/
def isEmpty (s : Labels) : Bool := s.keys.isEmpty

/-- The labels as pairs, in their order. -/
def toList (s : Labels) : List (String × String) :=
  s.keys.zip s.values

/-! ## Adding -/

/-- Adds a row at the end. -/
def push (s : Labels) (key value : String) : Labels :=
  ⟨s.keys ++ [key], s.values ++ [value]⟩

/-- Adds a label whose key is absent; there is no result when the key is present. -/
def insertNew? (s : Labels) (key value : String) : Option Labels :=
  if s.contains key then none else some (s.push key value)

/-- Adds a label unless its key is present. -/
def insertIfNew (s : Labels) (key value : String) : Labels :=
  (s.insertNew? key value).getD s

/-- Adds a label whose key is absent.  Where the key is present its value is replaced if
`replacing` says so, and otherwise nothing changes. -/
def put (s : Labels) (key value : String) (replacing : Bool) : Labels :=
  match s.row? key with
  | none => s.push key value
  | some i => if replacing then { s with values := s.values.set i value } else s

/-- Adds the labels of a list one after another, skipping those whose key is present. -/
def absorb (s : Labels) (pairs : List (String × String)) : Labels :=
  pairs.foldl (fun s p => s.insertIfNew p.1 p.2) s

/-- The set of a list of pairs.  Of two pairs with one key the earlier counts. -/
def ofList (pairs : List (String × String)) : Labels :=
  empty.absorb pairs

/-! ## What the operations do -/

theorem contains_iff {s : Labels} {key : String} : s.contains key = true ↔ key ∈ s.keys := by
  simp [contains, row?]

theorem insertIfNew_of_mem {s : Labels} {key : String} (value : String) (h : key ∈ s.keys) :
    s.insertIfNew key value = s := by
  simp [insertIfNew, insertNew?, contains_iff.2 h]

theorem insertIfNew_of_not_mem {s : Labels} {key : String} (value : String)
    (h : key ∉ s.keys) : s.insertIfNew key value = s.push key value := by
  simp [insertIfNew, insertNew?, mt contains_iff.1 h]

@[simp] theorem absorb_nil (s : Labels) : s.absorb [] = s := rfl

@[simp] theorem absorb_cons (s : Labels) (p : String × String) (pairs : List (String × String)) :
    s.absorb (p :: pairs) = (s.insertIfNew p.1 p.2).absorb pairs := rfl

/-- Sources absorbed one after another are one source. -/
theorem absorb_append (s : Labels) (pairs more : List (String × String)) :
    s.absorb (pairs ++ more) = (s.absorb pairs).absorb more := by
  simp [absorb]

end Labels

end Scrape
