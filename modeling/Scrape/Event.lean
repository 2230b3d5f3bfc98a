/-
Events.

What the library has to report beside its results.  A computation that may
report something returns its events with its value, the first event first;
`Logged` is the type of such computations.
-/
import Scrape.Fault

namespace Scrape

/-- How many samples of a scrape met which fate. -/
structure Tally where
  emitted : UInt64 := 0
  duplicates : UInt64 := 0
  failed : UInt64 := 0
deriving DecidableEq, Repr

/-- How much an event matters. -/
inductive Level where
  | debug
  | warn
deriving DecidableEq, Repr

/-- Something to report. -/
inductive Event where
  /-- A sample was seen before in this scrape. -/
  | duplicate (name : String) (fingerprint : UInt64)
  /-- A payload holds no labels. -/
  | payloadIgnored (fault : Fault)
  /-- A sink refused a sample. -/
  | refused (name : String) (fault : Fault)
  /-- A scrape is over. -/
  | finished (tally : Tally)
deriving DecidableEq, Repr

namespace Event

/-- The level of an event: only a refused sample is a warning. -/
def level : Event → Level
  | refused .. => .warn
  | _ => .debug

/-- The wording of an event. -/
def message : Event → String
  | duplicate name fingerprint =>
    "Duplicate metric detected: metric=" ++ name ++
      " signature=" ++ toString fingerprint.toNat
  | payloadIgnored fault => "Ignoring system labels: " ++ fault.message
  | refused name fault => "Error emitting " ++ name ++ ": " ++ fault.message
  | finished t =>
    "Scrape finished: emitted=" ++ toString t.emitted.toNat ++
      " duplicates=" ++ toString t.duplicates.toNat ++
      " failed=" ++ toString t.failed.toNat

end Event

/-- A value and the events on the way to it. -/
structure Logged (α : Type) where
  value : α
  events : List Event
deriving Repr

namespace Logged

/-- The events of both parts, in their order. -/
protected def bind {α β : Type} (x : Logged α) (f : α → Logged β) : Logged β :=
  let y := f x.value
  ⟨y.value, x.events ++ y.events⟩

/-- Another value and the same events. -/
protected def map {α β : Type} (f : α → β) (x : Logged α) : Logged β :=
  ⟨f x.value, x.events⟩

instance : Monad Logged where
  pure a := ⟨a, []⟩
  bind := Logged.bind
  map := Logged.map

/-- Reports one event. -/
def report (e : Event) : Logged Unit := ⟨(), [e]⟩

variable {α β : Type}

@[simp] theorem value_pure (a : α) : (pure a : Logged α).value = a := rfl

@[simp] theorem events_pure (a : α) : (pure a : Logged α).events = [] := rfl

@[simp] theorem value_map (f : α → β) (x : Logged α) : (f <$> x).value = f x.value := rfl

@[simp] theorem events_map (f : α → β) (x : Logged α) : (f <$> x).events = x.events := rfl

@[simp] theorem value_bind (x : Logged α) (f : α → Logged β) :
    (x >>= f).value = (f x.value).value := rfl

@[simp] theorem events_bind (x : Logged α) (f : α → Logged β) :
    (x >>= f).events = x.events ++ (f x.value).events := rfl

theorem bind_assoc {γ : Type} (x : Logged α) (f : α → Logged β) (g : β → Logged γ) :
    x >>= f >>= g = x >>= fun a => f a >>= g := by
  simp only [bind, Logged.bind, List.append_assoc]

@[simp] theorem value_report (e : Event) : (report e).value = () := rfl

@[simp] theorem events_report (e : Event) : (report e).events = [e] := rfl

end Logged

end Scrape
