/-
A ledger that is seen from outside.

A ledger has three metrics.  They can be registered each as a collector of its own or all
three as one, and a reader of the registry should not be able to tell which of it was.
Their names begin alike and end differently, so they never stand in each other's way
(`nodup_names_metrics`), and what is to be said of any metrics with distinct names applies
to them (`Metrics.Registry.Agreement`).

A registered metric is no number but a place to read one.  So both ways go on to expose
the same texts whatever becomes of the ledger, those of its stats at the time
(`families`), among those of all other metrics.  They are the stats as doubles: exact up
to `2 ^ 53`, and beyond it as near as doubles are.
-/
import Scrape.Ledger.Exports
import Scrape.Proofs.Ledger.History
import Scrape.Proofs.Metrics.Agreement
import Scrape.Proofs.Metrics.Exposition

namespace Scrape

/-! ## Names of exports -/

namespace Metrics.Descriptor

theorem name_of_create {name help : String} {d : Descriptor} (h : create name help = .ok d) :
    d.name = name := by
  rw [create] at h
  split at h
  · cases h
    rfl
  · exact nomatch h

/-- A full name is its last part behind what comes from the others. -/
theorem exists_fullName_eq_append (space subsystem : String) :
    ∃ start, ∀ name, name ≠ "" → fullName space subsystem name = start ++ name := by
  generalize hparts : [space, subsystem].filter (fun s => !s.isEmpty) = parts
  have hsplit (name : String) (hname : name ≠ "") :
      fullName space subsystem name = "_".intercalate (parts ++ [name]) := by
    have hkeep : [name].filter (fun s => !s.isEmpty) = [name] := by simp [hname]
    have hfilter : [space, subsystem, name].filter (fun s => !s.isEmpty) = parts ++ [name] := by
      rw [← hparts, ← hkeep, ← List.filter_append, hkeep]
      rfl
    rw [fullName, hfilter]
  cases hcases : parts with
  | nil =>
      refine ⟨"", fun name hname => ?_⟩
      rw [hsplit name hname, hcases, List.nil_append, String.intercalate_singleton,
        String.empty_append]
  | cons part parts' =>
      refine ⟨"_".intercalate parts ++ "_", fun name hname => ?_⟩
      have hne : parts ≠ [] := hcases ▸ List.cons_ne_nil _ _
      rw [hsplit name hname, String.intercalate_append_of_ne_nil hne (List.cons_ne_nil _ _),
        String.intercalate_singleton]

end Metrics.Descriptor

namespace Ledger

open Metrics (Metric Registry names ids lines valueText)
open Metrics.Registry (Agreement Attempt CollisionFree Shows Stops reached)

namespace Exports

variable {ι : Type} {e : Exports}

theorem exists_of_bind_eq_ok {α β : Type} {x : Except Metrics.Fault α}
    {f : α → Except Metrics.Fault β} {b : β} (h : x >>= f = .ok b) :
    ∃ a, x = .ok a ∧ f a = .ok b := by
  cases x with
  | error fault => exact nomatch h
  | ok a => exact ⟨a, rfl, h⟩

theorem exists_names_of_create {parts : ExportNames} (h : create parts = .ok e) :
    ∃ start, e.checks.name = start ++ "checks_total" ∧
      e.duplicates.name = start ++ "duplicates_total" ∧
      e.unique.name = start ++ "unique_metrics" := by
  obtain ⟨start, hstart⟩ :=
    Metrics.Descriptor.exists_fullName_eq_append parts.space parts.subsystem
  rw [create] at h
  obtain ⟨checks, hchecks, h⟩ := exists_of_bind_eq_ok h
  obtain ⟨duplicates, hduplicates, h⟩ := exists_of_bind_eq_ok h
  obtain ⟨unique, hunique, h⟩ := exists_of_bind_eq_ok h
  cases h
  refine ⟨start, ?_, ?_, ?_⟩
  · rw [Metrics.Descriptor.name_of_create hchecks, hstart _ (by decide)]
  · rw [Metrics.Descriptor.name_of_create hduplicates, hstart _ (by decide)]
  · rw [Metrics.Descriptor.name_of_create hunique, hstart _ (by decide)]

/-- The three metrics have three names. -/
theorem nodup_names_metrics {parts : ExportNames} (h : create parts = .ok e)
    (source : Reading → ι) : (names (e.metrics source)).Nodup := by
  obtain ⟨start, hchecks, hduplicates, hunique⟩ := exists_names_of_create h
  have hnames : names (e.metrics source) =
      ["checks_total", "duplicates_total", "unique_metrics"].map (start ++ ·) := by
    rw [List.map_cons, List.map_cons, List.map_cons, List.map_nil, ← hchecks, ← hduplicates,
      ← hunique]
    rfl
  rw [hnames]
  refine List.Nodup.map (fun s t hst => ?_) (by decide)
  exact (String.append_right_inj start).mp hst

/-! ## The law of exports -/

/-- The families of a ledger with some stats. -/
def families (e : Exports) (s : Stats) : List String :=
  [lines e.checks .counter (valueText s.checks.toNat),
    lines e.duplicates .counter (valueText s.duplicates.toNat),
    lines e.unique .gauge (valueText s.unique.toInt)]

/-- A source that is worth a reading of a ledger shows what the stats say. -/
theorem map_expose_metrics (e : Exports) (l : Ledger) {source : Reading → ι} {worth : ι → Int}
    (hworth : ∀ x, worth (source x) = l.read x) :
    (e.metrics source).map (fun m => m.expose (worth m.source)) = e.families l.stats := by
  simp only [metrics, families, List.map_cons, List.map_nil, hworth]
  rfl

/-- The families as they are while no number needs more than 53 bits. -/
theorem families_of_le (e : Exports) {l : Ledger} (hchecks : l.checks.toNat ≤ 2 ^ 53)
    (hduplicates : l.duplicates.toNat ≤ 2 ^ 53) (hunique : l.unique.toInt.natAbs ≤ 2 ^ 53) :
    e.families l.stats =
      [lines e.checks .counter (toString l.checks.toNat),
        lines e.duplicates .counter (toString l.duplicates.toNat),
        lines e.unique .gauge (toString l.unique.toInt)] := by
  have hwhole (n : Nat) (h : n ≤ 2 ^ 53) : valueText n = toString n := Metrics.valueText_of_le h
  rw [families, stats, hwhole _ hchecks, hwhole _ hduplicates, Metrics.valueText_of_le hunique]

/-- What it is to register the metrics of a ledger at some registry, one by one and as one
collector. -/
structure ExportLaw (r : Registry ι) (e : Exports) (source : Reading → ι) : Prop where
  /-- Both ways succeed or both fail, and with one fault. -/
  verdict : (r.registerEach (e.metrics source)).1 = (r.register (e.metrics source)).1
  accepted : (r.register (e.metrics source)).1 = .ok () ↔
    ∀ m ∈ e.metrics source, r.refusal? m.descriptor = none
  /-- A metric is refused because its name is taken, or because the name was offered before
  with another help text. -/
  refused : ∀ m ∈ e.metrics source,
    (r.refusal? m.descriptor = some .alreadyRegistered ↔
      m.descriptor.name ∈ names r.metrics) ∧
    ∀ fault, r.refusal? m.descriptor = some fault → fault ≠ .alreadyRegistered →
      fault = .inconsistent m.descriptor ∧ ∃ d : Metrics.Descriptor,
        d.name = m.descriptor.name ∧ d.help ≠ m.descriptor.help ∧
          r.dimensions.lookup m.descriptor.name = some d.dimension
  /-- After a success both ways show the three metrics beside those of before; and whatever
  is asked of the ledger then, both expose the same text, with its stats at the time. -/
  succeeded : (r.register (e.metrics source)).1 = .ok () →
    Shows r (r.register (e.metrics source)).2 (e.metrics source) ∧
    ∀ (l : Ledger) (requests : List Request) (worth : ι → Int),
      (∀ x, worth (source x) = (Request.performAll requests l).2.read x) →
      (r.registerEach (e.metrics source)).2.expose worth =
          (r.register (e.metrics source)).2.expose worth ∧
        ((r.register (e.metrics source)).2.families worth).Perm
          (r.families worth ++ e.families (Request.performAll requests l).2.stats)
  /-- What is exposed of the stats of a ledger is what the ledger has counted, as long as these
  numbers have at most 53 bits. -/
  exact : ∀ l : Ledger, l.checks.toNat ≤ 2 ^ 53 → l.duplicates.toNat ≤ 2 ^ 53 →
    l.unique.toInt.natAbs ≤ 2 ^ 53 →
    e.families l.stats =
      [lines e.checks .counter (toString l.checks.toNat),
        lines e.duplicates .counter (toString l.duplicates.toNat),
        lines e.unique .gauge (toString l.unique.toInt)]
  /-- Otherwise a value is exposed as a whole number that belongs to the nearest double. -/
  rounded : ∀ v : Int, v ≠ 0 → v.natAbs < 2 ^ 64 →
    ∃ (m : Magnitude) (d k : Nat), m.Nearest v.natAbs ∧ m.holds k d = true ∧
      valueText v = toString (v.sign * (d * 10 ^ k : Nat))
  /-- After a failure one collector has changed nothing that is exposed.  One by one, the
  metrics before the one that is refused have been added. -/
  failed : ∀ fault, (r.register (e.metrics source)).1 = .error fault →
    (∀ worth, (r.register (e.metrics source)).2.expose worth = r.expose worth) ∧
    ∃ before m, Stops r (e.metrics source) before m fault ∧
      Shows r (r.registerEach (e.metrics source)).2 before ∧
      ∀ worth, ((r.registerEach (e.metrics source)).2.families worth).Perm
        (r.families worth ++ before.map fun m => m.expose (worth m.source))

/-- The collectors that the metrics of a ledger are, together and one by one. -/
def groups (e : Exports) : List (List Metrics.Descriptor) :=
  [[e.checks, e.duplicates, e.unique], [e.checks], [e.duplicates], [e.unique]]

/-- What shows some metrics more has their families more. -/
theorem perm_families {r r' : Registry ι} {added : List (Metric ι)} (h : Shows r r' added)
    (worth : ι → Int) : (r'.families worth).Perm
      (r.families worth ++ added.map fun m => m.expose (worth m.source)) := by
  rw [Registry.families, Registry.families, ← List.map_append]
  exact h.metrics.map _

end Exports

end Ledger

end Scrape
