/-
Two ways of registration that agree.

Metrics with distinct names can be registered each as its own collector or all as one.
Where no hashes collide, both ways come to the first metric that the registry refuses, and
end with its fault, or find none and then hold the same metrics (`Agreement`).  What they
leave behind differs only after a fault: one by one, the metrics before the refused one are
registered by then, and as one collector none is.

What is registered is exposed in the order of the names, so a new family stands between
others and not behind them; those that were there keep their order (`Shows`).
-/
import Scrape.Proofs.Metrics.Registration

namespace Scrape.Metrics

variable {ι : Type}

/-! ## Metrics in the order of their names -/

/-- The order of names, as an order of metrics. -/
def nameLe (a b : Metric ι) : Bool :=
  Utf8.le a.descriptor.name b.descriptor.name

theorem nameLe_trans (a b c : Metric ι) (h : nameLe a b = true) (h' : nameLe b c = true) :
    nameLe a c = true :=
  Utf8.le_trans h h'

theorem nameLe_total (a b : Metric ι) : (nameLe a b || nameLe b a) = true :=
  Utf8.le_total a.descriptor.name b.descriptor.name

/-- Metrics sorted by their names. -/
def byName (ms : List (Metric ι)) : List (Metric ι) :=
  ms.mergeSort nameLe

theorem byName_perm (ms : List (Metric ι)) : (byName ms).Perm ms :=
  List.mergeSort_perm _ _

theorem byName_pairwise (ms : List (Metric ι)) :
    (byName ms).Pairwise fun a b => nameLe a b = true :=
  List.pairwise_mergeSort nameLe_trans nameLe_total ms

/-- Metrics with distinct names have one order. -/
theorem byName_eq_of_perm {ms ms' : List (Metric ι)} (hn : (names ms).Nodup) (h : ms.Perm ms') :
    byName ms = byName ms' := by
  have hperm : (byName ms).Perm (byName ms') :=
    (byName_perm ms).trans (h.trans (byName_perm ms').symm)
  refine hperm.eq_of_pairwise ?_ (byName_pairwise ms) (byName_pairwise ms')
  intro a b ha hb hle hge
  have ha' : a ∈ ms := (byName_perm ms).mem_iff.mp ha
  have hb' : b ∈ ms := h.mem_iff.mpr ((byName_perm ms').mem_iff.mp hb)
  exact List.inj_on_of_nodup_map hn ha' hb' (Utf8.le_antisymm hle hge)

/-- More metrics go between those that are there. -/
theorem byName_sublist {ms more : List (Metric ι)} (hn : (names (ms ++ more)).Nodup) :
    (byName ms).Sublist (byName (ms ++ more)) := by
  rw [byName_eq_of_perm hn ((byName_perm ms).symm.append_right more)]
  exact List.sublist_mergeSort nameLe_trans nameLe_total (byName_pairwise ms)
    (List.sublist_append_left _ _)

theorem byName_ascending {ms : List (Metric ι)} (hn : (names ms).Nodup) :
    (names (byName ms)).Pairwise Utf8.lt := by
  have hsorted : (names (byName ms)).Nodup := ((byName_perm ms).map _).nodup_iff.mpr hn
  rw [names, List.Nodup, List.pairwise_map] at hsorted
  rw [names, List.pairwise_map]
  refine (hsorted.and (byName_pairwise ms)).imp fun {a b} h => ?_
  refine Decidable.byContradiction fun hlt => ?_
  -- of two different names that do not ascend the second comes first
  have hge := Utf8.lt_of_not_lt hlt h.1
  rw [nameLe, Utf8.le, decide_eq_true hge] at h
  exact absurd h.2 Bool.false_ne_true

namespace Registry

variable {r r' : Registry ι} {ms : List (Metric ι)}

/-- The families of a registry, given what the sources are worth: a text for each metric.  The
exposition is these texts, joined. -/
def families (r : Registry ι) (worth : ι → Int) : List String :=
  r.metrics.map fun m => m.expose (worth m.source)

/-- The second registry exposes what the first one does, and some metrics more. -/
structure Shows (r r' : Registry ι) (added : List (Metric ι)) : Prop where
  metrics : r'.metrics.Perm (r.metrics ++ added)
  /-- What is exposed already stays in its order. -/
  kept : r.metrics.Sublist r'.metrics
  /-- Names ascend, so no name has two families. -/
  ascending : (names r'.metrics).Pairwise Utf8.lt

theorem Sound.shows {added : List (Metric ι)} (h : r'.Sound)
    (heq : r'.registered = r.registered ++ added) : Shows r r' added := by
  have hn : (names (r.registered ++ added)).Nodup := heq ▸ nodup_names h.nodup
  have hmetrics : r'.metrics = byName (r.registered ++ added) := congrArg byName heq
  constructor
  case metrics =>
    rw [hmetrics]
    exact (byName_perm _).trans ((byName_perm r.registered).symm.append_right added)
  case kept =>
    rw [hmetrics]
    exact byName_sublist hn
  case ascending =>
    rw [hmetrics]
    exact byName_ascending hn

/-- What the two ways of registration have in common, and what they leave behind. -/
structure Agreement (r : Registry ι) (ms : List (Metric ι)) : Prop where
  /-- Both succeed, or both end with one fault. -/
  verdict : (r.registerEach ms).1 = (r.register ms).1
  /-- They succeed exactly when the registry refuses none of the metrics. -/
  accepted : (r.register ms).1 = .ok () ↔ ∀ m ∈ ms, r.refusal? m.descriptor = none
  /-- Then they hold the same metrics, those of before and the new ones. -/
  succeeded : (r.register ms).1 = .ok () →
    (r.registerEach ms).2.metrics = (r.register ms).2.metrics ∧ Shows r (r.register ms).2 ms
  /-- Else the fault is that of the first metric that is refused.  As one collector nothing
  has been registered, and one by one what comes before that metric. -/
  failed : ∀ fault, (r.register ms).1 = .error fault → ∃ before m,
    r.Stops ms before m fault ∧ (r.register ms).2.metrics = r.metrics ∧
      Shows r (r.registerEach ms).2 before

theorem Sound.agreement (h : r.Sound) (hne : ms ≠ []) (hids : (ids ms).Nodup)
    (hfree : CollisionFree
      (r.groups ++ (ms.map (·.descriptor) :: ms.map fun m => [m.descriptor]))) :
    Agreement r ms := by
  have hone : CollisionFree (r.groups ++ [ms.map (·.descriptor)]) :=
    hfree.append_mono (List.cons_subset.mpr ⟨List.mem_cons_self, List.nil_subset _⟩)
  have heach : CollisionFree (r.groups ++ ms.map fun m => [m.descriptor]) :=
    hfree.append_mono (List.subset_cons_self _ _)
  have hsoundOne := h.register ms
  have hsoundEach := h.registerEach ms
  obtain hnew | ⟨before, m, fault, hstops⟩ := r.accepted_or_stops ms
  · have hregister := register_of_accepted h hne hids hone hnew
    have hregisterEach := registerEach_of_accepted h hids heach hnew
    rw [hregister] at hsoundOne
    constructor
    case verdict => rw [hregister, hregisterEach]
    case accepted => exact iff_of_true (by rw [hregister]) hnew
    case succeeded =>
      intro _
      rw [hregister, hregisterEach]
      refine ⟨congrArg byName ?_, hsoundOne.shows (registered_add r ms)⟩
      exact (registered_foldl_add r ms).trans (registered_add r ms).symm
    case failed =>
      intro fault hfault
      rw [hregister] at hfault
      exact nomatch hfault
  · have hregister := register_of_stops hids hstops
    have hregisterEach := registerEach_of_stops h hids heach hstops
    rw [hregisterEach] at hsoundEach
    constructor
    case verdict => rw [hregister, hregisterEach]
    case accepted =>
      refine iff_of_false (by rw [hregister]; exact nofun) fun hnew => ?_
      obtain ⟨⟨after, rfl⟩, -, hm⟩ := hstops
      rw [hnew m (List.mem_append_right _ List.mem_cons_self)] at hm
      exact nomatch hm
    case succeeded =>
      intro hok
      rw [hregister] at hok
      exact nomatch hok
    case failed =>
      intro fault' hfault
      rw [hregister] at hfault
      cases hfault
      rw [hregister, hregisterEach]
      refine ⟨before, m, hstops, congrArg byName (registered_foldl_remember r before), ?_⟩
      exact hsoundEach.shows (registered_foldl_add r before)

/-! ## Why a metric is refused -/

/-- A metric is refused because its name is taken, or because the name was offered before
with another help text. -/
theorem Sound.refusal (h : r.Sound) {gs : List (List Descriptor)}
    (hfree : CollisionFree (r.groups ++ gs)) {d : Descriptor} (hd : d ∈ gs.flatten) :
    (r.refusal? d = some .alreadyRegistered ↔ d.name ∈ names r.metrics) ∧
      ∀ fault, r.refusal? d = some fault → fault ≠ .alreadyRegistered →
        fault = .inconsistent d ∧ ∃ d' : Descriptor, d'.name = d.name ∧ d'.help ≠ d.help ∧
          r.dimensions.lookup d.name = some d'.dimension := by
  have hnames : d.name ∈ names r.metrics ↔ d.id ∈ r.taken := by
    rw [h.mem_taken_iff hfree hd]
    exact ((byName_perm r.registered).map _).mem_iff
  rw [hnames, refusal?]
  by_cases htaken : d.id ∈ r.taken
  · rw [if_pos htaken]
    refine ⟨iff_of_true rfl htaken, ?_⟩
    rintro fault ⟨⟩ hne
    exact absurd rfl hne
  · rw [if_neg htaken]
    split
    next hdimension =>
      refine ⟨iff_of_false (fun h => by cases h) htaken, ?_⟩
      rintro fault ⟨⟩ -
      obtain ⟨dimension, hlookup, hne⟩ := (Option.any_eq_true _ _).mp hdimension
      obtain ⟨_, _, hmem, -⟩ := List.lookup_eq_some_iff.mp hlookup
      obtain ⟨d', hd'⟩ := h.remembered (d.name, dimension)
        (hmem ▸ List.mem_append_right _ List.mem_cons_self)
      obtain ⟨hname, rfl⟩ := Prod.mk.inj hd'
      refine ⟨rfl, d', hname.symm, fun hhelp => ?_, hlookup⟩
      exact bne_iff_ne.mp hne (congrArg Descriptor.textHash hhelp)
    next =>
      refine ⟨iff_of_false (fun h => by cases h) htaken, ?_⟩
      rintro fault ⟨⟩

end Registry

end Scrape.Metrics
