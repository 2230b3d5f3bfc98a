/-
How metrics get into a registry.

Metrics can be registered one after another, each as a collector of its own, or all
together as one collector.  The first way leaves behind what it has done when a metric is
refused (`registerEach_of_stops`); the second looks at all metrics before it adds one
(`register_of_stops`).  What a registry remembers of the names that it has looked at
survives either failure, but a registry is sound whatever was tried on it
(`reached_sound`).

A registry does not compare names.  It compares hashes of names, and it keeps collectors
under the sum of those hashes, and both ways depend on hashes that differ where names do:
a sum that is taken by chance is refused, and it is one sum or another that each of the
two ways asks for.  `CollisionFree` says that there is no such chance among the collectors
that are registered and those that are to be.
-/
import Mathlib.Data.List.Perm.Basic
import Scrape.Metrics.Exposition
import Scrape.Proofs.Labels

namespace Scrape.Metrics

variable {ι : Type}

/-! ## What a registry holds -/

/-- The identities of metrics. -/
def ids (ms : List (Metric ι)) : List UInt64 :=
  ms.map (·.descriptor.id)

/-- The names of metrics. -/
def names (ms : List (Metric ι)) : List String :=
  ms.map (·.descriptor.name)

theorem nodup_ids_cons {m : Metric ι} {ms : List (Metric ι)} :
    (ids (m :: ms)).Nodup ↔
      (∀ n ∈ ms, n.descriptor.id ≠ m.descriptor.id) ∧ (ids ms).Nodup := by
  rw [ids, List.map_cons, List.nodup_cons, List.mem_map, not_exists]
  refine and_congr_left' (forall_congr' fun n => ?_)
  rw [not_and]

theorem reverse_ids_cons_append (m : Metric ι) (ms : List (Metric ι)) (seen : List UInt64) :
    (ids (m :: ms)).reverse ++ seen = (ids ms).reverse ++ m.descriptor.id :: seen := by
  rw [ids, List.map_cons, List.reverse_cons, List.append_assoc, List.singleton_append, ids]

theorem id_eq_of_name_eq {d d' : Descriptor} (h : d.name = d'.name) : d.id = d'.id :=
  congrArg Descriptor.textHash h

theorem nodup_names {ms : List (Metric ι)} (h : (ids ms).Nodup) : (names ms).Nodup := by
  rw [ids, List.Nodup, List.pairwise_map] at h
  rw [names, List.Nodup, List.pairwise_map]
  exact h.imp fun hne heq => hne (id_eq_of_name_eq heq)

/-- Identities are distinct where they tell names and the names are distinct. -/
theorem nodup_ids {ms : List (Metric ι)} (h : (names ms).Nodup)
    (hfree : ∀ m ∈ ms, ∀ n ∈ ms, m.descriptor.id = n.descriptor.id →
      m.descriptor.name = n.descriptor.name) : (ids ms).Nodup := by
  rw [names, List.Nodup, List.pairwise_map] at h
  rw [ids, List.Nodup, List.pairwise_map]
  exact h.imp_of_mem fun hm hn hne heq => hne (hfree _ hm _ hn heq)

namespace Registry

variable {r : Registry ι} {ms before : List (Metric ι)} {m : Metric ι} {d : Descriptor}
  {fault : Fault} {seen : List UInt64}

/-- The metrics that are registered, in the order of their registration. -/
def registered (r : Registry ι) : List (Metric ι) :=
  r.collectors.flatMap (·.2)

/-- The descriptors of the registered collectors. -/
def groups (r : Registry ι) : List (List Descriptor) :=
  r.collectors.map fun c => c.2.map (·.descriptor)

/-- What holds of a registry, however metrics were registered. -/
structure Sound (r : Registry ι) : Prop where
  taken : r.taken.Perm (ids r.registered)
  nodup : (ids r.registered).Nodup
  identified : ∀ c ∈ r.collectors, c.1 = identity (ids c.2)
  remembered : ∀ p ∈ r.dimensions, ∃ d : Descriptor, p = (d.name, d.dimension)

theorem identity_perm {ids ids' : List UInt64} (h : ids.Perm ids') :
    identity ids = identity ids' :=
  h.foldl_op_eq

theorem Sound.mem_taken_of_name (h : r.Sound) (hd : d.name ∈ names r.registered) :
    d.id ∈ r.taken := by
  obtain ⟨m, hm, hname⟩ := List.mem_map.mp hd
  rw [h.taken.mem_iff, ← id_eq_of_name_eq hname]
  exact List.mem_map_of_mem hm

/-! ## Looking at a metric -/

/-- Why a registry does not take a descriptor. -/
def refusal? (r : Registry ι) (d : Descriptor) : Option Fault :=
  if d.id ∈ r.taken then some .alreadyRegistered
  else if (r.dimensions.lookup d.name).any (· != d.dimension) then some (.inconsistent d)
  else none

/-- The registry after it has looked at a metric that it does not refuse. -/
def remember (r : Registry ι) (m : Metric ι) : Registry ι :=
  { r with dimensions := (m.descriptor.name, m.descriptor.dimension) :: r.dimensions }

theorem not_mem_taken (h : r.refusal? d = none) : d.id ∉ r.taken := by
  intro hmem
  rw [refusal?, if_pos hmem] at h
  exact nomatch h

/-- Another name is no reason to refuse. -/
theorem refusal?_congr {r' : Registry ι} (htaken : d.id ∈ r'.taken ↔ d.id ∈ r.taken)
    (hlookup : r'.dimensions.lookup d.name = r.dimensions.lookup d.name) :
    r'.refusal? d = r.refusal? d := by
  rw [refusal?, refusal?, hlookup]
  simp only [htaken]

theorem lookup_remember (hne : d.id ≠ m.descriptor.id) :
    (r.remember m).dimensions.lookup d.name = r.dimensions.lookup d.name := by
  have hname : (d.name == m.descriptor.name) = false :=
    beq_eq_false_iff_ne.mpr fun heq => hne (id_eq_of_name_eq heq)
  rw [remember, List.lookup_cons, hname]

theorem refusal?_remember (hne : d.id ≠ m.descriptor.id) :
    (r.remember m).refusal? d = r.refusal? d :=
  refusal?_congr Iff.rfl (lookup_remember hne)

theorem examine_cons (seen : List UInt64) (m : Metric ι) (ms : List (Metric ι))
    (r : Registry ι) :
    r.examine seen (m :: ms) =
      match r.refusal? m.descriptor with
      | some fault => (.error fault, r)
      | none =>
        if m.descriptor.id ∈ seen then (.error (.repeated m.descriptor), r.remember m)
        else (r.remember m).examine (m.descriptor.id :: seen) ms := by
  rw [examine, refusal?]
  split
  · rfl
  · split
    · rfl
    · rfl

/-- A list of metrics is taken as a whole, or there is a first one that is not. -/
structure Stops (r : Registry ι) (ms before : List (Metric ι)) (m : Metric ι)
    (fault : Fault) : Prop where
  split : ∃ after, ms = before ++ m :: after
  accepted : ∀ n ∈ before, r.refusal? n.descriptor = none
  refused : r.refusal? m.descriptor = some fault

theorem accepted_or_stops (r : Registry ι) (ms : List (Metric ι)) :
    (∀ m ∈ ms, r.refusal? m.descriptor = none) ∨
      ∃ before m fault, r.Stops ms before m fault := by
  induction ms with
  | nil => exact .inl (List.forall_mem_nil _)
  | cons m ms ih =>
      cases hm : r.refusal? m.descriptor with
      | some fault => exact .inr ⟨[], m, fault, ⟨ms, rfl⟩, List.forall_mem_nil _, hm⟩
      | none =>
          obtain h | ⟨before, n, fault, ⟨after, rfl⟩, hbefore, hn⟩ := ih
          · exact .inl (List.forall_mem_cons.mpr ⟨hm, h⟩)
          · exact .inr ⟨m :: before, n, fault, ⟨after, rfl⟩,
              List.forall_mem_cons.mpr ⟨hm, hbefore⟩, hn⟩

/-! ## Looking at the metrics of a collector -/

theorem taken_foldl_remember (r : Registry ι) (ms : List (Metric ι)) :
    (ms.foldl remember r).taken = r.taken := by
  induction ms generalizing r with
  | nil => rfl
  | cons m ms ih => exact ih (r.remember m)

theorem collectors_foldl_remember (r : Registry ι) (ms : List (Metric ι)) :
    (ms.foldl remember r).collectors = r.collectors := by
  induction ms generalizing r with
  | nil => rfl
  | cons m ms ih => exact ih (r.remember m)

theorem Sound.remember (h : r.Sound) (m : Metric ι) : (r.remember m).Sound :=
  ⟨h.taken, h.nodup, h.identified,
    List.forall_mem_cons.mpr ⟨⟨m.descriptor, rfl⟩, h.remembered⟩⟩

theorem Sound.foldl_remember (h : r.Sound) (ms : List (Metric ι)) :
    (ms.foldl Registry.remember r).Sound := by
  induction ms generalizing r with
  | nil => exact h
  | cons m ms ih => exact ih (h.remember m)

/-- Whatever the metrics of a collector, a registry that has looked at them remembers some,
and if it refuses none then their identities are new and distinct. -/
theorem examine_cases (seen : List UInt64) (ms : List (Metric ι)) (r : Registry ι) :
    (∃ looked : List (Metric ι), (r.examine seen ms).2 = looked.foldl remember r) ∧
    ∀ found, (r.examine seen ms).1 = .ok found →
      found = (ids ms).reverse ++ seen ∧ (∀ m ∈ ms, m.descriptor.id ∉ r.taken) ∧
        (seen.Nodup → found.Nodup) := by
  induction ms generalizing seen r with
  | nil =>
      refine ⟨⟨[], rfl⟩, ?_⟩
      rintro found ⟨⟩
      exact ⟨rfl, List.forall_mem_nil _, id⟩
  | cons m ms ih =>
      rw [examine_cons]
      cases hm : r.refusal? m.descriptor with
      | some fault => exact ⟨⟨[], rfl⟩, fun _ h => nomatch h⟩
      | none =>
          simp only
          split
          · exact ⟨⟨[m], rfl⟩, fun _ h => nomatch h⟩
          · next hseen =>
              obtain ⟨⟨looked, hlooked⟩, hok⟩ := ih (m.descriptor.id :: seen) (r.remember m)
              refine ⟨⟨m :: looked, hlooked⟩, fun found hfound => ?_⟩
              obtain ⟨heq, hnew, hnodup⟩ := hok found hfound
              refine ⟨?_, List.forall_mem_cons.mpr ⟨not_mem_taken hm, hnew⟩, fun h => ?_⟩
              · rw [heq, reverse_ids_cons_append]
              · exact hnodup (List.nodup_cons.mpr ⟨hseen, h⟩)

theorem examine_of_accepted (hids : (ids ms).Nodup) (hseen : ∀ m ∈ ms, m.descriptor.id ∉ seen)
    (hnew : ∀ m ∈ ms, r.refusal? m.descriptor = none) :
    r.examine seen ms = (.ok ((ids ms).reverse ++ seen), ms.foldl remember r) := by
  induction ms generalizing seen r with
  | nil => rfl
  | cons m ms ih =>
      obtain ⟨hne, hids⟩ := nodup_ids_cons.mp hids
      obtain ⟨hseen_m, hseen⟩ := List.forall_mem_cons.mp hseen
      obtain ⟨hnew_m, hnew⟩ := List.forall_mem_cons.mp hnew
      have hrest : (r.remember m).examine (m.descriptor.id :: seen) ms = _ := ih hids
        (fun n hn hmem => (List.mem_cons.mp hmem).elim (hne n hn) (hseen n hn))
        (fun n hn => (refusal?_remember (hne n hn)).trans (hnew n hn))
      rw [examine_cons, hnew_m]
      simp only
      rw [if_neg hseen_m, hrest, reverse_ids_cons_append]
      rfl

theorem examine_of_stops (hids : (ids ms).Nodup) (hseen : ∀ m ∈ ms, m.descriptor.id ∉ seen)
    (h : r.Stops ms before m fault) :
    r.examine seen ms = (.error fault, before.foldl remember r) := by
  obtain ⟨⟨after, rfl⟩, hbefore, hm⟩ := h
  induction before generalizing seen r with
  | nil =>
      rw [List.nil_append, examine_cons, hm]
      rfl
  | cons n before ih =>
      obtain ⟨hne, hids⟩ := nodup_ids_cons.mp hids
      obtain ⟨hseen_n, hseen⟩ := List.forall_mem_cons.mp hseen
      obtain ⟨hbefore_n, hbefore⟩ := List.forall_mem_cons.mp hbefore
      have hrest : (r.remember n).examine (n.descriptor.id :: seen) (before ++ m :: after) = _ := ih
        (fun k hk =>
          (refusal?_remember (hne k (List.mem_append_left _ hk))).trans (hbefore k hk))
        ((refusal?_remember (hne m (List.mem_append_right _ List.mem_cons_self))).trans hm)
        hids (fun k hk hmem => (List.mem_cons.mp hmem).elim (hne k hk) (hseen k hk))
      rw [List.cons_append, examine_cons, hbefore_n]
      simp only
      rw [if_neg hseen_n, hrest]
      rfl

/-! ## Registering -/

/-- The registry with one more collector. -/
def add (r : Registry ι) (ms : List (Metric ι)) : Registry ι :=
  { ms.foldl remember r with
    taken := (ids ms).reverse ++ r.taken
    collectors := r.collectors ++ [(identity (ids ms).reverse, ms)] }

theorem registered_add (r : Registry ι) (ms : List (Metric ι)) :
    (r.add ms).registered = r.registered ++ ms := by
  rw [registered, add, List.flatMap_append, List.flatMap_singleton]
  rfl

theorem registered_foldl_add (r : Registry ι) (ms : List (Metric ι)) :
    (ms.foldl (fun r m => r.add [m]) r).registered = r.registered ++ ms := by
  induction ms generalizing r with
  | nil => exact (List.append_nil _).symm
  | cons m ms ih => rw [List.foldl_cons, ih, registered_add, List.append_assoc]; rfl

theorem registered_foldl_remember (r : Registry ι) (ms : List (Metric ι)) :
    (ms.foldl remember r).registered = r.registered :=
  congrArg (fun collectors => collectors.flatMap (·.2)) (collectors_foldl_remember r ms)

theorem groups_add (r : Registry ι) (ms : List (Metric ι)) :
    (r.add ms).groups = r.groups ++ [ms.map (·.descriptor)] :=
  List.map_append

theorem refusal?_add (hne : d.id ≠ m.descriptor.id) :
    (r.add [m]).refusal? d = r.refusal? d := by
  refine refusal?_congr ?_ (lookup_remember hne)
  exact List.mem_cons.trans (or_iff_right hne)

theorem Sound.add (h : r.Sound) (hids : (ids ms).Nodup)
    (hnew : ∀ m ∈ ms, m.descriptor.id ∉ r.taken) : (r.add ms).Sound where
  taken := by
    rw [registered_add, ids, List.map_append]
    exact ((List.reverse_perm _).append h.taken).trans List.perm_append_comm
  nodup := by
    rw [registered_add, ids, List.map_append]
    refine List.nodup_append.mpr ⟨h.nodup, hids, ?_⟩
    rintro i hi _ hi' rfl
    obtain ⟨m, hm, rfl⟩ := List.mem_map.mp hi'
    exact hnew m hm (h.taken.mem_iff.mpr hi)
  identified := by
    refine List.forall_mem_append.mpr ⟨h.identified, List.forall_mem_singleton.mpr ?_⟩
    exact identity_perm (List.reverse_perm _)
  remembered := (h.foldl_remember ms).remembered

/-- Registering keeps a registry sound, whatever is registered. -/
theorem Sound.register (h : r.Sound) (ms : List (Metric ι)) : (r.register ms).2.Sound := by
  obtain ⟨⟨looked, hlooked⟩, hok⟩ := examine_cases [] ms r
  rw [Registry.register]
  split
  next fault r' hexamine =>
    rw [hexamine] at hlooked
    exact hlooked ▸ h.foldl_remember looked
  next found r' hexamine =>
    rw [hexamine] at hlooked hok
    obtain ⟨hfound, hnew, hnodup⟩ := hok found rfl
    rw [List.append_nil] at hfound
    have hids : (ids ms).Nodup := List.nodup_reverse.mp (hfound ▸ hnodup List.nodup_nil)
    split
    · exact hlooked ▸ h.foldl_remember looked
    · have hadd := h.add hids hnew
      rw [show r' = looked.foldl Registry.remember r from hlooked, hfound]
      refine ⟨?_, ?_, ?_, (h.foldl_remember looked).remembered⟩
      · rw [taken_foldl_remember, collectors_foldl_remember]
        exact hadd.taken
      · rw [collectors_foldl_remember]
        exact hadd.nodup
      · rw [collectors_foldl_remember]
        exact hadd.identified

theorem Sound.registerEach (h : r.Sound) (ms : List (Metric ι)) :
    (r.registerEach ms).2.Sound := by
  induction ms generalizing r with
  | nil => exact h
  | cons m ms ih =>
      rw [Registry.registerEach]
      split
      next r' hm =>
        have hsound := h.register [m]
        rw [hm] at hsound
        exact ih hsound
      next fault r' hm =>
        have hsound := h.register [m]
        rwa [hm] at hsound

/-! ## Reachable registries -/

/-- Something that is done to a registry: metrics are registered as one collector, or each
as its own. -/
inductive Attempt (ι : Type) where
  | group (ms : List (Metric ι))
  | each (ms : List (Metric ι))

def Attempt.perform (r : Registry ι) : Attempt ι → Registry ι
  | .group ms => (r.register ms).2
  | .each ms => (r.registerEach ms).2

/-- A new registry after some attempts, which may have failed. -/
def reached (attempts : List (Attempt ι)) : Registry ι :=
  attempts.foldl Attempt.perform empty

theorem empty_sound : (empty : Registry ι).Sound :=
  ⟨.refl _, List.nodup_nil, List.forall_mem_nil _, List.forall_mem_nil _⟩

theorem reached_sound (attempts : List (Attempt ι)) : (reached attempts).Sound := by
  suffices h : ∀ r : Registry ι, r.Sound → (attempts.foldl Attempt.perform r).Sound from
    h empty empty_sound
  induction attempts with
  | nil => exact fun _ h => h
  | cons a attempts ih =>
      intro r h
      refine ih _ ?_
      cases a with
      | group ms => exact h.register ms
      | each ms => exact h.registerEach ms

/-! ## Without collisions -/

/-- Among some collectors, given by their descriptors, names are told by their identities,
and the names of a collector by the sum of those. -/
structure CollisionFree (groups : List (List Descriptor)) : Prop where
  descriptor : ∀ d ∈ groups.flatten, ∀ d' ∈ groups.flatten, d.id = d'.id → d.name = d'.name
  collector : ∀ g ∈ groups, ∀ g' ∈ groups,
    identity (g.map (·.id)) = identity (g'.map (·.id)) →
      (g.map (·.name)).Perm (g'.map (·.name))

theorem CollisionFree.mono {groups groups' : List (List Descriptor)} (h : CollisionFree groups)
    (hsub : groups' ⊆ groups) : CollisionFree groups' where
  descriptor := by
    intro d hd d' hd'
    obtain ⟨g, hg, hd⟩ := List.mem_flatten.mp hd
    obtain ⟨g', hg', hd'⟩ := List.mem_flatten.mp hd'
    exact h.descriptor d (List.mem_flatten.mpr ⟨g, hsub hg, hd⟩) d'
      (List.mem_flatten.mpr ⟨g', hsub hg', hd'⟩)
  collector := fun g hg g' hg' => h.collector g (hsub hg) g' (hsub hg')

theorem CollisionFree.append_mono {gs more fewer : List (List Descriptor)}
    (h : CollisionFree (gs ++ more)) (hsub : fewer ⊆ more) : CollisionFree (gs ++ fewer) := by
  refine h.mono (List.append_subset.mpr ⟨List.subset_append_left _ _, ?_⟩)
  exact fun g hg => List.mem_append_right _ (hsub hg)

theorem mem_groups {c : UInt64 × List (Metric ι)} (h : c ∈ r.collectors) :
    c.2.map (·.descriptor) ∈ r.groups :=
  List.mem_map_of_mem h

theorem Sound.mem_taken_iff (h : r.Sound) {gs : List (List Descriptor)}
    (hfree : CollisionFree (r.groups ++ gs)) (hd : d ∈ gs.flatten) :
    d.id ∈ r.taken ↔ d.name ∈ names r.registered := by
  refine ⟨fun hmem => ?_, h.mem_taken_of_name⟩
  obtain ⟨m, hm, hid⟩ := List.mem_map.mp (h.taken.mem_iff.mp hmem)
  obtain ⟨c, hc, hmc⟩ := List.mem_flatMap.mp hm
  have hname := hfree.descriptor m.descriptor
    (List.mem_flatten.mpr ⟨_, List.mem_append_left _ (mem_groups hc), List.mem_map_of_mem hmc⟩)
    d (by rw [List.flatten_append]; exact List.mem_append_right _ hd) hid
  exact hname ▸ List.mem_map_of_mem hm

/-- The sum of identities is not taken when none of the names is. -/
theorem Sound.identity_not_mem (h : r.Sound) (hne : ms ≠ [])
    (hfree : CollisionFree (r.groups ++ [ms.map (·.descriptor)]))
    (hnew : ∀ m ∈ ms, m.descriptor.id ∉ r.taken) :
    identity (ids ms).reverse ∉ r.collectors.map (·.1) := by
  intro hmem
  obtain ⟨c, hc, hidentity⟩ := List.mem_map.mp hmem
  rw [h.identified c hc, identity_perm (List.reverse_perm _)] at hidentity
  have hperm := hfree.collector _ (List.mem_append_left _ (mem_groups hc)) _
    (List.mem_append_right _ List.mem_cons_self)
    (by rw [List.map_map, List.map_map]; exact hidentity)
  obtain ⟨m, hm⟩ := List.exists_mem_of_ne_nil ms hne
  have hname : m.descriptor.name ∈ (c.2.map (·.descriptor)).map (·.name) :=
    hperm.mem_iff.mpr (List.mem_map_of_mem (List.mem_map_of_mem hm))
  rw [List.map_map] at hname
  obtain ⟨n, hn, heq⟩ := List.mem_map.mp hname
  refine hnew m hm (h.mem_taken_of_name ?_)
  exact List.mem_map.mpr ⟨n, List.mem_flatMap.mpr ⟨c, hc, hn⟩, heq⟩

theorem register_of_accepted (h : r.Sound) (hne : ms ≠ []) (hids : (ids ms).Nodup)
    (hfree : CollisionFree (r.groups ++ [ms.map (·.descriptor)]))
    (hnew : ∀ m ∈ ms, r.refusal? m.descriptor = none) : r.register ms = (.ok (), r.add ms) := by
  have hidentity := h.identity_not_mem hne hfree fun m hm => not_mem_taken (hnew m hm)
  rw [register, examine_of_accepted hids (fun _ _ => List.not_mem_nil) hnew]
  simp only [List.append_nil, collectors_foldl_remember, taken_foldl_remember]
  rw [if_neg hidentity]
  rfl

theorem register_of_stops (hids : (ids ms).Nodup) (h : r.Stops ms before m fault) :
    r.register ms = (.error fault, before.foldl remember r) := by
  rw [register, examine_of_stops hids (fun _ _ => List.not_mem_nil) h]

/-- What holds among the collectors of single metrics holds after the first was added. -/
theorem collisionFree_add
    (hfree : CollisionFree (r.groups ++ (m :: ms).map fun m => [m.descriptor])) :
    CollisionFree (r.groups ++ [[m].map (·.descriptor)]) ∧
      CollisionFree ((r.add [m]).groups ++ ms.map fun m => [m.descriptor]) := by
  rw [groups_add, List.append_assoc]
  exact ⟨hfree.append_mono (List.cons_subset.mpr ⟨List.mem_cons_self, List.nil_subset _⟩), hfree⟩

theorem register_single (h : r.Sound) (hm : r.refusal? m.descriptor = none)
    (hfree : CollisionFree (r.groups ++ [[m].map (·.descriptor)])) :
    r.register [m] = (.ok (), r.add [m]) :=
  register_of_accepted h (List.cons_ne_nil _ _) (List.nodup_singleton _) hfree
    (List.forall_mem_singleton.mpr hm)

theorem registerEach_of_accepted (h : r.Sound) (hids : (ids ms).Nodup)
    (hfree : CollisionFree (r.groups ++ ms.map fun m => [m.descriptor]))
    (hnew : ∀ m ∈ ms, r.refusal? m.descriptor = none) :
    r.registerEach ms = (.ok (), ms.foldl (fun r m => r.add [m]) r) := by
  induction ms generalizing r with
  | nil => rfl
  | cons m ms ih =>
      obtain ⟨hne, hids⟩ := nodup_ids_cons.mp hids
      obtain ⟨hnew_m, hnew⟩ := List.forall_mem_cons.mp hnew
      obtain ⟨hfree_m, hfree⟩ := collisionFree_add hfree
      rw [registerEach, register_single h hnew_m hfree_m]
      refine ih ?_ hids hfree fun n hn => ?_
      · exact h.add (List.nodup_singleton _) (List.forall_mem_singleton.mpr (not_mem_taken hnew_m))
      · exact (refusal?_add (hne n hn)).trans (hnew n hn)

theorem registerEach_of_stops (h : r.Sound) (hids : (ids ms).Nodup)
    (hfree : CollisionFree (r.groups ++ ms.map fun m => [m.descriptor]))
    (hstops : r.Stops ms before m fault) :
    r.registerEach ms = (.error fault, before.foldl (fun r m => r.add [m]) r) := by
  obtain ⟨⟨after, rfl⟩, hbefore, hm⟩ := hstops
  induction before generalizing r with
  | nil =>
      have hstop : r.Stops [m] [] m fault := ⟨⟨[], rfl⟩, List.forall_mem_nil _, hm⟩
      have hsingle : (ids [m]).Nodup := List.nodup_singleton _
      rw [List.nil_append, registerEach, register_of_stops hsingle hstop]
      rfl
  | cons n before ih =>
      obtain ⟨hne, hids⟩ := nodup_ids_cons.mp hids
      obtain ⟨hbefore_n, hbefore⟩ := List.forall_mem_cons.mp hbefore
      obtain ⟨hfree_n, hfree⟩ := collisionFree_add hfree
      rw [List.cons_append, registerEach, register_single h hbefore_n hfree_n]
      refine ih ?_ (fun k hk => ?_) ?_ hids hfree
      · exact h.add (List.nodup_singleton _)
          (List.forall_mem_singleton.mpr (not_mem_taken hbefore_n))
      · exact (refusal?_add (hne k (List.mem_append_left _ hk))).trans (hbefore k hk)
      · exact (refusal?_add (hne m (List.mem_append_right _ List.mem_cons_self))).trans hm

end Registry

end Scrape.Metrics
