/-
Whose label counts, the user's or the payload's.

A policy has a switch that puts the labels of the user before those of the payload.
The two settings go through the sources in different orders, but little of that is to
be seen in the labels.  The first three sources have their say in either case, so the
switch matters for a key only if all of them leave it open, and if then the user and
the payload have different values for it (`Conflict`).  Such a key has the payload's
value with the switch off and the user's with the switch on.  All other keys have one
value, and no key comes or goes (`override_effect`).

The order of the labels does change with the switch, even where no value does.  A
fingerprint does not see it.
-/
import Scrape.Proofs.Fingerprint.Encoding
import Scrape.Proofs.LabelPolicy.Precedence

namespace Scrape.LabelPolicy

variable (p : LabelPolicy) (unit : String) (metric resource : SortedLabels)
  (payload : List UInt8)

/-- The labels of a sample with the switch set one way or the other, and all else as the
policy says. -/
def switched (userFirst : Bool) : Labels :=
  ({ p with userFirst }.join unit metric resource payload).value

/-- A key that an accepted payload and the user have with different values, and that no
source before them has. -/
structure Conflict (key user given : String) : Prop where
  enabled : p.payloads = true
  accepted : ∃ pairs, Payload.labels payload = .ok pairs ∧ (key, given) ∈ pairs
  configured : (key, user) ∈ p.userLabels.toList
  ne : user ≠ given
  ne_unit : key ≠ unitKey
  not_metric : key ∉ metric.toList.map Prod.fst
  not_resource : key ∉ resource.toList.map Prod.fst

/-! ## Both settings as lookups -/

/-- The labels of the first three sources, which the switch does not touch. -/
def own : List (String × String) :=
  (unitKey, unit) :: metric.toList ++ resource.toList

theorem further_payloadFirst :
    ({ p with userFirst := false } : LabelPolicy).further payload =
      p.given payload ++ p.userLabels.toList := rfl

theorem further_userFirst :
    ({ p with userFirst := true } : LabelPolicy).further payload =
      p.userLabels.toList ++ p.given payload := rfl

theorem switched_wellFormed (userFirst : Bool) :
    (p.switched unit metric resource payload userFirst).WellFormed :=
  join_wellFormed _ unit metric resource payload

theorem get?_switched (userFirst : Bool) (key : String) :
    (p.switched unit metric resource payload userFirst).get? key =
      ((own unit metric resource).lookup key).or
        ((({ p with userFirst } : LabelPolicy).further payload).lookup key) := by
  rw [switched, get?_join, sources, List.lookup_append, own]

theorem mem_given_iff {q : String × String} :
    q ∈ p.given payload ↔
      p.payloads = true ∧ ∃ pairs, Payload.labels payload = .ok pairs ∧ q ∈ pairs := by
  rw [given]
  by_cases hp : p.payloads = true
  · rw [if_pos hp]
    cases hlabels : Payload.labels payload with
    | ok pairs => simp [hp, Except.toOption]
    | error fault => simp [Except.toOption]
  · rw [if_neg hp]
    exact iff_of_false List.not_mem_nil fun h => hp h.1

theorem lookup_own_eq_none_iff {key : String} :
    (own unit metric resource).lookup key = none ↔
      key ≠ unitKey ∧ key ∉ metric.toList.map Prod.fst ∧ key ∉ resource.toList.map Prod.fst := by
  rw [lookup_eq_none_iff_not_mem, own]
  simp only [List.cons_append, List.map_cons, List.map_append, List.mem_cons, List.mem_append,
    not_or]

theorem conflict_iff {key user given : String} :
    p.Conflict metric resource payload key user given ↔
      (own unit metric resource).lookup key = none ∧
        (p.given payload).lookup key = some given ∧
        p.userLabels.toList.lookup key = some user ∧ user ≠ given := by
  rw [lookup_own_eq_none_iff, lookup_eq_some_iff_mem (p.nodup_keys_given payload),
    lookup_eq_some_iff_mem p.userLabels.nodup_keys, mem_given_iff]
  constructor
  · intro h
    exact ⟨⟨h.ne_unit, h.not_metric, h.not_resource⟩, ⟨h.enabled, h.accepted⟩, h.configured,
      h.ne⟩
  · rintro ⟨⟨hunit, hmetric, hresource⟩, ⟨henabled, haccepted⟩, huser, hne⟩
    exact ⟨henabled, haccepted, huser, hne, hunit, hmetric, hresource⟩

/-! ## What the switch changes -/

/-- A key that either setting lacks is in no source. -/
theorem get?_switched_eq_none_iff (key : String) :
    (p.switched unit metric resource payload false).get? key = none ↔
      (p.switched unit metric resource payload true).get? key = none := by
  rw [get?_switched, get?_switched, further_payloadFirst, further_userFirst, List.lookup_append,
    List.lookup_append]
  simp only [Option.or_eq_none_iff]
  rw [and_comm (a := (p.given payload).lookup key = none)]

theorem get?_switched_of_conflict {key user given : String}
    (h : p.Conflict metric resource payload key user given) :
    (p.switched unit metric resource payload false).get? key = some given ∧
      (p.switched unit metric resource payload true).get? key = some user := by
  obtain ⟨hown, hgiven, huser, -⟩ := (p.conflict_iff unit metric resource payload).mp h
  rw [get?_switched, get?_switched, further_payloadFirst, further_userFirst, List.lookup_append,
    List.lookup_append, hown, hgiven, huser]
  exact ⟨rfl, rfl⟩

theorem get?_switched_of_not_conflict {key : String}
    (h : ∀ user given, ¬ p.Conflict metric resource payload key user given) :
    (p.switched unit metric resource payload false).get? key =
      (p.switched unit metric resource payload true).get? key := by
  rw [get?_switched, get?_switched, further_payloadFirst, further_userFirst, List.lookup_append,
    List.lookup_append]
  cases hown : (own unit metric resource).lookup key with
  | some value => rfl
  | none =>
      cases hgiven : (p.given payload).lookup key with
      | none => exact congrArg _ Option.or_none.symm
      | some given =>
          cases huser : p.userLabels.toList.lookup key with
          | none => rfl
          | some user =>
              have hsame : user = given := by
                by_contra hne
                refine h user given ((p.conflict_iff unit metric resource payload).mpr ?_)
                exact ⟨hown, hgiven, huser, hne⟩
              rw [hsame]

theorem switched_eq_of_given_eq_nil (h : p.given payload = []) :
    p.switched unit metric resource payload false =
      p.switched unit metric resource payload true := by
  rw [switched, switched, value_join, value_join, sources, sources, further_payloadFirst,
    further_userFirst, h, List.nil_append, List.append_nil]

/-- What the two settings have in common, and what not. -/
structure OverrideEffect : Prop where
  /-- No key comes or goes. -/
  keys_perm : (p.switched unit metric resource payload false).keys.Perm
    (p.switched unit metric resource payload true).keys
  /-- Where the user and the payload are in conflict, each setting has its own value. -/
  conflict : ∀ key user given, p.Conflict metric resource payload key user given →
    (p.switched unit metric resource payload false).get? key = some given ∧
      (p.switched unit metric resource payload true).get? key = some user
  /-- Any other key has one value in both. -/
  agree : ∀ key, (∀ user given, ¬ p.Conflict metric resource payload key user given) →
    (p.switched unit metric resource payload false).get? key =
      (p.switched unit metric resource payload true).get? key
  /-- A payload that does not count, or is refused, leaves not even another order. -/
  unused : (p.payloads = false ∨ ∃ fault, Payload.labels payload = .error fault) →
    p.switched unit metric resource payload false =
      p.switched unit metric resource payload true
  /-- Without conflicts a fingerprint does not depend on the switch. -/
  fingerprint : (∀ key user given, ¬ p.Conflict metric resource payload key user given) →
    ∀ name time,
      Fingerprint.of name (p.switched unit metric resource payload false).keys
          (p.switched unit metric resource payload false).values time =
        Fingerprint.of name (p.switched unit metric resource payload true).keys
          (p.switched unit metric resource payload true).values time

/-- The switch decides between the values of the user and of the payload where they are in
conflict.  It changes no other value and no key. -/
theorem override_effect : p.OverrideEffect unit metric resource payload := by
  have hoff := p.switched_wellFormed unit metric resource payload false
  have hon := p.switched_wellFormed unit metric resource payload true
  constructor
  case keys_perm =>
    rw [List.perm_ext_iff_of_nodup hoff.nodup hon.nodup]
    intro key
    rw [← not_iff_not, ← Labels.get?_eq_none_iff hoff, ← Labels.get?_eq_none_iff hon]
    exact p.get?_switched_eq_none_iff unit metric resource payload key
  case conflict =>
    exact fun _ _ _ => p.get?_switched_of_conflict unit metric resource payload
  case agree =>
    exact fun _ => p.get?_switched_of_not_conflict unit metric resource payload
  case unused =>
    intro h
    exact p.switched_eq_of_given_eq_nil unit metric resource payload (p.given_eq_nil payload h)
  case fingerprint =>
    intro h name time
    refine Fingerprint.of_eq_of hoff hon (fun key => ?_) rfl
    exact p.get?_switched_of_not_conflict unit metric resource payload (h key)

end Scrape.LabelPolicy
