/-
All of a payload or nothing.

A payload is read to its end before the first of its labels goes into a set.  If it is
refused, be it for its last byte, the set is what it was, and the refusal is all that is
to be seen of it.  If it is accepted, its labels go behind those that are there, less
those whose keys the set has already.  Then the set has all keys of the payload, and the
same payload again finds nothing to add (`allOrNothing_of_nodup`).
-/
import Scrape.LabelPolicy
import Scrape.Proofs.Json.Members
import Scrape.Proofs.Labels

namespace Scrape.Labels

theorem absorbPayload_of_error {payload : List UInt8} {fault : Fault} (s : Labels)
    (h : Payload.labels payload = .error fault) :
    s.absorbPayload payload = ⟨s, [.payloadIgnored fault]⟩ := by
  rw [absorbPayload, h]
  rfl

/-- The keys of a payload are distinct, so all that are new to the set get in. -/
theorem absorbPayload_of_ok {payload : List UInt8} {pairs : List (String × String)} (s : Labels)
    (h : Payload.labels payload = .ok pairs) :
    s.absorbPayload payload = ⟨s.append (pairs.filter fun p => p.1 ∉ s.keys), []⟩ := by
  have hnew : ((pairs.filter fun p => p.1 ∉ s.keys).map Prod.fst).Nodup :=
    (Payload.labels_nodup h).sublist (List.filter_sublist.map Prod.fst)
  rw [absorbPayload, h]
  show Logged.mk (s.absorb pairs) [] = _
  rw [absorb_eq_append, firsts_of_nodup hnew]

theorem nodup_append {s : Labels} {rows : List (String × String)} (hs : s.keys.Nodup)
    (hrows : (rows.map Prod.fst).Nodup) (hnew : ∀ p ∈ rows, p.1 ∉ s.keys) :
    (s.append rows).keys.Nodup := by
  refine List.nodup_append.mpr ⟨hs, hrows, ?_⟩
  rintro key hkey _ hrow rfl
  obtain ⟨p, hp, rfl⟩ := List.mem_map.mp hrow
  exact hnew p hp hkey

/-- Every key of the pairs is there once the new ones are. -/
theorem mem_keys_append_filter {s : Labels} {pairs : List (String × String)}
    {p : String × String} (hp : p ∈ pairs) :
    p.1 ∈ (s.append (pairs.filter fun q => q.1 ∉ s.keys)).keys := by
  rw [append, List.mem_append]
  by_cases hkey : p.1 ∈ s.keys
  · exact .inl hkey
  · refine .inr (List.mem_map_of_mem (List.mem_filter.mpr ⟨hp, ?_⟩))
    exact decide_eq_true hkey

/-- What a payload does to a set of labels. -/
structure AllOrNothing (s : Labels) (payload : List UInt8) : Prop where
  /-- A payload that is refused changes nothing and is reported once. -/
  refused : ∀ fault, Payload.labels payload = .error fault →
    s.absorbPayload payload = ⟨s, [.payloadIgnored fault]⟩ ∧
      (Event.payloadIgnored fault).level = .debug
  /-- One that is accepted goes behind what is there, as far as its keys are new, and is not
  reported. -/
  accepted : ∀ pairs, Payload.labels payload = .ok pairs →
    s.absorbPayload payload = ⟨s.append (pairs.filter fun p => p.1 ∉ s.keys), []⟩
  nodup : (s.absorbPayload payload).value.keys.Nodup
  /-- The second time there is nothing to add. -/
  again : ((s.absorbPayload payload).value.absorbPayload payload).value =
    (s.absorbPayload payload).value

/-- A payload gives a set all labels whose keys it lacks, or none and a reason. -/
theorem allOrNothing_of_nodup {s : Labels} (h : s.keys.Nodup) (payload : List UInt8) :
    s.AllOrNothing payload where
  refused := fun _ hfault => ⟨s.absorbPayload_of_error hfault, rfl⟩
  accepted := fun _ hpairs => s.absorbPayload_of_ok hpairs
  nodup := by
    cases hlabels : Payload.labels payload with
    | error fault =>
        rw [s.absorbPayload_of_error hlabels]
        exact h
    | ok pairs =>
        rw [s.absorbPayload_of_ok hlabels]
        refine nodup_append h ?_ fun p hp => of_decide_eq_true (List.mem_filter.mp hp).2
        exact (Payload.labels_nodup hlabels).sublist (List.filter_sublist.map Prod.fst)
  again := by
    cases hlabels : Payload.labels payload with
    | error fault => rw [s.absorbPayload_of_error hlabels, s.absorbPayload_of_error hlabels]
    | ok pairs =>
        rw [s.absorbPayload_of_ok hlabels, absorbPayload_of_ok _ hlabels]
        have hnone : (pairs.filter fun p =>
            p.1 ∉ (s.append (pairs.filter fun q => q.1 ∉ s.keys)).keys) = [] := by
          refine List.filter_eq_nil_iff.mpr fun p hp hmem => ?_
          exact of_decide_eq_true hmem (mem_keys_append_filter hp)
        rw [hnone, append_nil]

/-- A payload whose first key is taken and whose second is new, and the same one without
its last byte. -/
theorem allOrNothing_of_nodup_truncated :
    (Labels.mk ["unit"] ["By"]).keys.Nodup ∧
      (Labels.mk ["unit"] ["By"]).absorbPayload
          (Utf8.encode "\x7b\"unit\":\"s\",\"zone\":[1]\x7d") =
        ⟨⟨["unit", "zone"], ["By", "[1]"]⟩, []⟩ ∧
      (Labels.mk ["unit"] ["By"]).absorbPayload (Utf8.encode "\x7b\"unit\":\"s\",\"zone\":[1]") =
        ⟨⟨["unit"], ["By"]⟩, [.payloadIgnored (.json ⟨.unendedObject, 1, 22⟩)]⟩ := by
  have hs : (Labels.mk ["unit"] ["By"]).keys.Nodup := List.nodup_singleton "unit"
  have hwhole : Payload.labels (Utf8.encode "\x7b\"unit\":\"s\",\"zone\":[1]\x7d") =
      .ok [("unit", "s"), ("zone", "[1]")] := by decide +kernel
  have hcut : Payload.labels (Utf8.encode "\x7b\"unit\":\"s\",\"zone\":[1]") =
      .error (.json ⟨.unendedObject, 1, 22⟩) := by decide +kernel
  refine ⟨hs, ?_, ?_⟩
  · exact (allOrNothing_of_nodup hs _).accepted _ hwhole
  · exact ((allOrNothing_of_nodup hs _).refused _ hcut).1

end Scrape.Labels
