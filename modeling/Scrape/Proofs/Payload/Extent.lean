/-
How far a payload goes.

A payload that is accepted is an object, so it is over at its closing brace.  Blanks may
stand around it and change no label; a byte of any other kind behind it makes the whole
refused, be it a form feed, which passes for blank where a payload is nothing but blanks.
Of a text that is cut off before the brace, the rest would have been read behind an
object if the text were one, and the rest has the brace in it: so it is refused, for its
end at that, and gives no label (`extentLaw_of_ok`).
-/
import Scrape.Proofs.Json.Closing
import Scrape.Proofs.LabelPolicy

namespace Scrape

/-- A payload that is refused might as well not have been looked at. -/
theorem LabelPolicy.value_join_of_error (p : LabelPolicy) (unit : String)
    (metric resource : SortedLabels) {payload : List UInt8} {fault : Fault}
    (h : Payload.labels payload = .error fault) :
    (p.join unit metric resource payload).value =
      ({ p with payloads := false }.join unit metric resource payload).value := by
  have hgiven : p.given payload = [] := p.given_eq_nil payload (.inr ⟨fault, h⟩)
  have hnone : { p with payloads := false }.given payload = [] :=
    given_eq_nil _ payload (.inl rfl)
  simp only [value_join, sources, further, hgiven, hnone]

namespace Payload

open Json (Value Blanks Closes isBlank)

variable {payload : List UInt8} {pairs : List (String × String)}

/-! ## Payloads as objects -/

/-- A payload with a closing brace in it is not blank either. -/
theorem all_isSpace_of_closes (h : Closes payload) : payload.all isSpace = false := by
  obtain ⟨body, tail, rfl, -⟩ := h
  refine List.all_eq_false.mpr ⟨0x7D, ?_, by decide⟩
  exact List.mem_append_right _ List.mem_cons_self

/-- What is accepted are the objects. -/
theorem labels_eq_ok_iff : labels payload = .ok pairs ↔
    ∃ members, Json.read payload = .ok (.object members) ∧
      pairs = members.map fun m => (m.1, labelValue m.2) := by
  constructor
  · intro h
    rw [labels] at h
    split at h
    · cases h
    · split at h
      · cases h
      · next v hread =>
          cases v with
          | object members =>
              cases h
              exact ⟨members, hread, rfl⟩
          | _ => cases h
  · rintro ⟨members, hread, rfl⟩
    have hspace := all_isSpace_of_closes (Json.closes_of_read hread)
    rw [labels, hspace, hread]
    rfl

/-- What is not JSON is refused as such, unless there is nothing in it. -/
theorem labels_of_read_error {fault : Json.Fault} (h : Json.read payload = .error fault) :
    labels payload = .error (if payload.all isSpace then .payload .empty else .json fault) := by
  rw [labels, h]
  split
  · rfl
  · rfl

/-! ## Around a payload -/

theorem labels_append_blanks {after : List UInt8} (h : labels payload = .ok pairs)
    (hafter : Blanks after) : labels (payload ++ after) = .ok pairs := by
  obtain ⟨members, hread, hpairs⟩ := labels_eq_ok_iff.mp h
  exact labels_eq_ok_iff.mpr ⟨members, Json.read_append_blanks hread hafter, hpairs⟩

theorem labels_blanks_append {before : List UInt8} (hbefore : Blanks before) :
    labels (before ++ payload) = .ok pairs ↔ labels payload = .ok pairs := by
  simp only [labels_eq_ok_iff, Json.read_blanks_append hbefore]

/-- What stands behind a payload does not make it a blank one. -/
theorem labels_append_trailing {gap : List UInt8} (h : labels payload = .ok pairs)
    (hgap : Blanks gap) {b : UInt8} (hb : isBlank b = false) (rest : List UInt8) :
    labels (payload ++ gap ++ b :: rest) = .error (.json
      (.found .trailingBytes (payload ++ gap ++ b :: rest)
        (payload.length + gap.length + 1))) := by
  obtain ⟨members, hread, -⟩ := labels_eq_ok_iff.mp h
  have hspace : payload.all isSpace = false := all_isSpace_of_closes (Json.closes_of_read hread)
  rw [labels_of_read_error (Json.read_append_trailing hread hgap hb rest)]
  simp [hspace]

theorem labels_of_cut {cut rest : List UInt8} (h : labels (cut ++ rest) = .ok pairs)
    (hrest : ¬ Blanks rest) : labels cut = .error (.payload .empty) ∨
      ∃ cause, labels cut = .error (.json (.found cause cut cut.length)) := by
  obtain ⟨members, hread, -⟩ := labels_eq_ok_iff.mp h
  obtain ⟨cause, hcut⟩ := Json.read_of_cut hread hrest
  rw [labels_of_read_error hcut]
  split
  · exact .inl rfl
  · exact .inr ⟨cause, rfl⟩

/-- What makes a payload that is accepted longer or shorter. -/
structure ExtentLaw (payload : List UInt8) (pairs : List (String × String)) : Prop where
  /-- Blanks behind it change nothing, -/
  blank : ∀ after, Blanks after → labels (payload ++ after) = .ok pairs
  /-- and only blanks are accepted there. -/
  accepted : ∀ after, (∃ pairs', labels (payload ++ after) = .ok pairs') ↔ Blanks after
  /-- With anything else it is not JSON, and this shows at the first byte that is no blank. -/
  trailing : ∀ after, ¬ Blanks after → ∃ gap b rest, after = gap ++ b :: rest ∧
    Blanks gap ∧ isBlank b = false ∧ labels (payload ++ after) = .error (.json
      (.found .trailingBytes (payload ++ after) (payload.length + gap.length + 1)))
  /-- Blanks in front change nothing, whatever stands behind. -/
  leading : ∀ before after pairs', Blanks before →
    (labels (before ++ payload ++ after) = .ok pairs' ↔ labels (payload ++ after) = .ok pairs')
  /-- Its last byte but for blanks is the closing brace.  Wherever it is cut off before that, what
  is left is blank, or not JSON for want of more bytes, and adds nothing to the labels of any
  sample. -/
  truncated : ∃ body tail, payload = body ++ 0x7D :: tail ∧ Blanks tail ∧
    ∀ cut, cut <+: body → ∃ fault, labels cut = .error fault ∧
      (fault = .payload .empty ∨ ∃ cause, fault = .json (.found cause cut cut.length)) ∧
      ∀ (p : LabelPolicy) (unit : String) (metric resource : SortedLabels),
        (p.join unit metric resource cut).value =
          ({ p with payloads := false }.join unit metric resource cut).value

/-- A payload goes to its brace, no less and, but for blanks, no further. -/
theorem extentLaw_of_ok (h : labels payload = .ok pairs) : ExtentLaw payload pairs where
  blank := fun after => labels_append_blanks h
  accepted := by
    intro after
    constructor
    · rintro ⟨pairs', hafter⟩
      by_contra hblanks
      obtain ⟨gap, b, rest, rfl, hgap, hb⟩ := Json.exists_of_not_blanks hblanks
      rw [← List.append_assoc, labels_append_trailing h hgap hb] at hafter
      cases hafter
    · exact fun hafter => ⟨pairs, labels_append_blanks h hafter⟩
  trailing := by
    intro after hblanks
    obtain ⟨gap, b, rest, rfl, hgap, hb⟩ := Json.exists_of_not_blanks hblanks
    refine ⟨gap, b, rest, rfl, hgap, hb, ?_⟩
    rw [← List.append_assoc]
    exact labels_append_trailing h hgap hb rest
  leading := by
    intro before after pairs' hbefore
    rw [List.append_assoc]
    exact labels_blanks_append hbefore
  truncated := by
    obtain ⟨members, hread, -⟩ := labels_eq_ok_iff.mp h
    obtain ⟨body, tail, rfl, htail⟩ := Json.closes_of_read hread
    refine ⟨body, tail, rfl, htail, ?_⟩
    rintro cut ⟨lost, rfl⟩
    -- the brace is among what is cut off
    have hlost : ¬ Blanks (lost ++ 0x7D :: tail) :=
      fun hblanks => absurd (hblanks 0x7D (List.mem_append_right _ List.mem_cons_self)) (by decide)
    rw [List.append_assoc] at h
    obtain hcut | ⟨cause, hcut⟩ := labels_of_cut h hlost
    · exact ⟨_, hcut, .inl rfl, fun p _ _ _ => p.value_join_of_error _ _ _ hcut⟩
    · exact ⟨_, hcut, .inr ⟨cause, rfl⟩, fun p _ _ _ => p.value_join_of_error _ _ _ hcut⟩

/-- An object with a line feed behind it, to which a blank or a form feed is added. -/
theorem extentLaw_of_ok_line :
    labels (Utf8.encode "\x7b\"a\":\x7b\"b\":\"\\u00E9é\"\x7d,\"c\":[-1.5]\x7d\n") =
      .ok [("a", "\x7b\"b\":\"éé\"\x7d"), ("c", "[-1.5]")] ∧
    ExtentLaw (Utf8.encode "\x7b\"a\":\x7b\"b\":\"\\u00E9é\"\x7d,\"c\":[-1.5]\x7d\n")
      [("a", "\x7b\"b\":\"éé\"\x7d"), ("c", "[-1.5]")] ∧
    labels (Utf8.encode "\x7b\"a\":\x7b\"b\":\"\\u00E9é\"\x7d,\"c\":[-1.5]\x7d\n" ++ [0x20]) =
      .ok [("a", "\x7b\"b\":\"éé\"\x7d"), ("c", "[-1.5]")] ∧
    ¬ ∃ pairs, labels (Utf8.encode
      "\x7b\"a\":\x7b\"b\":\"\\u00E9é\"\x7d,\"c\":[-1.5]\x7d\n" ++ [0x0C]) = .ok pairs := by
  have hlabels : labels (Utf8.encode
      "\x7b\"a\":\x7b\"b\":\"\\u00E9é\"\x7d,\"c\":[-1.5]\x7d\n") =
        .ok [("a", "\x7b\"b\":\"éé\"\x7d"), ("c", "[-1.5]")] := by decide +kernel
  have hlaw := extentLaw_of_ok hlabels
  have hblank : Blanks [0x20] := List.forall_mem_singleton.mpr (.inl rfl)
  have hfeed : ¬ Blanks [0x0C] := by simp [Blanks]
  exact ⟨hlabels, hlaw, hlaw.blank _ hblank, fun h => hfeed ((hlaw.accepted _).mp h)⟩

end Payload
end Scrape
