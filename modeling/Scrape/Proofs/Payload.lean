/-
Labels that a payload was meant to give.

Whoever writes a payload chooses blanks and escapes, and may give a key twice.  The
labels do not depend on any of this but on the members that were meant: each key
once, where it stands first, with the value that it has last (`LabelsLaw`).  A text
becomes a label value as it is and `null` an empty one.  Any other value is written
out again, without gaps and with its own repeated keys resolved, so that reading the
label value gives what was meant (`LabelLaw`).
-/
import Scrape.Payload
import Scrape.Proofs.Json.Compact

namespace Scrape.Payload

open Json (Value Spells Blanks)

/-- What the label value of a JSON value is. -/
structure LabelLaw (v : Value) (label : String) : Prop where
  verbatim : ∀ s, v = .text s → label = s
  empty : v = .null → label = ""
  /-- Any other value is spelled without gaps, and with repeated keys resolved. -/
  compact : (∀ s, v ≠ .text s) → v ≠ .null → label = v.settled.render ∧
    Spells (· = []) v.settled (Utf8.encode label) ∧ Json.read (Utf8.encode label) = .ok v.settled

/-- What labels are given by the members of an object. -/
structure LabelsLaw (members : List (String × Value)) (pairs : List (String × String)) :
    Prop where
  /-- Each key is there once, and the keys stand in the order in which they stand first. -/
  keys : pairs.map Prod.fst = (members.map Prod.fst).eraseDups
  nodup : (pairs.map Prod.fst).Nodup
  /-- Each key has the last of its values. -/
  last : ∀ key label, (key, label) ∈ pairs → ∃ before v after,
    members = before ++ (key, v) :: after ∧ key ∉ after.map Prod.fst ∧ LabelLaw v label

theorem labelLaw_labelValue {v : Value} (h : v.Plain Json.maxDepth) :
    LabelLaw v (labelValue v.settled) := by
  constructor
  case verbatim =>
    rintro s rfl
    rfl
  case empty =>
    rintro rfl
    rfl
  case compact =>
    intro htext hnull
    have hlabel : labelValue v.settled = v.settled.render := by
      cases v with
      | null => exact absurd rfl hnull
      | text s => exact absurd rfl (htext s)
      | _ => rfl
    rw [hlabel]
    exact ⟨rfl, Json.spells_render h.settled, Json.read_render h⟩

/-- A payload with a brace in it is not blank. -/
theorem all_isSpace_eq_false {bytes : List UInt8} (h : 0x7B ∈ bytes) :
    bytes.all isSpace = false :=
  List.all_eq_false.mpr ⟨0x7B, h, by decide⟩

theorem brace_mem_of_spells {gap : List UInt8 → Prop} {members : List (String × Value)}
    {bytes : List UInt8} (h : Spells gap (.object members) bytes) : 0x7B ∈ bytes := by
  cases h with
  | emptyObject => exact List.mem_cons_self
  | object => exact List.mem_cons_self

theorem labels_of_spells {members : List (String × Value)} {before bytes after : List UInt8}
    (hplain : (Value.object members).Plain Json.maxDepth)
    (hspells : Spells Blanks (.object members) bytes) (hbefore : Blanks before)
    (hafter : Blanks after) :
    labels (before ++ bytes ++ after) =
      .ok ((Json.lasting (members.map fun m => (m.1, m.2.settled))).map
        fun m => (m.1, labelValue m.2)) := by
  have hbrace : 0x7B ∈ before ++ bytes ++ after :=
    List.mem_append_left _ (List.mem_append_right _ (brace_mem_of_spells hspells))
  have hread := Json.read_of_spells (fun _ => id) hspells hplain hbefore hafter
  rw [labels, all_isSpace_eq_false hbrace, hread, Value.settled, Json.Value.settledMembers_eq_map]
  rfl

/-- The lasting members, each with the label value of what it means, are such labels. -/
theorem labelsLaw_lasting {members : List (String × Value)}
    (hplain : (Value.object members).Plain Json.maxDepth) :
    LabelsLaw members ((Json.lasting (members.map fun m => (m.1, m.2.settled))).map
      fun m => (m.1, labelValue m.2)) := by
  have hkeys : ((Json.lasting (members.map fun m => (m.1, m.2.settled))).map
      fun m => (m.1, labelValue m.2)).map Prod.fst = (members.map Prod.fst).eraseDups := by
    calc ((Json.lasting (members.map fun m => (m.1, m.2.settled))).map
          fun m => (m.1, labelValue m.2)).map Prod.fst
        = (Json.lasting (members.map fun m => (m.1, m.2.settled))).map Prod.fst := List.map_map
      _ = ((members.map fun m => (m.1, m.2.settled)).map Prod.fst).eraseDups :=
          Json.map_fst_lasting _
      _ = (members.map Prod.fst).eraseDups := congrArg List.eraseDups List.map_map
  constructor
  case keys => exact hkeys
  case nodup =>
    rw [hkeys]
    exact Json.nodup_eraseDups _
  case last =>
    intro key label h
    obtain ⟨m, hm, heq⟩ := List.mem_map.mp h
    cases heq
    obtain ⟨before, after, hmembers, hlast⟩ := Json.exists_of_mem_lasting hm
    obtain ⟨before', rest, rfl, -, hrest⟩ := List.map_eq_append_iff.mp hmembers
    obtain ⟨n, after', rfl, rfl, rfl⟩ := List.map_eq_cons_iff.mp hrest
    rw [List.map_map] at hlast
    refine ⟨before', n.2, after', rfl, hlast, labelLaw_labelValue ?_⟩
    cases hplain with
    | object hplain =>
        have hn : n ∈ before' ++ n :: after' := List.mem_append_right _ List.mem_cons_self
        exact (hplain n hn).mono (Nat.le_succ _)

/-- Any spelling of an object is accepted, and gives the labels of its members. -/
theorem labelsLaw_of_spells {members : List (String × Value)} {before bytes after : List UInt8}
    (hplain : (Value.object members).Plain 127)
    (hspells : Spells Blanks (.object members) bytes) (hbefore : Blanks before)
    (hafter : Blanks after) :
    ∃ pairs, labels (before ++ bytes ++ after) = .ok pairs ∧ LabelsLaw members pairs :=
  ⟨_, labels_of_spells hplain hspells hbefore hafter, labelsLaw_lasting hplain⟩

/-- A blank and an object that gives one key twice, first as it is and with a blank behind
it, then escaped. -/
theorem labelsLaw_of_spells_repeated :
    (Value.object [("a", .number (.integer (-1))), ("a", .array [.null])]).Plain 127 ∧
    Spells Blanks (.object [("a", .number (.integer (-1))), ("a", .array [.null])])
      [0x7B, 0x22, 0x61, 0x22, 0x20, 0x3A, 0x2D, 0x31, 0x2C, 0x22, 0x5C, 0x75, 0x30, 0x30, 0x36,
        0x31, 0x22, 0x3A, 0x5B, 0x6E, 0x75, 0x6C, 0x6C, 0x5D, 0x7D] ∧
    Blanks [0x20] ∧ Blanks [] ∧
    ∃ pairs, labels ([0x20] ++ [0x7B, 0x22, 0x61, 0x22, 0x20, 0x3A, 0x2D, 0x31, 0x2C, 0x22, 0x5C,
        0x75, 0x30, 0x30, 0x36, 0x31, 0x22, 0x3A, 0x5B, 0x6E, 0x75, 0x6C, 0x6C, 0x5D, 0x7D] ++
          []) = .ok pairs ∧
      LabelsLaw [("a", .number (.integer (-1))), ("a", .array [.null])] pairs := by
  have hnone : Blanks [] := List.forall_mem_nil _
  have hblank : Blanks [0x20] := List.forall_mem_singleton.mpr (.inl rfl)
  have hplain :
      (Value.object [("a", .number (.integer (-1))), ("a", .array [.null])]).Plain 127 := by
    refine .object (List.forall_mem_cons.mpr ⟨.integer _ (by decide) (by decide), ?_⟩)
    exact List.forall_mem_singleton.mpr (.array (List.forall_mem_singleton.mpr (.null _)))
  have hinteger : Spells Blanks (.number (.integer (-1))) [0x2D, 0x31] := by
    have hdigits : Utf8.encode (String.ofList (Decimal.intDigits (-1))) = [0x2D, 0x31] := by
      decide +kernel
    exact hdigits ▸ Spells.integer (-1)
  have harray : Spells Blanks (.array [.null]) [0x5B, 0x6E, 0x75, 0x6C, 0x6C, 0x5D] :=
    @Spells.array Blanks [⟨[], .null, [0x6E, 0x75, 0x6C, 0x6C], []⟩] (List.cons_ne_nil _ _)
      (List.forall_mem_singleton.mpr ⟨hnone, hnone⟩) (List.forall_mem_singleton.mpr .null)
  have hraw : Json.SpellsText "a" [0x22, 0x61, 0x22] :=
    .quoted (s := "a") (.cons (c := 'a') (.raw (by decide) (by decide) (by decide)) .nil)
  have hunit : Json.SpellsText "a" [0x22, 0x5C, 0x75, 0x30, 0x30, 0x36, 0x31, 0x22] := by
    have hchar : Json.SpellsChar 'a' [0x5C, 0x75, 0x30, 0x30, 0x36, 0x31] :=
      .unit (c := 'a') (.digits (.decimal (d := 0) (by decide) rfl)
        (.decimal (d := 0) (by decide) rfl) (.decimal (d := 6) (by decide) rfl)
        (.decimal (d := 1) (by decide) rfl))
    exact .quoted (s := "a") (.cons hchar .nil)
  have hspells : Spells Blanks (.object [("a", .number (.integer (-1))), ("a", .array [.null])])
      [0x7B, 0x22, 0x61, 0x22, 0x20, 0x3A, 0x2D, 0x31, 0x2C, 0x22, 0x5C, 0x75, 0x30, 0x30, 0x36,
        0x31, 0x22, 0x3A, 0x5B, 0x6E, 0x75, 0x6C, 0x6C, 0x5D, 0x7D] :=
    @Spells.object Blanks
      [⟨[], "a", [0x22, 0x61, 0x22], [0x20], ⟨[], .number (.integer (-1)), [0x2D, 0x31], []⟩⟩,
        ⟨[], "a", [0x22, 0x5C, 0x75, 0x30, 0x30, 0x36, 0x31, 0x22], [],
          ⟨[], .array [.null], [0x5B, 0x6E, 0x75, 0x6C, 0x6C, 0x5D], []⟩⟩]
      (List.cons_ne_nil _ _)
      (List.forall_mem_cons.mpr ⟨⟨hnone, hblank, hnone, hnone⟩,
        List.forall_mem_singleton.mpr ⟨hnone, hnone, hnone, hnone⟩⟩)
      (List.forall_mem_cons.mpr ⟨hraw, List.forall_mem_singleton.mpr hunit⟩)
      (List.forall_mem_cons.mpr ⟨hinteger, List.forall_mem_singleton.mpr harray⟩)
  refine ⟨hplain, hspells, hblank, hnone, ?_⟩
  exact labelsLaw_of_spells hplain hspells hblank hnone

end Scrape.Payload
