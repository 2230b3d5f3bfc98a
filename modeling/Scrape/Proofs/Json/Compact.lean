/-
The compact text of a value.

What is written of a value is a spelling of it, one without gaps, whatever the
value holds and however deep it goes (`spells_render`).  So it can be read again,
and comes back as the value that was meant (`read_render`).
-/
import Scrape.Json.Writer
import Scrape.Proofs.Json.Reading

namespace Scrape.Json

/-! ## Texts -/

theorem flatMap_intercalate {α β : Type} (f : α → List β) (separator : List α)
    (parts : List (List α)) :
    (separator.intercalate parts).flatMap f =
      (separator.flatMap f).intercalate (parts.map (·.flatMap f)) := by
  induction parts with
  | nil => rfl
  | cons part parts ih =>
      cases parts with
      | nil => simp
      | cons next parts =>
          rw [List.map_cons] at ih
          simp only [List.map_cons, List.intercalate_cons_cons, List.flatMap_append, ih]

/-- Texts with commas between them. -/
theorem encode_intercalate (texts : List String) :
    Utf8.encode (",".intercalate texts) = listed (texts.map Utf8.encode) := by
  have hencode : Utf8.encode = fun s => s.toList.flatMap String.utf8EncodeChar :=
    funext Utf8.encode_eq_flatMap
  rw [Utf8.encode_eq_flatMap, String.toList_intercalate, flatMap_intercalate, List.map_map, hencode]
  rfl

theorem hexDigit_lower {d : Nat} (h : d < 16) :
    ∃ b, String.utf8EncodeChar (hexDigit d) = [b] ∧ HexDigit d b := by
  by_cases hd : d < 10
  · refine ⟨State.digitByte d, State.utf8EncodeChar_digitChar hd, .decimal hd ?_⟩
    rw [State.digitByte, UInt8.toNat_ofNat']
    omega
  · obtain ⟨e, rfl⟩ : ∃ e, d = 10 + e := ⟨d - 10, by omega⟩
    have hall : ∀ e < 6, String.utf8EncodeChar (hexDigit (10 + e)) = [UInt8.ofNat (0x61 + e)] := by
      decide
    refine ⟨UInt8.ofNat (0x61 + e), hall e (by omega), .lower (by omega) ?_⟩
    rw [UInt8.toNat_ofNat']
    omega

/-- A character within quotes is written by a letter if there is one, by a unit if it is
another control character, and else as it is. -/
theorem spellsChar_escapeChar (c : Char) :
    SpellsChar c ((escapeChar c).flatMap String.utf8EncodeChar) := by
  rw [escapeChar.eq_def]
  split
  · exact .letter (b := 0x22) (by decide)
  · exact .letter (b := 0x5C) (by decide)
  · exact .letter (b := 0x62) (by decide)
  · exact .letter (b := 0x66) (by decide)
  · exact .letter (b := 0x6E) (by decide)
  · exact .letter (b := 0x72) (by decide)
  · exact .letter (b := 0x74) (by decide)
  next hquote hback _ _ _ _ _ =>
    by_cases hcontrol : c.toNat < 0x20
    · obtain ⟨high, hhigh, hhigh'⟩ := hexDigit_lower (show c.toNat / 16 < 16 by omega)
      obtain ⟨low, hlow, hlow'⟩ := hexDigit_lower (show c.toNat % 16 < 16 by omega)
      have hzero : HexDigit 0 0x30 := .decimal (by decide) rfl
      have hsum : ((0 * 16 + 0) * 16 + c.toNat / 16) * 16 + c.toNat % 16 = c.toNat := by omega
      have hunit := HexUnit.digits hzero hzero hhigh' hlow'
      rw [hsum] at hunit
      rw [if_pos hcontrol]
      simp only [List.flatMap_cons, List.flatMap_nil, hhigh, hlow]
      exact .unit hunit
    · rw [if_neg hcontrol, List.flatMap_singleton]
      exact .raw (Nat.le_of_not_lt hcontrol) hquote hback

theorem spellsText_quote (s : String) : SpellsText s (Utf8.encode (quote s)) := by
  have hchars (cs : List Char) :
      SpellsChars cs ((cs.flatMap escapeChar).flatMap String.utf8EncodeChar) := by
    induction cs with
    | nil => exact .nil
    | cons c cs ih =>
        rw [List.flatMap_cons, List.flatMap_append]
        exact .cons (spellsChar_escapeChar c) ih
  rw [Utf8.encode_eq_flatMap, quote, String.toList_ofList, List.flatMap_append, List.flatMap_cons]
  exact .quoted (hchars s.toList)

/-! ## Values -/

namespace Value

theorem renderItems_eq_map (items : List Value) : renderItems items = items.map render := by
  induction items with
  | nil => rfl
  | cons v items ih => exact congrArg (v.render :: ·) ih

theorem renderMembers_eq_map (members : List (String × Value)) :
    renderMembers members = members.map fun m => quote m.1 ++ ":" ++ m.2.render := by
  induction members with
  | nil => rfl
  | cons m members ih => exact congrArg (_ :: ·) ih

end Value

/-- An item as it is written, with no gaps. -/
def Item.compact (v : Value) : Item :=
  ⟨[], v, Utf8.encode v.render, []⟩

def Member.compact (m : String × Value) : Member :=
  ⟨[], m.1, Utf8.encode (quote m.1), [], .compact m.2⟩

theorem spells_array {items : List Value}
    (h : ∀ v ∈ items, Spells (· = []) v (Utf8.encode v.render)) :
    Spells (· = []) (.array items) (Utf8.encode (Value.array items).render) := by
  rw [Value.render, Utf8.encode_append, Utf8.encode_append, encode_intercalate,
    Value.renderItems_eq_map]
  by_cases hne : items = []
  · subst hne
    exact .emptyArray rfl
  · have hspells : Spells (· = []) (.array ((items.map Item.compact).map Item.value))
        (0x5B :: listed ((items.map Item.compact).map Item.spelled) ++ [0x5D]) := by
      refine .array (mt List.map_eq_nil_iff.mp hne) ?_ ?_
      · intro i hi
        obtain ⟨v, -, rfl⟩ := List.mem_map.mp hi
        exact ⟨rfl, rfl⟩
      · intro i hi
        obtain ⟨v, hv, rfl⟩ := List.mem_map.mp hi
        exact h v hv
    have hspelled : Item.spelled ∘ Item.compact = Utf8.encode ∘ Value.render :=
      funext fun v => List.append_nil _
    rw [List.map_map, List.map_map, hspelled, show Item.value ∘ Item.compact = id from rfl,
      List.map_id, ← List.map_map] at hspells
    exact hspells

theorem spells_object {members : List (String × Value)}
    (h : ∀ m ∈ members, Spells (· = []) m.2 (Utf8.encode m.2.render)) :
    Spells (· = []) (.object members) (Utf8.encode (Value.object members).render) := by
  rw [Value.render, Utf8.encode_append, Utf8.encode_append, encode_intercalate,
    Value.renderMembers_eq_map, List.map_map]
  by_cases hne : members = []
  · subst hne
    exact .emptyObject rfl
  · have hspells : Spells (· = []) (.object ((members.map Member.compact).map Member.pair))
        (0x7B :: listed ((members.map Member.compact).map Member.spelled) ++ [0x7D]) := by
      refine .object (mt List.map_eq_nil_iff.mp hne) ?_ ?_ ?_
      · intro i hi
        obtain ⟨m, -, rfl⟩ := List.mem_map.mp hi
        exact ⟨rfl, rfl, rfl, rfl⟩
      · intro i hi
        obtain ⟨m, -, rfl⟩ := List.mem_map.mp hi
        exact spellsText_quote m.1
      · intro i hi
        obtain ⟨m, hm, rfl⟩ := List.mem_map.mp hi
        exact h m hm
    have hspelled : Member.spelled ∘ Member.compact =
        Utf8.encode ∘ fun m => quote m.1 ++ ":" ++ m.2.render := by
      funext m
      simp only [Function.comp, Utf8.encode_append, List.append_assoc]
      exact congrArg _ (congrArg (0x3A :: ·) (List.append_nil _))
    rw [List.map_map, List.map_map, hspelled,
      show Member.pair ∘ Member.compact = id from rfl, List.map_id] at hspells
    exact hspells

/-- The compact text of a value spells it without gaps. -/
theorem spells_render {depth : Nat} {v : Value} (h : v.Plain depth) :
    Spells (· = []) v (Utf8.encode v.render) := by
  induction h with
  | null => exact .null
  | bool _ b =>
      cases b with
      | true => exact .true
      | false => exact .false
  | integer _ _ _ => exact .integer _
  | text _ s => exact .text (spellsText_quote s)
  | array _ ih => exact spells_array ih
  | object _ ih => exact spells_object ih

/-! ## Settled values -/

/-- To set a new key adds a member. -/
theorem setMember_of_not_mem {key : String} {v : Value} {members : List (String × Value)}
    (h : key ∉ members.map Prod.fst) :
    Value.setMember key v members = members ++ [(key, v)] := by
  induction members with
  | nil => rfl
  | cons m members ih =>
      rw [List.map_cons, List.mem_cons, not_or] at h
      rw [Value.setMember, if_neg (Ne.symm h.1), ih h.2]
      rfl

theorem lasting_of_nodup {members : List (String × Value)} (h : (members.map Prod.fst).Nodup) :
    lasting members = members := by
  induction members using List.reverseRecOn with
  | nil => rfl
  | append_singleton members m ih =>
      rw [List.map_append, List.map_singleton, List.nodup_append] at h
      obtain ⟨hmembers, -, hdisjoint⟩ := h
      rw [lasting_concat, ih hmembers, setMember_of_not_mem]
      intro hm
      exact hdisjoint _ hm _ (List.mem_singleton_self _) rfl

theorem map_fst_lasting (members : List (String × Value)) :
    (lasting members).map Prod.fst = (members.map Prod.fst).eraseDups := by
  rw [lasting, List.map_map]
  exact List.map_id _

theorem mem_of_mem_lasting {members : List (String × Value)} {m : String × Value}
    (h : m ∈ lasting members) : m ∈ members := by
  obtain ⟨before, after, hmembers, -⟩ := exists_of_mem_lasting h
  rw [hmembers]
  exact List.mem_append_right _ List.mem_cons_self

namespace Value.Plain

variable {depth : Nat} {v : Value}

theorem mono (h : v.Plain depth) {more : Nat} (hle : depth ≤ more) : v.Plain more := by
  induction h generalizing more with
  | null => exact .null _
  | bool _ b => exact .bool _ b
  | integer _ hleast hgreatest => exact .integer _ hleast hgreatest
  | text _ s => exact .text _ s
  | array _ ih =>
      obtain ⟨more, rfl⟩ := Nat.exists_eq_add_of_le' (Nat.le_of_add_left_le hle)
      exact .array fun v hv => ih v hv (Nat.le_of_succ_le_succ hle)
  | object _ ih =>
      obtain ⟨more, rfl⟩ := Nat.exists_eq_add_of_le' (Nat.le_of_add_left_le hle)
      exact .object fun m hm => ih m hm (Nat.le_of_succ_le_succ hle)

/-- To resolve repeated keys leaves nothing but what was there. -/
theorem settled (h : v.Plain depth) : v.settled.Plain depth := by
  induction h with
  | null => exact .null _
  | bool _ b => exact .bool _ b
  | integer _ hleast hgreatest => exact .integer _ hleast hgreatest
  | text _ s => exact .text _ s
  | array _ ih =>
      rw [Value.settled, settledItems_eq_map]
      refine .array fun v hv => ?_
      obtain ⟨w, hw, rfl⟩ := List.mem_map.mp hv
      exact ih w hw
  | object _ ih =>
      rw [Value.settled, settledMembers_eq_map]
      refine .object fun m hm => ?_
      obtain ⟨n, hn, rfl⟩ := List.mem_map.mp (mem_of_mem_lasting hm)
      exact ih n hn

/-- Once resolved there is nothing left to resolve. -/
theorem settled_settled (h : v.Plain depth) : v.settled.settled = v.settled := by
  induction h with
  | null => rfl
  | bool => rfl
  | integer => rfl
  | text => rfl
  | array _ ih =>
      rw [Value.settled, Value.settled, settledItems_eq_map, settledItems_eq_map, List.map_map]
      exact congrArg Value.array (List.map_congr_left ih)
  | @object _ members _ ih =>
      have hmembers : (lasting (members.map fun m => (m.1, m.2.settled))).map
          (fun m => (m.1, m.2.settled)) =
            lasting (members.map fun m => (m.1, m.2.settled)) := by
        refine (List.map_congr_left fun m hm => ?_).trans (List.map_id _)
        obtain ⟨n, hn, rfl⟩ := List.mem_map.mp (mem_of_mem_lasting hm)
        exact Prod.ext rfl (ih n hn)
      rw [Value.settled, Value.settled, settledMembers_eq_map, settledMembers_eq_map, hmembers,
        lasting_of_nodup]
      rw [map_fst_lasting]
      exact nodup_eraseDups _

end Value.Plain

/-- The compact text of what is meant by a value is read as just that. -/
theorem read_render {v : Value} (h : v.Plain maxDepth) :
    read (Utf8.encode v.settled.render) = .ok v.settled := by
  have hnone : Blanks [] := List.forall_mem_nil _
  have hgap : ∀ bytes : List UInt8, bytes = [] → Blanks bytes := fun _ h => h ▸ hnone
  have hread := read_of_spells hgap (spells_render h.settled) h.settled hnone hnone
  rw [h.settled_settled, List.nil_append, List.append_nil] at hread
  exact hread

end Scrape.Json
