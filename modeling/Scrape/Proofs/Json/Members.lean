/-
Keys of objects that are read.

A text may give a key of an object again and again; the value that is read has it
once.  All members get into an object by `Value.setMember`, which puts the value
of a key that is there in the place of the old one.  So the members that the
machine has gathered have distinct keys at every byte, those of the containers
that wait on its stack included, and whatever value it comes to is `Distinct`:
no object in it, however deep, has a key twice.
-/
import Mathlib.Data.List.Nodup
import Scrape.Payload

namespace Scrape.Json

namespace Value

/-- No object in the value has a key twice. -/
inductive Distinct : Value → Prop where
  | null : Distinct .null
  | bool (b : Bool) : Distinct (.bool b)
  | number (n : Number) : Distinct (.number n)
  | text (s : String) : Distinct (.text s)
  | array {items : List Value} : (∀ v ∈ items, Distinct v) → Distinct (.array items)
  | object {members : List (String × Value)} :
      (members.map Prod.fst).Nodup → (∀ m ∈ members, Distinct m.2) → Distinct (.object members)

/-- What `Distinct` asks of the members of an object. -/
def DistinctMembers (members : List (String × Value)) : Prop :=
  (members.map Prod.fst).Nodup ∧ ∀ m ∈ members, m.2.Distinct

theorem distinctMembers_nil : DistinctMembers [] :=
  ⟨List.nodup_nil, fun _ hm => absurd hm List.not_mem_nil⟩

/-- To set a key adds no other key. -/
theorem mem_keys_setMember {key k : String} {value : Value} {members : List (String × Value)} :
    k ∈ (setMember key value members).map Prod.fst ↔ k = key ∨ k ∈ members.map Prod.fst := by
  induction members with
  | nil => simp [setMember]
  | cons m rest ih =>
      rw [setMember]
      by_cases hm : m.1 = key
      · rw [if_pos hm, List.map_cons, List.map_cons, List.mem_cons, List.mem_cons, hm]
        exact ⟨.inr, fun h => h.elim .inl id⟩
      · rw [if_neg hm, List.map_cons, List.map_cons, List.mem_cons, List.mem_cons, ih]
        exact or_left_comm

theorem DistinctMembers.set {members : List (String × Value)} (h : DistinctMembers members)
    (key : String) {value : Value} (hvalue : value.Distinct) :
    DistinctMembers (setMember key value members) := by
  induction members with
  | nil =>
      refine ⟨List.nodup_singleton key, ?_⟩
      intro m hm
      rw [List.mem_singleton.mp hm]
      exact hvalue
  | cons m rest ih =>
      obtain ⟨hnew, hkeys⟩ := List.nodup_cons.mp h.1
      obtain ⟨hm, hrest⟩ := List.forall_mem_cons.mp h.2
      rw [setMember]
      by_cases hkey : m.1 = key
      · rw [if_pos hkey]
        exact ⟨List.nodup_cons.mpr ⟨hkey ▸ hnew, hkeys⟩, List.forall_mem_cons.mpr ⟨hvalue, hrest⟩⟩
      · rw [if_neg hkey]
        obtain ⟨hkeys', hvalues'⟩ := ih ⟨hkeys, hrest⟩
        refine ⟨List.nodup_cons.mpr ⟨?_, hkeys'⟩, List.forall_mem_cons.mpr ⟨hm, hvalues'⟩⟩
        rw [mem_keys_setMember, not_or]
        exact ⟨hkey, hnew⟩

end Value

open Value (DistinctMembers distinctMembers_nil)

/-! ## The machine between two bytes -/

def Frame.Distinct : Frame → Prop
  | .item items => ∀ v ∈ items, v.Distinct
  | .member members _ => DistinctMembers members

def Role.Distinct : Role → Prop
  | .value => True
  | .key members => DistinctMembers members

def Mode.Distinct : Mode → Prop
  | .value | .firstItem | .firstKey | .number _ => True
  | .itemEnd items | .nextItem items => ∀ v ∈ items, v.Distinct
  | .colon members _ | .memberEnd members | .nextKey members => DistinctMembers members
  | .word _ v | .closed v => v.Distinct
  | .text role _ | .escape role _ _ => role.Distinct

/-- What the machine has gathered has no key twice in one object. -/
structure State.Distinct (s : State) : Prop where
  stack : ∀ f ∈ s.stack, f.Distinct
  mode : s.mode.Distinct

/-- A step that does not fail leads to such a state. -/
def Move.Distinct (m : Move) : Prop :=
  ∀ t, m = .ok t → t.Distinct

theorem Move.distinct_ok {s : State} (h : s.Distinct) : Move.Distinct (.ok s) := by
  rintro _ ⟨⟩
  exact h

theorem Move.distinct_error (h : Halt) : Move.Distinct (.error h) :=
  fun _ ht => nomatch ht

namespace State

open Move (distinct_ok distinct_error)

variable {stack : List Frame} (hstack : ∀ f ∈ stack, f.Distinct)
include hstack

theorem distinct_deliver {v : Value} (hv : v.Distinct) : (deliver v stack).Distinct := by
  cases stack with
  | nil => exact ⟨hstack, hv⟩
  | cons f stack =>
      obtain ⟨hf, hrest⟩ := List.forall_mem_cons.mp hstack
      cases f with
      | item items => exact ⟨hrest, List.forall_mem_cons.mpr ⟨hv, hf⟩⟩
      | member members key => exact ⟨hrest, hf.set key hv⟩

theorem distinct_beginValue (b : UInt8) : Move.Distinct (beginValue stack b) := by
  have hopen : ∀ mode : Mode, mode.Distinct → Move.Distinct (openWith stack mode) := by
    intro mode hmode
    rw [openWith]
    split
    · exact distinct_ok ⟨hstack, hmode⟩
    · exact distinct_error _
  rw [beginValue]
  split
  · exact distinct_ok ⟨hstack, .null⟩
  · exact distinct_ok ⟨hstack, .bool true⟩
  · exact distinct_ok ⟨hstack, .bool false⟩
  · exact distinct_ok ⟨hstack, trivial⟩
  · exact hopen _ trivial
  · exact hopen _ trivial
  · split
    · exact distinct_ok ⟨hstack, trivial⟩
    · exact distinct_error _

theorem distinct_beginItem {items : List Value} (hitems : ∀ v ∈ items, v.Distinct) (b : UInt8) :
    Move.Distinct (beginValue (.item items :: stack) b) := by
  refine distinct_beginValue ?_ b
  rw [List.forall_mem_cons]
  exact ⟨hitems, hstack⟩

theorem distinct_inWord {v : Value} (hv : v.Distinct) (b : UInt8) (rest : List Char) :
    Move.Distinct (inWord stack v b rest) := by
  cases rest with
  | nil => exact distinct_error _
  | cons c rest =>
      rw [inWord]
      split
      · split
        · exact distinct_ok (distinct_deliver hstack hv)
        · exact distinct_ok ⟨hstack, hv⟩
      · exact distinct_error _

theorem distinct_atItemEnd {items : List Value} (hitems : ∀ v ∈ items, v.Distinct) (b : UInt8) :
    Move.Distinct (atItemEnd stack items b) := by
  rw [atItemEnd]
  split
  · exact distinct_ok ⟨hstack, hitems⟩
  · split
    · exact distinct_ok ⟨hstack, hitems⟩
    · refine distinct_ok (distinct_deliver hstack (.array ?_))
      intro v hv
      exact hitems v (List.mem_reverse.mp hv)
    · exact distinct_error _

theorem distinct_atMemberEnd {members : List (String × Value)} (hmembers : DistinctMembers members)
    (b : UInt8) : Move.Distinct (atMemberEnd stack members b) := by
  rw [atMemberEnd]
  split
  · exact distinct_ok ⟨hstack, hmembers⟩
  · split
    · exact distinct_ok ⟨hstack, hmembers⟩
    · exact distinct_ok (distinct_deliver hstack (.object hmembers.1 hmembers.2))
    · exact distinct_error _

omit hstack in
theorem distinct_atClosed {v : Value} (hv : v.Distinct) (b : UInt8) :
    Move.Distinct (atClosed v b) := by
  rw [atClosed]
  split
  · exact distinct_ok ⟨fun _ hf => absurd hf List.not_mem_nil, hv⟩
  · exact distinct_error _

theorem distinct_behind {v : Value} (hv : v.Distinct) (b : UInt8) :
    Move.Distinct (behind v b stack) := by
  cases stack with
  | nil => exact distinct_atClosed hv b
  | cons f stack =>
      obtain ⟨hf, hrest⟩ := List.forall_mem_cons.mp hstack
      cases f with
      | item items => exact distinct_atItemEnd hrest (List.forall_mem_cons.mpr ⟨hv, hf⟩) b
      | member members key => exact distinct_atMemberEnd hrest (hf.set key hv) b

theorem distinct_inNumber (n : Numeral) (b : UInt8) : Move.Distinct (inNumber stack n b) := by
  rw [inNumber]
  split
  · exact distinct_ok ⟨hstack, trivial⟩
  · exact distinct_error _
  · split
    · exact distinct_behind hstack (.number _) b
    · exact distinct_error _

theorem distinct_inText {role : Role} (hrole : role.Distinct) (bytes : List UInt8) (b : UInt8) :
    Move.Distinct (inText stack role bytes b) := by
  rw [inText]
  split
  · cases closeText bytes with
    | error h => exact distinct_error h
    | ok text =>
        cases role with
        | value => exact distinct_ok (distinct_deliver hstack (.text text))
        | key members => exact distinct_ok ⟨hstack, hrole⟩
  · exact distinct_ok ⟨hstack, hrole⟩
  · split
    · exact distinct_error _
    · exact distinct_ok ⟨hstack, hrole⟩

theorem distinct_endUnit {role : Role} (hrole : role.Distinct) (bytes : List UInt8)
    (lead : Option Nat) (n : Nat) : Move.Distinct (endUnit stack role bytes lead n) := by
  rw [endUnit.eq_def]
  split
  · split
    · exact distinct_error _
    · split
      · exact distinct_ok ⟨hstack, hrole⟩
      · exact distinct_ok ⟨hstack, hrole⟩
  · split
    · exact distinct_ok ⟨hstack, hrole⟩
    · exact distinct_error _

/-- An escape adds to a text and has no part in any container. -/
theorem distinct_inEscape {role : Role} (hrole : role.Distinct) (bytes : List UInt8) (e : Escape)
    (b : UInt8) : Move.Distinct (inEscape stack role bytes e b) := by
  cases e with
  | mark =>
      rw [inEscape]
      split
      · exact distinct_ok ⟨hstack, hrole⟩
      · split
        · exact distinct_ok ⟨hstack, hrole⟩
        · exact distinct_error _
  | unit lead digits =>
      rw [inEscape]
      split
      · exact distinct_ok ⟨hstack, hrole⟩
      · split
        · exact distinct_endUnit hstack hrole bytes lead _
        · exact distinct_error _
  | pair lead =>
      rw [inEscape]
      split
      · exact distinct_ok ⟨hstack, hrole⟩
      · exact distinct_error _
  | pairMark lead =>
      rw [inEscape]
      split
      · exact distinct_ok ⟨hstack, hrole⟩
      · exact distinct_error _

omit hstack in
/-- What the machine has gathered stays distinct, whatever the next byte is. -/
theorem Distinct.step {s : State} (h : s.Distinct) (b : UInt8) : Move.Distinct (s.step b) := by
  have hstay : Move.Distinct (.ok s) := distinct_ok h
  have hnone : ∀ v ∈ ([] : List Value), v.Distinct := List.forall_mem_nil _
  have hempty : (Value.object []).Distinct := .object List.nodup_nil (List.forall_mem_nil _)
  obtain ⟨hstack, hmode⟩ := h
  rw [State.step]
  -- containers are opened, closed and filled by the functions above; what is left are blanks,
  -- commas and colons
  cases hm : s.mode with
  | value =>
      simp only
      split
      · exact hstay
      · exact distinct_beginValue hstack b
  | firstItem =>
      simp only
      split
      · exact hstay
      · split
        · exact distinct_ok (distinct_deliver hstack (.array hnone))
        · exact distinct_beginItem hstack hnone b
  | itemEnd items =>
      rw [hm] at hmode
      exact distinct_atItemEnd hstack hmode b
  | nextItem items =>
      rw [hm] at hmode
      simp only
      split
      · exact hstay
      · split
        · exact distinct_error _
        · exact distinct_beginItem hstack hmode b
  | firstKey =>
      simp only
      split
      · exact hstay
      · split
        · exact distinct_ok (distinct_deliver hstack hempty)
        · exact distinct_ok ⟨hstack, distinctMembers_nil⟩
        · exact distinct_error _
  | colon members key =>
      rw [hm] at hmode
      simp only
      split
      · exact hstay
      · split
        · exact distinct_ok ⟨List.forall_mem_cons.mpr ⟨hmode, hstack⟩, trivial⟩
        · exact distinct_error _
  | memberEnd members =>
      rw [hm] at hmode
      exact distinct_atMemberEnd hstack hmode b
  | nextKey members =>
      rw [hm] at hmode
      simp only
      split
      · exact hstay
      · split
        · exact distinct_ok ⟨hstack, hmode⟩
        · exact distinct_error _
        · exact distinct_error _
  | word rest v =>
      rw [hm] at hmode
      exact distinct_inWord hstack hmode b rest
  | number n => exact distinct_inNumber hstack n b
  | text role bytes =>
      rw [hm] at hmode
      exact distinct_inText hstack hmode bytes b
  | escape role bytes e =>
      rw [hm] at hmode
      exact distinct_inEscape hstack hmode bytes e b
  | closed v =>
      rw [hm] at hmode
      exact distinct_atClosed hmode b

omit hstack in
theorem Distinct.run {s t : State} (h : s.Distinct) {offset : Nat} {bytes : List UInt8}
    (hrun : s.run offset bytes = .ok t) : t.Distinct := by
  induction bytes generalizing s offset with
  | nil =>
      cases hrun
      exact h
  | cons b bytes ih =>
      rw [State.run] at hrun
      cases hstep : s.step b with
      | error halt => simp [hstep] at hrun
      | ok u =>
          rw [hstep] at hrun
          exact ih (h.step b u hstep) hrun

omit hstack in
theorem start_distinct : start.Distinct :=
  ⟨List.forall_mem_nil _, trivial⟩

omit hstack in
/-- A value is complete when the machine says that it is closed, or when it is a
number that only the end of the text ended. -/
theorem Distinct.finish {s : State} (h : s.Distinct) {v : Value} (hv : s.finish = .ok v) :
    v.Distinct := by
  obtain ⟨-, hmode⟩ := h
  rw [State.finish] at hv
  cases hm : s.mode with
  | closed w =>
      rw [hm] at hmode hv
      cases hv
      exact hmode
  | number n =>
      simp only [hm] at hv
      split at hv
      · exact nomatch hv
      · cases hv
        exact .number _
      · exact nomatch hv
      · exact nomatch hv
  | _ => simp [hm] at hv

end State

/-- No object in a value that was read has a key twice. -/
theorem read_distinct {text : List UInt8} {v : Value} (h : read text = .ok v) : v.Distinct := by
  rw [read] at h
  split at h
  · exact nomatch h
  · next s hs =>
      split at h
      · next w hw =>
          cases h
          exact (State.start_distinct.run hs).finish hw
      · exact nomatch h

end Scrape.Json

namespace Scrape.Payload

/-- The labels of a payload have distinct keys. -/
theorem labels_nodup {bytes : List UInt8} {pairs : List (String × String)}
    (h : labels bytes = .ok pairs) : (pairs.map Prod.fst).Nodup := by
  rw [labels] at h
  split at h
  · exact nomatch h
  · split at h
    · exact nomatch h
    · next v hv =>
        cases v with
        | object members =>
            cases h
            cases Json.read_distinct hv with
            | object hkeys hvalues =>
                rw [List.map_map]
                exact hkeys
        | _ => exact nomatch h

end Scrape.Payload
