/-
Where an object ends.

A reading of a number may go on with further digits, but one of an object is over at its
closing brace.  What is read behind it is a blank and changes nothing, or is a fault
(`read_append_blanks`, `read_append_trailing`).  So a text that is cut off before its brace
is at fault wherever the cut is, and at fault for nothing but its end (`read_of_cut`).

That the last byte in front of the blanks is the brace (`closes_of_read`) is seen from the
modes: only a brace delivers an object.  The one mode in which a value is complete before
its last byte was read is that of a word, and no word stands for an object.
-/
import Scrape.Proofs.Json.Reading

namespace Scrape.Json

/-! ## Blanks and braces -/

theorem isBlank_iff {b : UInt8} :
    isBlank b = true ↔ b = 0x20 ∨ b = 0x09 ∨ b = 0x0A ∨ b = 0x0D := by
  simp only [isBlank, Bool.or_eq_true, beq_iff_eq, or_assoc]
  exact or_congr_right or_left_comm

/-- What is not blank has a first byte that is not. -/
theorem exists_of_not_blanks {bytes : List UInt8} (h : ¬ Blanks bytes) :
    ∃ gap b rest, bytes = gap ++ b :: rest ∧ Blanks gap ∧ isBlank b = false := by
  induction bytes with
  | nil => exact absurd (List.forall_mem_nil _) h
  | cons b bytes ih =>
      by_cases hb : isBlank b = true
      · have hbytes : ¬ Blanks bytes :=
          fun hbytes => h (List.forall_mem_cons.mpr ⟨isBlank_iff.mp hb, hbytes⟩)
        obtain ⟨gap, c, rest, rfl, hgap, hc⟩ := ih hbytes
        exact ⟨b :: gap, c, rest, rfl, List.forall_mem_cons.mpr ⟨isBlank_iff.mp hb, hgap⟩, hc⟩
      · exact ⟨[], b, bytes, rfl, List.forall_mem_nil _, Bool.not_eq_true _ ▸ hb⟩

/-- The last byte is a closing brace, but for blanks behind it. -/
def Closes (bytes : List UInt8) : Prop :=
  ∃ body tail, bytes = body ++ 0x7D :: tail ∧ Blanks tail

theorem closes_brace (bytes : List UInt8) {b : UInt8} (h : Char.ofUInt8 b = '}') :
    Closes (bytes ++ [b]) := by
  have hb : b = 0x7D := Decidable.byContradiction fun hne => State.ofUInt8_ne hne h
  exact ⟨bytes, [], by rw [hb], List.forall_mem_nil _⟩

theorem Closes.blank {bytes : List UInt8} (h : Closes bytes) {b : UInt8}
    (hb : isBlank b = true) : Closes (bytes ++ [b]) := by
  obtain ⟨body, tail, rfl, htail⟩ := h
  refine ⟨body, tail ++ [b], List.append_assoc _ _ _, ?_⟩
  exact List.forall_mem_append.mpr ⟨htail, List.forall_mem_singleton.mpr (isBlank_iff.mp hb)⟩

/-! ## What a mode tells of the bytes before it -/

def Value.IsObject : Value → Prop
  | .object _ => True
  | _ => False

/-- An object is complete behind its brace only. -/
def Mode.Tells (bytes : List UInt8) : Mode → Prop
  | .closed v => v.IsObject → Closes bytes
  | .word _ v => ¬ v.IsObject
  | _ => True

/-- A step that does not fail leads to such a mode. -/
def Move.Tells (bytes : List UInt8) (m : Move) : Prop :=
  ∀ t, m = .ok t → t.mode.Tells bytes

namespace State

variable {bytes : List UInt8} (stack : List Frame) (b : UInt8)

theorem tells_ok {s : State} (h : s.mode.Tells bytes) : Move.Tells bytes (.ok s) := by
  rintro _ ⟨⟩
  exact h

theorem tells_error (h : Halt) : Move.Tells bytes (.error h) :=
  fun _ ht => nomatch ht

/-- A value that is no object may be delivered anywhere. -/
theorem tells_deliver {v : Value} (hv : v.IsObject → Closes bytes) :
    (deliver v stack).mode.Tells bytes := by
  cases stack with
  | nil => exact hv
  | cons f stack =>
      cases f with
      | item items => exact trivial
      | member members key => exact trivial

theorem tells_beginValue : Move.Tells bytes (beginValue stack b) := by
  have hopen (mode : Mode) (hmode : mode.Tells bytes) :
      Move.Tells bytes (openWith stack mode) := by
    rw [openWith]
    split
    · exact tells_ok hmode
    · exact tells_error _
  rw [beginValue]
  split
  · exact tells_ok not_false
  · exact tells_ok not_false
  · exact tells_ok not_false
  · exact tells_ok trivial
  · exact hopen _ trivial
  · exact hopen _ trivial
  · split
    · exact tells_ok trivial
    · exact tells_error _

theorem tells_inWord {v : Value} (hv : ¬ v.IsObject) (rest : List Char) :
    Move.Tells bytes (inWord stack v b rest) := by
  cases rest with
  | nil => exact tells_error _
  | cons c rest =>
      rw [inWord]
      split
      · split
        · exact tells_ok (tells_deliver stack fun h => absurd h hv)
        · exact tells_ok hv
      · exact tells_error _

theorem tells_atItemEnd (items : List Value) : Move.Tells bytes (atItemEnd stack items b) := by
  rw [atItemEnd]
  split
  · exact tells_ok trivial
  · split
    · exact tells_ok trivial
    · exact tells_ok (tells_deliver stack False.elim)
    · exact tells_error _

theorem tells_atMemberEnd (members : List (String × Value)) :
    Move.Tells (bytes ++ [b]) (atMemberEnd stack members b) := by
  rw [atMemberEnd]
  split
  · exact tells_ok trivial
  · split
    · exact tells_ok trivial
    · next hb => exact tells_ok (tells_deliver stack fun _ => closes_brace bytes hb)
    · exact tells_error _

theorem tells_atClosed {v : Value} (hv : v.IsObject → Closes bytes) :
    Move.Tells (bytes ++ [b]) (atClosed v b) := by
  rw [atClosed]
  split
  · next hb => exact tells_ok fun h => (hv h).blank hb
  · exact tells_error _

theorem tells_inNumber (n : Numeral) : Move.Tells (bytes ++ [b]) (inNumber stack n b) := by
  rw [inNumber]
  split
  · exact tells_ok trivial
  · exact tells_error _
  · split
    · cases stack with
      | nil => exact tells_atClosed b False.elim
      | cons f stack =>
          cases f with
          | item items => exact tells_atItemEnd stack b _
          | member members key => exact tells_atMemberEnd stack b _
    · exact tells_error _

theorem tells_inText (role : Role) (acc : List UInt8) :
    Move.Tells bytes (inText stack role acc b) := by
  rw [inText]
  split
  · cases closeText acc with
    | error h => exact tells_error h
    | ok text =>
        cases role with
        | value => exact tells_ok (tells_deliver stack False.elim)
        | key members => exact tells_ok trivial
  · exact tells_ok trivial
  · split
    · exact tells_error _
    · exact tells_ok trivial

/-- Within an escape nothing is complete. -/
theorem tells_inEscape (role : Role) (acc : List UInt8) (e : Escape) :
    Move.Tells bytes (inEscape stack role acc e b) := by
  cases e with
  | mark =>
      rw [inEscape]
      split
      · exact tells_ok trivial
      · split
        · exact tells_ok trivial
        · exact tells_error _
  | unit lead digits =>
      rw [inEscape]
      split
      · exact tells_ok trivial
      · split
        · rw [endUnit.eq_def]
          split
          · split
            · exact tells_error _
            · split
              · exact tells_ok trivial
              · exact tells_ok trivial
          · split
            · exact tells_ok trivial
            · exact tells_error _
        · exact tells_error _
  | pair lead =>
      rw [inEscape]
      split
      · exact tells_ok trivial
      · exact tells_error _
  | pairMark lead =>
      rw [inEscape]
      split
      · exact tells_ok trivial
      · exact tells_error _

end State

theorem Mode.Tells.step {bytes : List UInt8} {s : State} (h : s.mode.Tells bytes) (b : UInt8) :
    Move.Tells (bytes ++ [b]) (s.step b) := by
  obtain ⟨stack, mode⟩ := s
  cases mode with
  | value =>
      simp only [State.step]
      split
      · exact State.tells_ok trivial
      · exact State.tells_beginValue stack b
  | firstItem =>
      simp only [State.step]
      split
      · exact State.tells_ok trivial
      · split
        · exact State.tells_ok (State.tells_deliver stack False.elim)
        · exact State.tells_beginValue _ b
  | itemEnd items => exact State.tells_atItemEnd stack b items
  | nextItem items =>
      simp only [State.step]
      split
      · exact State.tells_ok trivial
      · split
        · exact State.tells_error _
        · exact State.tells_beginValue _ b
  | firstKey =>
      simp only [State.step]
      split
      · exact State.tells_ok trivial
      · split
        · next hb => exact State.tells_ok (State.tells_deliver stack fun _ => closes_brace bytes hb)
        · exact State.tells_ok trivial
        · exact State.tells_error _
  | colon members key =>
      simp only [State.step]
      split
      · exact State.tells_ok trivial
      · split
        · exact State.tells_ok trivial
        · exact State.tells_error _
  | memberEnd members => exact State.tells_atMemberEnd stack b members
  | nextKey members =>
      simp only [State.step]
      split
      · exact State.tells_ok trivial
      · split
        · exact State.tells_ok trivial
        · exact State.tells_error _
        · exact State.tells_error _
  | word rest v => exact State.tells_inWord stack b h rest
  | number n => exact State.tells_inNumber stack b n
  | text role acc => exact State.tells_inText stack b role acc
  | escape role acc e => exact State.tells_inEscape stack b role acc e
  | closed v => exact State.tells_atClosed b h

theorem Mode.Tells.run {before bytes : List UInt8} {s t : State} (h : s.mode.Tells before)
    {offset : Nat} (hrun : s.run offset bytes = .ok t) : t.mode.Tells (before ++ bytes) := by
  induction bytes generalizing s offset before with
  | nil =>
      cases hrun
      rwa [List.append_nil]
  | cons b bytes ih =>
      rw [State.run] at hrun
      cases hstep : s.step b with
      | error halt => simp [hstep] at hrun
      | ok u =>
          rw [hstep] at hrun
          rw [List.append_cons]
          exact ih (h.step b u hstep) hrun

/-! ## Reading on behind an object -/

/-- What only the end of a text completes is a number. -/
theorem State.finish_cases {s : State} {v : Value} (h : s.finish = .ok v) :
    s.mode = .closed v ∨
      ∃ n number, s.mode = .number n ∧ s.stack = [] ∧ v = .number number := by
  obtain ⟨stack, mode⟩ := s
  cases mode with
  | closed w =>
      cases h
      exact .inl rfl
  | number n =>
      simp only [finish] at h
      cases hn : n.value with
      | error cause => simp [hn] at h
      | ok number =>
          cases stack with
          | nil =>
              simp only [hn, Except.ok.injEq] at h
              exact .inr ⟨n, number, rfl, rfl, h.symm⟩
          | cons f stack => cases f <;> simp [hn] at h
  | _ => cases h

/-- Where a reading starts is of account for the place of a fault only. -/
theorem State.reaches_of_run {s t : State} {bytes : List UInt8} {offset : Nat}
    (h : s.run offset bytes = .ok t) : s.Reaches bytes t := by
  induction bytes generalizing s offset with
  | nil =>
      cases h
      exact .refl _
  | cons b bytes ih =>
      rw [State.run] at h
      cases hstep : s.step b with
      | error halt => simp [hstep] at h
      | ok u =>
          rw [hstep] at h
          exact .cons hstep (ih h)

theorem read_eq_ok_iff {text : List UInt8} {v : Value} :
    read text = .ok v ↔ ∃ s, State.start.Reaches text s ∧ s.finish = .ok v := by
  constructor
  · intro h
    rw [read] at h
    cases hrun : State.start.run 0 text with
    | error fault => simp [hrun] at h
    | ok s =>
        refine ⟨s, State.reaches_of_run hrun, ?_⟩
        cases hend : s.finish with
        | error cause => simp [hrun, hend] at h
        | ok w => simpa [hrun, hend] using h
  · rintro ⟨s, hreaches, hend⟩
    rw [read, hreaches 0]
    simp only [hend]

/-- An object is complete before the text ends. -/
theorem reaches_of_read_object {text : List UInt8} {members : List (String × Value)}
    (h : read text = .ok (.object members)) :
    ∃ stack, State.start.Reaches text ⟨stack, .closed (.object members)⟩ := by
  obtain ⟨⟨stack, mode⟩, hreaches, hend⟩ := read_eq_ok_iff.mp h
  obtain hmode | ⟨n, number, -, -, hv⟩ := State.finish_cases hend
  · cases hmode
    exact ⟨stack, hreaches⟩
  · exact nomatch hv

/-- The text of an object ends with its brace. -/
theorem closes_of_read {text : List UInt8} {members : List (String × Value)}
    (h : read text = .ok (.object members)) : Closes text := by
  obtain ⟨stack, hreaches⟩ := reaches_of_read_object h
  have hstart : State.start.mode.Tells [] := trivial
  exact hstart.run (hreaches 0) trivial

namespace State

theorem reaches_closed_blanks (v : Value) (stack : List Frame) {gap : List UInt8}
    (h : Blanks gap) :
    ∃ stack', (State.mk stack (.closed v)).Reaches gap ⟨stack', .closed v⟩ := by
  induction gap generalizing stack with
  | nil => exact ⟨stack, .refl _⟩
  | cons b gap ih =>
      obtain ⟨hb, hgap⟩ := List.forall_mem_cons.mp h
      have hstep : (State.mk stack (.closed v)).step b = .ok ⟨[], .closed v⟩ :=
        if_pos (isBlank_iff.mpr hb)
      obtain ⟨stack', hreaches⟩ := ih [] hgap
      exact ⟨stack', .cons hstep hreaches⟩

end State

/-- Blanks behind an object are as good as none. -/
theorem read_append_blanks {text gap : List UInt8} {members : List (String × Value)}
    (h : read text = .ok (.object members)) (hgap : Blanks gap) :
    read (text ++ gap) = .ok (.object members) := by
  obtain ⟨stack, hreaches⟩ := reaches_of_read_object h
  obtain ⟨stack', hblanks⟩ := State.reaches_closed_blanks (.object members) stack hgap
  exact read_eq_ok_iff.mpr ⟨_, hreaches.trans hblanks, rfl⟩

/-- Anything else behind an object is a fault, at the first byte that is no blank. -/
theorem read_append_trailing {text gap : List UInt8} {members : List (String × Value)}
    (h : read text = .ok (.object members)) (hgap : Blanks gap) {b : UInt8}
    (hb : isBlank b = false) (rest : List UInt8) :
    read (text ++ gap ++ b :: rest) = .error
      (Fault.found .trailingBytes (text ++ gap ++ b :: rest) (text.length + gap.length + 1)) := by
  obtain ⟨stack, hreaches⟩ := reaches_of_read_object h
  obtain ⟨stack', hblanks⟩ := State.reaches_closed_blanks (.object members) stack hgap
  have hstep : (State.mk stack' (.closed (.object members))).step b =
      .error ⟨.trailingBytes, 0⟩ := if_neg (Bool.eq_false_iff.mp hb)
  have hrun : State.start.run 0 (text ++ gap ++ b :: rest) =
      .error (.trailingBytes, text.length + gap.length + 1) := by
    rw [State.run_append, hreaches.trans hblanks 0, Except.bind, State.run, hstep,
      List.length_append, Nat.zero_add]
    rfl
  rw [read, hrun]

/-- Blanks in front of a text do not change what is read. -/
theorem read_blanks_append {text gap : List UInt8} {v : Value} (hgap : Blanks gap) :
    read (gap ++ text) = .ok v ↔ read text = .ok v := by
  have hfront : State.start.Reaches gap State.start :=
    .blanks (State.value_awaits []).blank hgap
  have hsame (s : State) : State.start.Reaches (gap ++ text) s ↔ State.start.Reaches text s := by
    constructor
    · intro h
      have hrun := h 0
      rw [State.run_append, hfront 0] at hrun
      exact State.reaches_of_run hrun
    · exact hfront.trans
  simp only [read_eq_ok_iff, hsame]

/-! ## Cutting an object off -/

namespace State

/-- Nothing but a value that is no object can come of it. -/
def Spent (s : State) : Prop :=
  (∃ v, s.mode = .closed v ∧ ¬ v.IsObject) ∨ ∃ n, s.mode = .number n ∧ s.stack = []

theorem spent_of_finish {s : State} {v : Value} (h : s.finish = .ok v) (hv : ¬ v.IsObject) :
    s.Spent := by
  obtain hmode | ⟨n, -, hmode, hstack, -⟩ := finish_cases h
  · exact .inl ⟨v, hmode, hv⟩
  · exact .inr ⟨n, hmode, hstack⟩

theorem spent_atClosed {v : Value} (hv : ¬ v.IsObject) {b : UInt8} {t : State}
    (h : atClosed v b = .ok t) : t.Spent := by
  rw [atClosed] at h
  split at h
  · cases h
    exact .inl ⟨v, rfl, hv⟩
  · cases h

theorem Spent.step {s t : State} (hs : s.Spent) {b : UInt8} (h : s.step b = .ok t) :
    t.Spent := by
  obtain ⟨stack, mode⟩ := s
  obtain ⟨v, hmode, hv⟩ | ⟨n, hmode, hstack⟩ := hs
  · cases hmode
    exact spent_atClosed hv h
  · cases hmode
    cases hstack
    simp only [State.step, inNumber] at h
    split at h
    · cases h
      exact .inr ⟨_, rfl, rfl⟩
    · cases h
    · split at h
      · next number hnumber =>
          have hv : ¬ (Value.number number).IsObject := not_false
          exact spent_atClosed hv h
      · cases h

theorem Spent.run {s t : State} (hs : s.Spent) {offset : Nat} {bytes : List UInt8}
    (h : s.run offset bytes = .ok t) : t.Spent := by
  induction bytes generalizing s offset with
  | nil =>
      cases h
      exact hs
  | cons b bytes ih =>
      rw [State.run] at h
      cases hstep : s.step b with
      | error halt => simp [hstep] at h
      | ok u =>
          rw [hstep] at h
          exact ih (hs.step hstep) h

end State

/-- The beginning of an object is an object itself, or at fault at its own end. -/
theorem read_of_append {text rest : List UInt8} {members : List (String × Value)}
    (h : read (text ++ rest) = .ok (.object members)) :
    (∃ members', read text = .ok (.object members')) ∨
      ∃ cause, read text = .error (Fault.found cause text text.length) := by
  obtain ⟨stack, hreaches⟩ := reaches_of_read_object h
  have hrun := hreaches 0
  rw [State.run_append] at hrun
  cases hfront : State.start.run 0 text with
  | error fault =>
      rw [hfront] at hrun
      cases hrun
  | ok s =>
      rw [hfront] at hrun
      cases hend : s.finish with
      | error cause =>
          rw [read, hfront]
          exact .inr ⟨cause, by simp only [hend]⟩
      | ok v =>
          have hread := read_eq_ok_iff.mpr ⟨s, State.reaches_of_run hfront, hend⟩
          by_cases hv : v.IsObject
          · cases v with
            | object members' => exact .inl ⟨members', hread⟩
            | _ => exact hv.elim
          · obtain ⟨w, hmode, hw⟩ | ⟨n, hmode, -⟩ := (State.spent_of_finish hend hv).run hrun
            · cases hmode
              exact absurd trivial hw
            · cases hmode

/-- If more than blanks are cut off, what is left is at fault at its own end. -/
theorem read_of_cut {text rest : List UInt8} {members : List (String × Value)}
    (h : read (text ++ rest) = .ok (.object members)) (hrest : ¬ Blanks rest) :
    ∃ cause, read text = .error (Fault.found cause text text.length) := by
  obtain ⟨members', hread⟩ | hfault := read_of_append h
  · obtain ⟨gap, b, rest', rfl, hgap, hb⟩ := exists_of_not_blanks hrest
    rw [← List.append_assoc, read_append_trailing hread hgap hb] at h
    cases h
  · exact hfault

end Scrape.Json
