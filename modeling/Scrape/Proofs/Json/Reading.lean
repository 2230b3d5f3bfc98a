/-
Reading what was spelled.

The machine takes one byte after another, so a reading of a spelling is put
together from readings of its parts (`State.Reaches`).  A part of a text leaves its
bytes behind, a text that is closed goes where its role says, and a value goes to
the container that waits for it.

Two things stand in the way of saying so of values as simply.  A number has no end
of its own: the machine knows that it is over when it sees what comes next.  So a
value is read up to a state that is as good as the one in which it was delivered,
for whatever may come behind a value (`State.AsGood`).  And a value may begin in
several modes, as the first item of an array or as another one or behind a colon,
which differ in what else they admit (`State.Awaits`).
-/
import Mathlib.Tactic.IntervalCases
import Scrape.Json.Reader
import Scrape.Proofs.Json.Spelling
import Scrape.Utf8.Lemmas

namespace Scrape.Json.State

variable {s t u : State} {stack : List Frame} {bytes more : List UInt8}

/-! ## Readings and their parts -/

/-- The bytes lead from one state to the other. -/
def Reaches (s : State) (bytes : List UInt8) (t : State) : Prop :=
  ∀ offset, s.run offset bytes = .ok t

theorem Reaches.refl (s : State) : s.Reaches [] s :=
  fun _ => rfl

theorem Reaches.trans (h : s.Reaches bytes t) (h' : t.Reaches more u) :
    s.Reaches (bytes ++ more) u := by
  intro offset
  rw [run_append, h offset]
  exact h' _

theorem Reaches.cons {b : UInt8} (hstep : s.step b = .ok t) (h : t.Reaches bytes u) :
    s.Reaches (b :: bytes) u := by
  intro offset
  rw [run, hstep]
  exact h _

theorem Reaches.of_step {b : UInt8} (hstep : s.step b = .ok t) : s.Reaches [b] t :=
  .cons hstep (.refl t)

/-- Blanks change nothing where each of them changes nothing. -/
theorem Reaches.blanks (h : ∀ b, isBlank b = true → s.step b = .ok s) (hbytes : Blanks bytes) :
    s.Reaches bytes s := by
  induction bytes with
  | nil => exact .refl s
  | cons b bytes ih =>
      obtain ⟨hb, hbytes⟩ := List.forall_mem_cons.mp hbytes
      refine .cons (h b ?_) (ih hbytes)
      obtain rfl | rfl | rfl | rfl := hb <;> rfl

/-! ## Texts -/

theorem ofUInt8_ne {b d : UInt8} (h : b ≠ d) : Char.ofUInt8 b ≠ Char.ofUInt8 d := by
  intro heq
  have hnat : b.toUInt32.toNat = d.toUInt32.toNat := congrArg Char.toNat heq
  rw [UInt8.toNat_toUInt32, UInt8.toNat_toUInt32] at hnat
  exact h (UInt8.toNat_inj.mp hnat)

variable (role : Role) (acc : List UInt8)

/-- A byte that is no quote, no backslash and no control character stands for itself. -/
theorem step_raw {b : UInt8} (hcontrol : 0x20 ≤ b.toNat) (hquote : b ≠ 0x22) (hback : b ≠ 0x5C) :
    (State.mk stack (.text role acc)).step b = .ok ⟨stack, .text role (b :: acc)⟩ := by
  show inText stack role acc b = _
  rw [inText]
  split
  next h => exact absurd h (ofUInt8_ne hquote)
  next h => exact absurd h (ofUInt8_ne hback)
  next => rw [if_neg (Nat.not_lt.mpr hcontrol)]

theorem reaches_raw (h : ∀ b ∈ bytes, 0x20 ≤ b.toNat ∧ b ≠ 0x22 ∧ b ≠ 0x5C) :
    (State.mk stack (.text role acc)).Reaches bytes ⟨stack, .text role (bytes.reverse ++ acc)⟩ := by
  induction bytes generalizing acc with
  | nil => exact .refl _
  | cons b bytes ih =>
      obtain ⟨⟨hcontrol, hquote, hback⟩, hbytes⟩ := List.forall_mem_cons.mp h
      rw [List.reverse_cons, List.append_assoc, List.singleton_append]
      exact .cons (step_raw role acc hcontrol hquote hback) (ih (b :: acc) hbytes)

/-- The bytes of a character that may stand for itself may stand for themselves. -/
theorem raw_of_mem_utf8EncodeChar {c : Char} (hcontrol : 0x20 ≤ c.toNat) (hquote : c ≠ '"')
    (hback : c ≠ '\\') {b : UInt8} (h : b ∈ String.utf8EncodeChar c) :
    0x20 ≤ b.toNat ∧ b ≠ 0x22 ∧ b ≠ 0x5C := by
  have hne {d : Char} (hcd : c ≠ d) : c.toNat ≠ d.toNat :=
    fun heq => hcd (Char.toNat_inj.mp heq)
  obtain ⟨-, hb | hb⟩ := Utf8.toNat_of_mem_utf8EncodeChar h
  · refine ⟨hb ▸ hcontrol, ?_, ?_⟩
    · rintro rfl
      exact hne hquote hb.symm
    · rintro rfl
      exact hne hback hb.symm
  · refine ⟨by omega, ?_, ?_⟩
    · rintro rfl
      exact absurd hb (by decide)
    · rintro rfl
      exact absurd hb (by decide)

theorem hexDigit?_of_hexDigit {d : Nat} {b : UInt8} (h : HexDigit d b) : hexDigit? b = some d := by
  cases h with
  | decimal hd hb =>
      rw [hexDigit?, if_pos (by omega), hb, Nat.add_sub_cancel_left]
  | upper hd hb =>
      rw [hexDigit?, if_neg (by omega), if_pos (by omega), hb, Nat.add_sub_cancel_left,
        Nat.add_comm]
  | lower hd hb =>
      rw [hexDigit?, if_neg (by omega), if_neg (by omega), if_pos (by omega), hb,
        Nat.add_sub_cancel_left, Nat.add_comm]

/-- Four digits are judged when all are there. -/
theorem reaches_unit {n : Nat} {digits : List UInt8} (h : HexUnit n digits) (lead : Option Nat)
    (hend : endUnit stack role acc lead n = .ok t) :
    (State.mk stack (.escape role acc (.unit lead []))).Reaches digits t := by
  obtain ⟨h₁, h₂, h₃, h₄⟩ := h
  rename_i d₁ d₂ d₃ d₄ b₁ b₂ b₃ b₄
  have hnumber : hexNumber? ([b₁, b₂, b₃] ++ [b₄]) =
      some (((d₁ * 16 + d₂) * 16 + d₃) * 16 + d₄) := by
    simp [hexNumber?, hexDigit?_of_hexDigit h₁, hexDigit?_of_hexDigit h₂,
      hexDigit?_of_hexDigit h₃, hexDigit?_of_hexDigit h₄]
  have hlast : inEscape stack role acc (.unit lead [b₁, b₂, b₃]) b₄ = .ok t := by
    rw [inEscape, if_neg (show ¬ [b₁, b₂, b₃].length < 3 from Nat.lt_irrefl 3), hnumber]
    exact hend
  exact .cons rfl (.cons rfl (.cons rfl (.of_step hlast)))

/-- No character is one of the surrogates. -/
theorem toNat_char_cases (c : Char) : c.toNat < 0xD800 ∨ 0xE000 ≤ c.toNat ∧ c.toNat < 0x110000 :=
  c.valid

/-- A unit that is no surrogate is a character. -/
theorem endUnit_char (c : Char) :
    endUnit stack role acc none c.toNat = .ok ⟨stack, .text role (appendChar acc c)⟩ := by
  have hc := toNat_char_cases c
  rw [endUnit]
  simp only
  rw [if_neg (by omega), if_neg (by omega), Char.ofNat_toNat]

/-- The first half of a pair waits for the second. -/
theorem endUnit_high {n : Nat} (h : n < 0x400) :
    endUnit stack role acc none (0xD800 + n) =
      .ok ⟨stack, .escape role acc (.pair (0xD800 + n))⟩ := by
  rw [endUnit]
  simp only
  rw [if_neg (by omega), if_pos (by omega)]

theorem endUnit_low {c : Char} (h : 0x10000 ≤ c.toNat) :
    endUnit stack role acc (some (0xD800 + (c.toNat - 0x10000) / 0x400))
        (0xDC00 + (c.toNat - 0x10000) % 0x400) =
      .ok ⟨stack, .text role (appendChar acc c)⟩ := by
  have hc := toNat_char_cases c
  have hsum : 0x10000 + (0xD800 + (c.toNat - 0x10000) / 0x400 - 0xD800) * 0x400 +
      (0xDC00 + (c.toNat - 0x10000) % 0x400 - 0xDC00) = c.toNat := by
    omega
  rw [endUnit]
  simp only
  rw [if_pos (by omega), hsum, Char.ofNat_toNat]

/-- A character between quotes leaves its bytes, however it is spelled. -/
theorem reaches_char {c : Char} (h : SpellsChar c bytes) :
    (State.mk stack (.text role acc)).Reaches bytes ⟨stack, .text role (appendChar acc c)⟩ := by
  cases h with
  | raw hcontrol hquote hback =>
      exact reaches_raw role acc fun b hb => raw_of_mem_utf8EncodeChar hcontrol hquote hback hb
  | letter hletter =>
      refine .cons rfl (.of_step ?_)
      simp only [letters, List.mem_cons, Prod.mk.injEq, List.not_mem_nil, or_false] at hletter
      rcases hletter with h | h | h | h | h | h | h | h
      all_goals
        obtain ⟨rfl, rfl⟩ := h
        rfl
  | unit hunit =>
      exact .cons rfl (.cons rfl (reaches_unit role acc hunit none (endUnit_char role acc c)))
  | pair hc hhigh hlow =>
      have hc' := toNat_char_cases c
      refine .cons rfl (.cons rfl (.trans (t := ⟨stack, .escape role acc (.pair _)⟩)
        (reaches_unit role acc hhigh none (endUnit_high role acc (by omega))) ?_))
      exact .cons rfl (.cons rfl (reaches_unit role acc hlow _ (endUnit_low role acc hc)))

theorem reaches_chars {cs : List Char} (h : SpellsChars cs bytes) :
    (State.mk stack (.text role acc)).Reaches bytes
      ⟨stack, .text role ((cs.flatMap String.utf8EncodeChar).reverse ++ acc)⟩ := by
  induction h generalizing acc with
  | nil => exact .refl _
  | cons hc _ ih =>
      rw [List.flatMap_cons, List.reverse_append, List.append_assoc]
      exact (reaches_char role acc hc).trans (ih _)

/-- A text goes where its role says. -/
theorem reaches_text {text : String} (h : SpellsText text bytes)
    (hstart : s.step 0x22 = .ok ⟨stack, .text role []⟩) :
    s.Reaches bytes (endText stack role text) := by
  obtain ⟨hchars⟩ := h
  refine (Reaches.cons hstart (reaches_chars role [] hchars)).trans (.of_step ?_)
  have hclose : closeText ((text.toList.flatMap String.utf8EncodeChar).reverse ++ []) =
      .ok text := by
    rw [closeText, List.append_nil, List.reverse_reverse, Utf8.decode_flatMap]
    exact congrArg Except.ok String.ofList_toList
  show (closeText _).map (endText stack role) = .ok (endText stack role text)
  rw [hclose]
  rfl

/-! ## Before a value and behind it -/

/-- A value may begin in the state, and goes to the stack when it is complete. -/
structure Awaits (s : State) (stack : List Frame) : Prop where
  blank : ∀ b, isBlank b = true → s.step b = .ok s
  first : ∀ b, isBlank b = false → b ≠ 0x5D → s.step b = beginValue stack b

/-- A byte that may stand behind a value. -/
def Delimiter (b : UInt8) : Prop :=
  isBlank b = true ∨ b = 0x2C ∨ b = 0x5D ∨ b = 0x7D

/-- The state does what the other does, with whatever may come behind a value and at the
end of the text. -/
structure AsGood (s t : State) : Prop where
  step : ∀ b, Delimiter b → s.step b = t.step b
  finish : s.finish = t.finish

theorem value_awaits (stack : List Frame) : Awaits ⟨stack, .value⟩ stack where
  blank := fun _ hb => if_pos hb
  first := fun _ hb _ => if_neg (by rw [hb]; decide)

theorem firstItem_awaits (stack : List Frame) :
    Awaits ⟨stack, .firstItem⟩ (.item [] :: stack) where
  blank := fun _ hb => if_pos hb
  first := by
    intro b hb hend
    have hchar : Char.ofUInt8 b ≠ ']' := ofUInt8_ne hend
    simp [State.step, hb, hchar]

theorem nextItem_awaits (items : List Value) (stack : List Frame) :
    Awaits ⟨stack, .nextItem items⟩ (.item items :: stack) where
  blank := fun _ hb => if_pos hb
  first := by
    intro b hb hend
    have hchar : Char.ofUInt8 b ≠ ']' := ofUInt8_ne hend
    simp [State.step, hb, hchar]

theorem AsGood.refl (s : State) : s.AsGood s :=
  ⟨fun _ _ => rfl, rfl⟩

theorem step_deliver_blank (v : Value) (stack : List Frame) {b : UInt8} (hb : isBlank b = true) :
    (deliver v stack).step b = .ok (deliver v stack) := by
  cases stack with
  | nil => exact if_pos hb
  | cons f stack =>
      cases f with
      | item items => exact if_pos hb
      | member members key => exact if_pos hb

theorem isBlank_of_blanks (h : Blanks bytes) {b : UInt8} (hb : b ∈ bytes) : isBlank b = true := by
  obtain rfl | rfl | rfl | rfl := h b hb <;> rfl

/-- Behind blanks the state is as good as before. -/
theorem AsGood.blanks {v : Value} (h : s.AsGood (deliver v stack)) (hbytes : Blanks bytes) :
    ∃ t, s.Reaches bytes t ∧ t.AsGood (deliver v stack) := by
  cases bytes with
  | nil => exact ⟨s, .refl s, h⟩
  | cons b bytes =>
      have hb := isBlank_of_blanks hbytes List.mem_cons_self
      have hstep := (h.step b (.inl hb)).trans (step_deliver_blank v stack hb)
      have hrest := Reaches.blanks (fun _ => step_deliver_blank v stack)
        (List.forall_mem_cons.mp hbytes).2
      exact ⟨deliver v stack, .cons hstep hrest, .refl _⟩

/-- A delimiter behind blanks is taken where the value was delivered. -/
theorem AsGood.reaches {v : Value} (h : s.AsGood (deliver v stack)) (hbytes : Blanks bytes)
    {d : UInt8} (hd : Delimiter d) (hstep : (deliver v stack).step d = .ok u) :
    s.Reaches (bytes ++ [d]) u := by
  obtain ⟨t, ht, hgood⟩ := h.blanks hbytes
  exact ht.trans (.of_step ((hgood.step d hd).trans hstep))

/-! ## Integers -/

/-- A number that needs no more is as good as delivered. -/
theorem number_asGood {n : Numeral} {number : Number} (hvalue : n.value = .ok number)
    (hended : ∀ b, Delimiter b → n.stage.next b = .ended) :
    AsGood ⟨stack, .number n⟩ (deliver (.number number) stack) := by
  constructor
  case step =>
    intro b hb
    have hnumber : (State.mk stack (.number n)).step b = behind (.number number) b stack := by
      show inNumber stack n b = _
      rw [inNumber, hended b hb]
      simp only [hvalue]
    rw [hnumber]
    cases stack with
    | nil => rfl
    | cons f stack => cases f <;> rfl
  case finish =>
    cases stack with
    | nil => simp [State.finish, hvalue, deliver]
    | cons f stack => cases f <;> simp [State.finish, hvalue, deliver]

theorem delimiter_cases {b : UInt8} (h : Delimiter b) :
    b ∈ [0x20, 0x0A, 0x09, 0x0D, 0x2C, 0x5D, 0x7D] := by
  simpa [Delimiter, isBlank, or_assoc] using h

/-- A delimiter is no digit, and neither a point nor an exponent begins with it. -/
theorem Delimiter.ended {b : UInt8} (h : Delimiter b) (digits : Nat) (scale : Int) :
    Stage.digit? b = none ∧ Stage.pointOrMark digits scale b = .ended := by
  have hmem := delimiter_cases h
  simp only [List.mem_cons, List.not_mem_nil, or_false] at hmem
  rcases hmem with rfl | rfl | rfl | rfl | rfl | rfl | rfl <;> exact ⟨rfl, rfl⟩

theorem next_zero {b : UInt8} (h : Delimiter b) : Stage.next .zero b = .ended := by
  obtain ⟨hdigit, hended⟩ := h.ended 0 0
  rw [Stage.next, hdigit]
  exact hended

theorem next_whole (digits : Nat) {b : UInt8} (h : Delimiter b) :
    Stage.next (.whole digits) b = .ended := by
  obtain ⟨hdigit, hended⟩ := h.ended digits 0
  rw [Stage.next, hdigit]
  exact hended

/-- The byte of a digit. -/
def digitByte (d : Nat) : UInt8 := UInt8.ofNat (0x30 + d)

theorem utf8EncodeChar_digitChar {d : Nat} (h : d < 10) :
    String.utf8EncodeChar d.digitChar = [digitByte d] := by
  have hall : ∀ d < 10, String.utf8EncodeChar d.digitChar = [digitByte d] := by decide
  exact hall d h

theorem digit?_digitByte {d : Nat} (h : d < 10) : Stage.digit? (digitByte d) = some d := by
  have hall : ∀ d < 10, Stage.digit? (digitByte d) = some d := by decide
  exact hall d h

theorem next_sign {d : Nat} (hpos : 0 < d) (h : d < 10) :
    Stage.next .sign (digitByte d) = .more (.whole d) := by
  rw [Stage.next, digit?_digitByte h]
  cases d with
  | zero => exact absurd hpos (Nat.lt_irrefl 0)
  | succ d => rfl

theorem begin?_digitByte {d : Nat} (hpos : 0 < d) (h : d < 10) :
    Numeral.begin? (digitByte d) = some ⟨false, .whole d⟩ := by
  have hminus : ∀ d < 10, Char.ofUInt8 (digitByte d) ≠ '-' := by decide
  rw [Numeral.begin?, if_neg (hminus d h), digit?_digitByte h]
  cases d with
  | zero => exact absurd hpos (Nat.lt_irrefl 0)
  | succ d => rfl

theorem step_whole {negative : Bool} {digits d : Nat} (h : d < 10)
    (hroom : digits * 10 + d < 2 ^ 64) :
    (State.mk stack (.number ⟨negative, .whole digits⟩)).step (digitByte d) =
      .ok ⟨stack, .number ⟨negative, .whole (digits * 10 + d)⟩⟩ := by
  have hnext : Stage.next (.whole digits) (digitByte d) = .more (.whole (digits * 10 + d)) := by
    rw [Stage.next, digit?_digitByte h]
    simp only [Stage.room?]
    rw [if_pos (Nat.le_of_lt_succ hroom)]
  show inNumber stack ⟨negative, .whole digits⟩ (digitByte d) = _
  rw [inNumber, hnext]

/-- The digits of a number are gathered as that number, where its first digit may stand. -/
theorem reaches_digits {negative : Bool} {n : Nat} (hpos : 0 < n) (hroom : n < 2 ^ 64)
    (hfirst : ∀ d, 0 < d → d < 10 →
      s.step (digitByte d) = .ok ⟨stack, .number ⟨negative, .whole d⟩⟩) :
    s.Reaches ((Nat.toDigits 10 n).flatMap String.utf8EncodeChar)
      ⟨stack, .number ⟨negative, .whole n⟩⟩ := by
  induction n using Nat.strongRecOn with
  | _ n ih =>
      by_cases hn : n < 10
      · rw [Nat.toDigits_of_lt_base hn, List.flatMap_singleton, utf8EncodeChar_digitChar hn]
        exact .of_step (hfirst n hpos hn)
      · have hlast : n % 10 < 10 := Nat.mod_lt n (by decide)
        have hsum : n / 10 * 10 + n % 10 = n := by omega
        rw [Nat.toDigits_of_base_le (by decide) (by omega), List.flatMap_append,
          List.flatMap_singleton, utf8EncodeChar_digitChar hlast]
        refine (ih (n / 10) (by omega) (by omega) (by omega)).trans (.of_step ?_)
        rw [step_whole hlast (by omega), hsum]

/-- The bytes are read as the value, wherever it may stand with `depth` levels to spare. -/
def ReadAs (depth : Nat) (v : Value) (bytes : List UInt8) : Prop :=
  ∀ {s : State} {stack : List Frame}, s.Awaits stack → stack.length + depth ≤ maxDepth →
    ∃ t : State, s.Reaches bytes t ∧ t.AsGood (deliver v.settled stack)

theorem beginValue_digit {d : Nat} (h : d < 10) :
    beginValue stack (digitByte d) =
      match Numeral.begin? (digitByte d) with
      | some n => .ok ⟨stack, .number n⟩
      | none => halt .expectedValue := by
  interval_cases d <;> rfl

theorem integer_readAs (depth : Nat) {n : Int} (hleast : -2 ^ 63 ≤ n) (hgreatest : n < 2 ^ 64) :
    ReadAs depth (.number (.integer n)) (Utf8.encode (String.ofList (Decimal.intDigits n))) := by
  intro s stack hs _
  have hblank : ∀ d < 10, isBlank (digitByte d) = false ∧ digitByte d ≠ 0x5D := by decide
  have hdigit {d : Nat} (hd : d < 10) : s.step (digitByte d) = beginValue stack (digitByte d) :=
    hs.first _ (hblank d hd).1 (hblank d hd).2
  rw [Utf8.encode_eq_flatMap, String.toList_ofList, Decimal.intDigits, Decimal.natDigits]
  by_cases hneg : n < 0
  · have hvalue : Numeral.value ⟨true, .whole n.natAbs⟩ = .ok (.integer n) := by
      rw [Numeral.value]
      simp only [Numeral.plain]
      rw [if_neg (by decide), if_pos (by omega)]
      congr 2
      omega
    rw [if_pos hneg, List.flatMap_cons]
    refine ⟨_, Reaches.cons (hs.first 0x2D rfl (by decide)) ?_,
      number_asGood hvalue fun b => next_whole _⟩
    refine reaches_digits (s := ⟨stack, .number ⟨true, .sign⟩⟩) (by omega) (by omega) ?_
    intro d hpos hd
    show inNumber stack ⟨true, .sign⟩ (digitByte d) = _
    rw [inNumber, next_sign hpos hd]
  · rw [if_neg hneg]
    by_cases hzero : n = 0
    · subst hzero
      have hfirst := (hdigit (by decide : 0 < 10)).trans (beginValue_digit (by decide))
      exact ⟨_, .of_step hfirst, number_asGood rfl fun b => next_zero⟩
    · have hvalue : Numeral.value ⟨false, .whole n.natAbs⟩ = .ok (.integer n) := by
        rw [Numeral.value]
        simp only [Numeral.plain]
        rw [if_pos (by decide)]
        congr 2
        omega
      refine ⟨_, ?_, number_asGood hvalue fun b => next_whole _⟩
      refine reaches_digits (by omega) (by omega) ?_
      intro d hpos hd
      rw [hdigit hd, beginValue_digit hd, begin?_digitByte hpos hd]

/-! ## Containers -/

/-- A value in its gaps, up to the byte behind them. -/
theorem reaches_item {depth : Nat} {i : Item} (hread : ReadAs depth i.value i.bytes)
    (hbefore : Blanks i.before) (hafter : Blanks i.after) (hs : s.Awaits stack)
    (hroom : stack.length + depth ≤ maxDepth) {d : UInt8} (hd : Delimiter d)
    (hstep : (deliver i.value.settled stack).step d = .ok u) :
    s.Reaches (i.spelled ++ [d]) u := by
  obtain ⟨t, ht, hgood⟩ := hread hs hroom
  rw [Item.spelled, List.append_assoc, List.append_assoc]
  exact (Reaches.blanks hs.blank hbefore).trans (ht.trans (hgood.reaches hafter hd hstep))

theorem reaches_items {depth : Nat} {items : List Item} (hne : items ≠ [])
    (hgaps : ∀ i ∈ items, Blanks i.before ∧ Blanks i.after)
    (hread : ∀ i ∈ items, ReadAs depth i.value i.bytes) {done : List Value}
    (hs : s.Awaits (.item done :: stack)) (hroom : stack.length + 1 + depth ≤ maxDepth) :
    s.Reaches (listed (items.map Item.spelled) ++ [0x5D])
      (deliver (.array (done.reverse ++ items.map fun i => i.value.settled)) stack) := by
  induction items generalizing s done with
  | nil => exact absurd rfl hne
  | cons i items ih =>
      obtain ⟨⟨hbefore, hafter⟩, hgaps⟩ := List.forall_mem_cons.mp hgaps
      obtain ⟨hi, hread⟩ := List.forall_mem_cons.mp hread
      cases items with
      | nil =>
          have hend : (State.mk stack (.itemEnd (i.value.settled :: done))).step 0x5D =
              .ok (deliver (.array (i.value.settled :: done).reverse) stack) := rfl
          rw [List.reverse_cons] at hend
          rw [listed, List.map_singleton, List.map_singleton, List.intercalate_singleton]
          exact reaches_item hi hbefore hafter hs hroom (.inr (.inr (.inl rfl))) hend
      | cons j items =>
          have hcomma : (deliver i.value.settled (.item done :: stack)).step 0x2C =
              .ok ⟨stack, .nextItem (i.value.settled :: done)⟩ := rfl
          have hitem := reaches_item hi hbefore hafter hs hroom (.inr (.inl rfl)) hcomma
          have hitems := ih (List.cons_ne_nil j items) hgaps hread
            (nextItem_awaits (i.value.settled :: done) stack)
          rw [listed, List.map_cons, List.map_cons, List.intercalate_cons_cons, List.append_assoc]
          rw [List.reverse_cons, List.append_assoc, listed, List.map_cons] at hitems
          exact hitem.trans hitems

/-- A key may begin in the state, behind the members. -/
structure AwaitsKey (s : State) (members : List (String × Value)) (stack : List Frame) : Prop where
  blank : ∀ b, isBlank b = true → s.step b = .ok s
  quote : s.step 0x22 = .ok ⟨stack, .text (.key members) []⟩

theorem firstKey_awaitsKey (stack : List Frame) : AwaitsKey ⟨stack, .firstKey⟩ [] stack :=
  ⟨fun _ hb => if_pos hb, rfl⟩

theorem nextKey_awaitsKey (members : List (String × Value)) (stack : List Frame) :
    AwaitsKey ⟨stack, .nextKey members⟩ members stack :=
  ⟨fun _ hb => if_pos hb, rfl⟩

/-- A member, up to the byte behind it. -/
theorem reaches_member {depth : Nat} {m : Member} (hkey : SpellsText m.key m.bytes)
    (hread : ReadAs depth m.item.value m.item.bytes)
    (hgaps : Blanks m.before ∧ Blanks m.after ∧ Blanks m.item.before ∧ Blanks m.item.after)
    {done : List (String × Value)} (hs : s.AwaitsKey done stack)
    (hroom : stack.length + 1 + depth ≤ maxDepth) {d : UInt8} (hd : Delimiter d)
    (hstep : (State.mk stack
      (.memberEnd (Value.setMember m.key m.item.value.settled done))).step d = .ok u) :
    s.Reaches (m.spelled ++ [d]) u := by
  obtain ⟨hbefore, hafter, hitem⟩ := hgaps
  have hcolon : ∀ b, isBlank b = true →
      (State.mk stack (.colon done m.key)).step b = .ok ⟨stack, .colon done m.key⟩ :=
    fun _ hb => if_pos hb
  have hvalue := reaches_item hread hitem.1 hitem.2
    (value_awaits (.member done m.key :: stack)) hroom hd hstep
  simp only [Member.spelled, List.append_assoc, List.cons_append]
  refine (Reaches.blanks hs.blank hbefore).trans ((reaches_text _ hkey hs.quote).trans ?_)
  exact (Reaches.blanks hcolon hafter).trans (.cons rfl hvalue)

theorem reaches_members {depth : Nat} {members : List Member} (hne : members ≠ [])
    (hgaps : ∀ m ∈ members,
      Blanks m.before ∧ Blanks m.after ∧ Blanks m.item.before ∧ Blanks m.item.after)
    (hkeys : ∀ m ∈ members, SpellsText m.key m.bytes)
    (hread : ∀ m ∈ members, ReadAs depth m.item.value m.item.bytes)
    {done : List (String × Value)} (hs : s.AwaitsKey done stack)
    (hroom : stack.length + 1 + depth ≤ maxDepth) :
    s.Reaches (listed (members.map Member.spelled) ++ [0x7D])
      (deliver (.object (members.foldl
        (fun set m => Value.setMember m.key m.item.value.settled set) done)) stack) := by
  induction members generalizing s done with
  | nil => exact absurd rfl hne
  | cons m members ih =>
      obtain ⟨hgap, hgaps⟩ := List.forall_mem_cons.mp hgaps
      obtain ⟨hkey, hkeys⟩ := List.forall_mem_cons.mp hkeys
      obtain ⟨hm, hread⟩ := List.forall_mem_cons.mp hread
      cases members with
      | nil =>
          rw [listed, List.map_singleton, List.intercalate_singleton]
          exact reaches_member hkey hm hgap hs hroom (.inr (.inr (.inr rfl))) rfl
      | cons n members =>
          have hmember := reaches_member hkey hm hgap hs hroom (.inr (.inl rfl)) rfl
          have hmembers := ih (List.cons_ne_nil n members) hgaps hkeys hread
            (nextKey_awaitsKey (Value.setMember m.key m.item.value.settled done) stack)
          rw [listed, List.map_cons, List.map_cons, List.intercalate_cons_cons, List.append_assoc]
          rw [listed, List.map_cons] at hmembers
          exact hmember.trans hmembers

/-! ## Values -/

theorem openWith_of_room {depth : Nat} (hroom : stack.length + (depth + 1) ≤ maxDepth)
    (mode : Mode) : openWith stack mode = .ok ⟨stack, mode⟩ :=
  if_pos (by omega)

/-- Whatever spells a value is read as that value, with repeated keys resolved. -/
theorem readAs_of_spells {gap : List UInt8 → Prop} (hgap : ∀ bytes, gap bytes → Blanks bytes)
    {v : Value} (h : Spells gap v bytes) {depth : Nat} (hplain : v.Plain depth) :
    ReadAs depth v bytes := by
  induction h generalizing depth with
  | null =>
      intro s stack hs _
      exact ⟨_, .cons (hs.first 0x6E rfl (by decide)) (.cons rfl (.cons rfl (.of_step rfl))),
        .refl _⟩
  | true =>
      intro s stack hs _
      exact ⟨_, .cons (hs.first 0x74 rfl (by decide)) (.cons rfl (.cons rfl (.of_step rfl))),
        .refl _⟩
  | false =>
      intro s stack hs _
      exact ⟨_, .cons (hs.first 0x66 rfl (by decide))
        (.cons rfl (.cons rfl (.cons rfl (.of_step rfl)))), .refl _⟩
  | integer n =>
      cases hplain with
      | integer _ hleast hgreatest => exact integer_readAs depth hleast hgreatest
  | text htext =>
      intro s stack hs _
      exact ⟨_, reaches_text .value htext (hs.first 0x22 rfl (by decide)), .refl _⟩
  | emptyArray hbytes =>
      intro s stack hs hroom
      cases hplain with
      | array _ =>
          have hopen := (hs.first 0x5B rfl (by decide)).trans (openWith_of_room hroom .firstItem)
          refine ⟨_, .cons hopen ((Reaches.blanks (firstItem_awaits stack).blank
            (hgap _ hbytes)).trans (.of_step rfl)), .refl _⟩
  | array hne hgaps hspells ih =>
      intro s stack hs hroom
      cases hplain with
      | array hplain =>
          have hopen := (hs.first 0x5B rfl (by decide)).trans (openWith_of_room hroom .firstItem)
          have hread := reaches_items hne
            (fun i hi => ⟨hgap _ (hgaps i hi).1, hgap _ (hgaps i hi).2⟩)
            (fun i hi => ih i hi (hplain _ (List.mem_map_of_mem hi))) (firstItem_awaits stack)
            (by omega)
          rw [Value.settled, Value.settledItems_eq_map, List.map_map]
          exact ⟨_, .cons hopen hread, .refl _⟩
  | emptyObject hbytes =>
      intro s stack hs hroom
      cases hplain with
      | object _ =>
          have hopen := (hs.first 0x7B rfl (by decide)).trans (openWith_of_room hroom .firstKey)
          refine ⟨_, .cons hopen ((Reaches.blanks (firstKey_awaitsKey stack).blank
            (hgap _ hbytes)).trans (.of_step rfl)), .refl _⟩
  | object hne hgaps hkeys hspells ih =>
      intro s stack hs hroom
      cases hplain with
      | object hplain =>
          have hopen := (hs.first 0x7B rfl (by decide)).trans (openWith_of_room hroom .firstKey)
          have hread := reaches_members hne
            (fun m hm => ⟨hgap _ (hgaps m hm).1, hgap _ (hgaps m hm).2.1,
              hgap _ (hgaps m hm).2.2.1, hgap _ (hgaps m hm).2.2.2⟩) hkeys
            (fun m hm => ih m hm (hplain _ (List.mem_map_of_mem hm))) (firstKey_awaitsKey stack)
            (by omega)
          rw [Value.settled, Value.settledMembers_eq_map, ← foldl_setMember, List.map_map,
            List.foldl_map]
          exact ⟨_, .cons hopen hread, .refl _⟩

end Scrape.Json.State

namespace Scrape.Json

/-- A text that spells a value is read as that value, with repeated keys resolved. -/
theorem read_of_spells {gap : List UInt8 → Prop} (hgap : ∀ bytes, gap bytes → Blanks bytes)
    {v : Value} {bytes before after : List UInt8} (h : Spells gap v bytes)
    (hplain : v.Plain maxDepth) (hbefore : Blanks before) (hafter : Blanks after) :
    read (before ++ bytes ++ after) = .ok v.settled := by
  have hawaits := State.value_awaits []
  obtain ⟨t, ht, hgood⟩ := State.readAs_of_spells hgap h hplain hawaits
    (Nat.le_of_eq (Nat.zero_add maxDepth))
  obtain ⟨u, hu, hend⟩ := hgood.blanks hafter
  have hrun := ((State.Reaches.blanks hawaits.blank hbefore).trans ht).trans hu
  rw [read, State.start, hrun 0]
  simp only [hend.finish]
  rfl

end Scrape.Json
