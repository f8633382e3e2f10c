import CobolCalls.Text.Utf8
import Mathlib.Algebra.GroupWithZero.Nat
import Mathlib.Data.List.Basic
import Mathlib.Tactic.SplitIfs

/-
  What decoding does to bytes that need not be UTF-8. The decoder keeps the sequence that is open
  between two bytes, and all that is known of it is `Pending.Holds p n`: of the sequence `n` bytes
  are held back, and whatever bytes complete it, the number they give is a code point that needs
  just that many bytes. From this one byte is followed (`accounts_feed`) and then all of them
  (`accounts_feedAll`): no byte is lost, since an ill-formed part has at most three bytes and the
  replacement character has three, and a character of ASCII only ever comes from its own byte.

  A byte of ASCII closes whatever sequence is open. So the text can be cut there, and what stands
  on one side is decoded as if the other side were not there (`chars_append_ascii`). Conversely,
  every character of ASCII in the text is such a place of the bytes (`exists_of_chars_eq`).
-/

namespace CobolCalls.Text.Utf8

/-! ## Bytes as lists -/

/-- The loop goes on with what it has listed so far, the bytes before position `i`. -/
theorem toList_loop_of_take {bytes : ByteArray} {i : Nat} {listed : List UInt8}
    (h : listed.reverse = bytes.data.toList.take i) :
    ByteArray.toList.loop bytes i listed = bytes.data.toList := by
  fun_induction ByteArray.toList.loop bytes i listed with
  | case1 i listed hi ih =>
    have hlength : i < bytes.data.toList.length := by simpa using hi
    apply ih
    rw [List.reverse_cons, h, List.take_succ_eq_append_getElem hlength]
    simp [ByteArray.get!, hi]
  | case2 i listed hi =>
    rw [h, List.take_of_length_le (by simpa using hi)]

theorem toList_eq_data (bytes : ByteArray) : bytes.toList = bytes.data.toList :=
  toList_loop_of_take rfl

theorem toList_toByteArray (bytes : List UInt8) : bytes.toByteArray.toList = bytes := by
  rw [toList_eq_data, List.toList_data_toByteArray]

/-! ## The decoder as a run -/

/-- What an open sequence becomes when the bytes end. -/
def flush (pending : Option Pending) : List Char := if pending.isSome then [replacement] else []

/-- The characters that bytes give, and the sequence that is open behind them. -/
def feedAll (pending : Option Pending) : List UInt8 → List Char × Option Pending
  | [] => ([], pending)
  | b :: rest =>
    ((feed pending b).1 ++ (feedAll (feed pending b).2 rest).1, (feedAll (feed pending b).2 rest).2)

/-- The characters of the text of bytes. -/
def chars (bytes : List UInt8) : List Char := (feedAll none bytes).1 ++ flush (feedAll none bytes).2

theorem decodeOnto_eq (done : List Char) (pending : Option Pending) (bytes : List UInt8) :
    decodeOnto done pending bytes =
      done.reverse ++ ((feedAll pending bytes).1 ++ flush (feedAll pending bytes).2) := by
  induction bytes generalizing done pending with
  | nil =>
    unfold decodeOnto feedAll flush
    split <;> simp
  | cons b rest ih =>
    unfold decodeOnto feedAll
    simp only [ih, List.reverse_append, List.reverse_reverse, List.append_assoc]

theorem toList_decode (bytes : ByteArray) : (decode bytes).toList = chars bytes.toList := by
  rw [decode, String.toList_ofList, decodeOnto_eq]
  rfl

theorem toList_decode_toByteArray (bytes : List UInt8) :
    (decode bytes.toByteArray).toList = chars bytes := by
  rw [toList_decode, toList_toByteArray]

theorem feedAll_append (pending : Option Pending) (bytes more : List UInt8) :
    feedAll pending (bytes ++ more) =
      ((feedAll pending bytes).1 ++ (feedAll (feedAll pending bytes).2 more).1,
        (feedAll (feedAll pending bytes).2 more).2) := by
  induction bytes generalizing pending with
  | nil => rfl
  | cons b rest ih =>
    rw [List.cons_append, feedAll, feedAll, ih]
    simp only [List.append_assoc]

/-! ## Open sequences -/

/-- A code point whose UTF-8 form has `k` bytes, more than one. -/
def Sized (k v : Nat) : Prop :=
  k = 2 ∧ 0x80 ≤ v ∧ v < 0x800 ∨
    k = 3 ∧ 0x800 ≤ v ∧ v < 0x10000 ∧ (v < 0xD800 ∨ 0xE000 ≤ v) ∨
    k = 4 ∧ 0x10000 ≤ v ∧ v < 0x110000

theorem Sized.toNat_ofNat {k v : Nat} (h : Sized k v) : (Char.ofNat v).toNat = v := by
  have hvalid : v.isValidChar := by
    unfold Sized at h
    unfold Nat.isValidChar
    omega
  unfold Char.ofNat
  rw [dif_pos hvalid]
  rfl

theorem Sized.utf8Size_ofNat {k v : Nat} (h : Sized k v) : (Char.ofNat v).utf8Size = k := by
  have hval : (Char.ofNat v).val.toNat = v := h.toNat_ofNat
  obtain ⟨rfl, hleast, hlimit⟩ | ⟨rfl, hleast, hlimit, -⟩ | ⟨rfl, hleast, -⟩ := h
  · rw [Char.utf8Size_eq_two_iff, UInt32.lt_iff_toNat_lt, UInt32.le_iff_toNat_le, hval]
    exact ⟨hleast, Nat.le_of_lt_succ hlimit⟩
  · rw [Char.utf8Size_eq_three_iff, UInt32.lt_iff_toNat_lt, UInt32.le_iff_toNat_le, hval]
    exact ⟨hleast, Nat.le_of_lt_succ hlimit⟩
  · rw [Char.utf8Size_eq_four_iff, UInt32.lt_iff_toNat_lt, hval]
    exact hleast

/-- The least number that an open sequence can give. -/
def Pending.least (p : Pending) : Nat := (p.value * 64 + (p.low.toNat - 0x80)) * 64 ^ p.more

/-- All numbers that an open sequence can give are below this one. -/
def Pending.limit (p : Pending) : Nat := (p.value * 64 + (p.high.toNat - 0x80) + 1) * 64 ^ p.more

/-- `n` bytes of the sequence are held back, and every number that it can give is a code point with
the bytes held back, the next one and those that follow it. -/
structure Pending.Holds (p : Pending) (n : Nat) : Prop where
  low : 0x80 ≤ p.low.toNat
  high : p.high.toNat ≤ 0xBF
  short : n + 1 + p.more ≤ 4
  leads : ∀ v, p.least ≤ v → v < p.limit → Sized (n + 1 + p.more) v

section First

variable {p : Pending} {b : UInt8}

theorem holds_two (hlow : p.low.toNat = 0x80) (hhigh : p.high.toNat = 0xBF) (hmore : p.more = 0)
    (hleast : 2 ≤ p.value) (hlimit : p.value < 32) : p.Holds 1 where
  low := Nat.le_of_eq hlow.symm
  high := Nat.le_of_eq hhigh
  short := by omega
  leads v hv hv' := by
    rw [Pending.least, hlow, hmore] at hv
    rw [Pending.limit, hhigh, hmore] at hv'
    exact .inl ⟨by omega, by omega, by omega⟩

/-- Of a sequence of three bytes, the bounds of the second byte keep out shorter forms and
surrogates. -/
theorem holds_three (hlow : 0x80 ≤ p.low.toNat) (hhigh : p.high.toNat ≤ 0xBF) (hmore : p.more = 1)
    (hleast : 0x20 ≤ p.value * 64 + (p.low.toNat - 0x80)) (hlimit : p.value < 16)
    (hapart : p.value * 64 + (p.high.toNat - 0x80) < 0x360 ∨
      0x380 ≤ p.value * 64 + (p.low.toNat - 0x80)) : p.Holds 1 where
  low := hlow
  high := hhigh
  short := by omega
  leads v hv hv' := by
    rw [Pending.least, hmore] at hv
    rw [Pending.limit, hmore] at hv'
    exact .inr (.inl ⟨by omega, by omega, by omega, by omega⟩)

/-- Of a sequence of four bytes, they keep out shorter forms and numbers beyond the last code
point. -/
theorem holds_four (hlow : 0x80 ≤ p.low.toNat) (hhigh : p.high.toNat ≤ 0xBF) (hmore : p.more = 2)
    (hleast : 0x10 ≤ p.value * 64 + (p.low.toNat - 0x80))
    (hlimit : p.value * 64 + (p.high.toNat - 0x80) < 0x110) : p.Holds 1 where
  low := hlow
  high := hhigh
  short := by omega
  leads v hv hv' := by
    rw [Pending.least, hmore] at hv
    rw [Pending.limit, hmore] at hv'
    exact .inr (.inr ⟨by omega, by omega, by omega⟩)

/-- The first byte as a number. -/
theorem start_eq (b : UInt8) :
    start b =
      if b.toNat < 0x80 then ([Char.ofNat b.toNat], none)
      else if b.toNat < 0xC2 then ([replacement], none)
      else if b.toNat < 0xE0 then ([], some ⟨b.toNat - 0xC0, 0x80, 0xBF, 0⟩)
      else if b.toNat = 0xE0 then ([], some ⟨0, 0xA0, 0xBF, 1⟩)
      else if b.toNat = 0xED then ([], some ⟨0xD, 0x80, 0x9F, 1⟩)
      else if b.toNat < 0xF0 then ([], some ⟨b.toNat - 0xE0, 0x80, 0xBF, 1⟩)
      else if b.toNat = 0xF0 then ([], some ⟨0, 0x90, 0xBF, 2⟩)
      else if b.toNat < 0xF4 then ([], some ⟨b.toNat - 0xF0, 0x80, 0xBF, 2⟩)
      else if b.toNat = 0xF4 then ([], some ⟨4, 0x80, 0x8F, 2⟩)
      else ([replacement], none) := by
  simp only [start, UInt8.lt_iff_toNat_lt, beq_iff_eq, ← UInt8.toNat_inj]
  rfl

theorem start_of_ascii (h : b.toNat < 0x80) : start b = ([Char.ofNat b.toNat], none) := by
  rw [start_eq, if_pos h]

theorem start_of_stray (h : 0x80 ≤ b.toNat) (h' : b.toNat < 0xC2 ∨ 0xF5 ≤ b.toNat) :
    start b = ([replacement], none) := by
  rw [start_eq, if_neg (by omega)]
  rcases h' with h' | h'
  · rw [if_pos h']
  · rw [if_neg (by omega), if_neg (by omega), if_neg (by omega), if_neg (by omega),
      if_neg (by omega), if_neg (by omega), if_neg (by omega), if_neg (by omega)]

theorem start_of_two (h : 0xC2 ≤ b.toNat) (h' : b.toNat < 0xE0) :
    start b = ([], some ⟨b.toNat - 0xC0, 0x80, 0xBF, 0⟩) := by
  rw [start_eq, if_neg (by omega), if_neg (by omega), if_pos h']

theorem start_of_three (h : 0xE0 ≤ b.toNat) (h' : b.toNat < 0xF0) :
    ∃ p, start b = ([], some p) ∧ p.more = 1 ∧ p.value = b.toNat - 0xE0 ∧
      p.low.toNat = (if b.toNat = 0xE0 then 0xA0 else 0x80) ∧
      p.high.toNat = (if b.toNat = 0xED then 0x9F else 0xBF) := by
  rw [start_eq, if_neg (by omega), if_neg (by omega), if_neg (by omega)]
  by_cases hfirst : b.toNat = 0xE0
  · rw [if_pos hfirst, if_pos hfirst, if_neg (by omega)]
    exact ⟨_, rfl, rfl, by rw [hfirst], rfl, rfl⟩
  · rw [if_neg hfirst, if_neg hfirst]
    by_cases hlast : b.toNat = 0xED
    · rw [if_pos hlast, if_pos hlast]
      exact ⟨_, rfl, rfl, by rw [hlast], rfl, rfl⟩
    · rw [if_neg hlast, if_neg hlast, if_pos h']
      exact ⟨_, rfl, rfl, rfl, rfl, rfl⟩

theorem start_of_four (h : 0xF0 ≤ b.toNat) (h' : b.toNat < 0xF5) :
    ∃ p, start b = ([], some p) ∧ p.more = 2 ∧ p.value = b.toNat - 0xF0 ∧
      p.low.toNat = (if b.toNat = 0xF0 then 0x90 else 0x80) ∧
      p.high.toNat = (if b.toNat = 0xF4 then 0x8F else 0xBF) := by
  rw [start_eq, if_neg (by omega), if_neg (by omega), if_neg (by omega), if_neg (by omega),
    if_neg (by omega), if_neg (by omega)]
  by_cases hfirst : b.toNat = 0xF0
  · rw [if_pos hfirst, if_pos hfirst, if_neg (by omega)]
    exact ⟨_, rfl, rfl, by rw [hfirst], rfl, rfl⟩
  · rw [if_neg hfirst, if_neg hfirst]
    by_cases hlast : b.toNat = 0xF4
    · rw [if_neg (by omega), if_pos hlast, if_pos hlast]
      exact ⟨_, rfl, rfl, by rw [hlast], rfl, rfl⟩
    · rw [if_pos (by omega), if_neg hlast]
      exact ⟨_, rfl, rfl, rfl, rfl, rfl⟩

/-- A byte outside ASCII opens a sequence, or it is ill-formed on its own. -/
theorem start_cases (h : 0x80 ≤ b.toNat) :
    start b = ([replacement], none) ∨ ∃ p, start b = ([], some p) ∧ p.Holds 1 := by
  by_cases hstray : b.toNat < 0xC2 ∨ 0xF5 ≤ b.toNat
  · exact .inl (start_of_stray h hstray)
  right
  by_cases htwo : b.toNat < 0xE0
  · exact ⟨_, start_of_two (by omega) htwo, holds_two rfl rfl rfl (by dsimp only; omega)
      (by dsimp only; omega)⟩
  by_cases hthree : b.toNat < 0xF0
  · obtain ⟨p, heq, hmore, hvalue, hlow, hhigh⟩ := start_of_three (by omega) hthree
    refine ⟨p, heq, holds_three ?_ ?_ hmore ?_ ?_ ?_⟩
    all_goals split_ifs at hlow hhigh <;> omega
  · obtain ⟨p, heq, hmore, hvalue, hlow, hhigh⟩ :=
      start_of_four (by omega : 0xF0 ≤ b.toNat) (by omega)
    refine ⟨p, heq, holds_four ?_ ?_ hmore ?_ ?_⟩
    all_goals split_ifs at hlow hhigh <;> omega

end First

/-- What the bytes of an open sequence give once one more of them is read. -/
def Pending.next (p : Pending) (b : UInt8) : Nat := p.value * 64 + (b.toNat - 0x80)

theorem feed_of_within {p : Pending} {b : UInt8} (hlow : p.low ≤ b) (hhigh : b ≤ p.high) :
    feed (some p) b =
      match p.more with
      | 0 => ([Char.ofNat (p.next b)], none)
      | more + 1 => ([], some ⟨p.next b, 0x80, 0xBF, more⟩) := by
  unfold feed
  simp only [hlow, hhigh, decide_true, Bool.and_self, if_true]
  rfl

theorem feed_of_not_within {p : Pending} {b : UInt8} (h : ¬ (p.low ≤ b ∧ b ≤ p.high)) :
    feed (some p) b = (replacement :: (start b).1, (start b).2) := by
  have hfalse : (decide (p.low ≤ b) && decide (b ≤ p.high)) = false := by simpa using h
  simp only [feed, hfalse, Bool.false_eq_true, if_false]

section Next

variable {p : Pending} {n : Nat} {b : UInt8}

/-- A byte within the bounds takes the sequence to a number between the two ends. -/
theorem Pending.Holds.next_bounds (h : p.Holds n) (hlow : p.low ≤ b) (hhigh : b ≤ p.high) :
    p.least ≤ p.next b * 64 ^ p.more ∧ (p.next b + 1) * 64 ^ p.more ≤ p.limit := by
  have hbits := h.low
  rw [UInt8.le_iff_toNat_le] at hlow hhigh
  unfold Pending.least Pending.limit Pending.next
  constructor
  · apply Nat.mul_le_mul_right
    omega
  · apply Nat.mul_le_mul_right
    omega

/-- One more byte narrows down what the sequence can give. -/
theorem Pending.Holds.next {more : Nat} (h : p.Holds n) (hmore : p.more = more + 1)
    (hlow : p.low ≤ b) (hhigh : b ≤ p.high) :
    Pending.Holds ⟨p.next b, 0x80, 0xBF, more⟩ (n + 1) where
  low := Nat.le_refl _
  high := Nat.le_refl _
  short := by
    have := h.short
    dsimp only
    omega
  leads v hv hv' := by
    obtain ⟨hleast, hlimit⟩ := h.next_bounds hlow hhigh
    have hsize : n + 1 + 1 + more = n + 1 + p.more := by omega
    have hpow : 64 ^ p.more = 64 * 64 ^ more := by rw [hmore, Nat.pow_succ, Nat.mul_comm]
    have hnext : Pending.least ⟨p.next b, 0x80, 0xBF, more⟩ = p.next b * 64 ^ p.more := by
      simp [Pending.least, hpow, Nat.mul_assoc]
    have hnext' : Pending.limit ⟨p.next b, 0x80, 0xBF, more⟩ = (p.next b + 1) * 64 ^ p.more := by
      simp [Pending.limit, hpow, ← Nat.mul_assoc, Nat.add_mul, Nat.add_assoc]
    rw [hnext] at hv
    rw [hnext'] at hv'
    dsimp only
    rw [hsize]
    exact h.leads v (Nat.le_trans hleast hv) (Nat.lt_of_lt_of_le hv' hlimit)

/-- The last byte gives a code point. -/
theorem Pending.Holds.sized (h : p.Holds n) (hmore : p.more = 0) (hlow : p.low ≤ b)
    (hhigh : b ≤ p.high) : Sized (n + 1) (p.next b) := by
  obtain ⟨hleast, hlimit⟩ := h.next_bounds hlow hhigh
  have hleads := h.leads (p.next b)
  rw [hmore, Nat.pow_zero, Nat.mul_one] at hleast hlimit
  rw [hmore] at hleads
  exact hleads hleast hlimit

/-- A byte completes the open sequence, goes on with it, or breaks it. -/
theorem feed_cases (h : p.Holds n) (b : UInt8) :
    (0x80 ≤ b.toNat ∧
      ∃ c : Char, feed (some p) b = ([c], none) ∧ 0x80 ≤ c.toNat ∧ c.utf8Size = n + 1) ∨
    (0x80 ≤ b.toNat ∧ ∃ q, feed (some p) b = ([], some q) ∧ q.Holds (n + 1)) ∨
    feed (some p) b = (replacement :: (start b).1, (start b).2) := by
  by_cases hwithin : p.low ≤ b ∧ b ≤ p.high
  · obtain ⟨hlow, hhigh⟩ := hwithin
    have hbyte : 0x80 ≤ b.toNat := Nat.le_trans h.low (UInt8.le_iff_toNat_le.1 hlow)
    have hfeed := feed_of_within hlow hhigh
    cases hmore : p.more with
    | zero =>
      rw [hmore] at hfeed
      have hsized := h.sized hmore hlow hhigh
      refine .inl ⟨hbyte, _, hfeed, ?_, hsized.utf8Size_ofNat⟩
      rw [hsized.toNat_ofNat]
      unfold Sized at hsized
      omega
    | succ more =>
      rw [hmore] at hfeed
      exact .inr (.inl ⟨hbyte, _, hfeed, h.next hmore hlow hhigh⟩)
  · exact .inr (.inr (feed_of_not_within hwithin))

end Next

/-! ## No byte is lost -/

/-- The bytes that characters take in UTF-8. -/
def width : List Char → Nat
  | [] => 0
  | c :: rest => c.utf8Size + width rest

theorem width_append (text more : List Char) : width (text ++ more) = width text + width more := by
  induction text with
  | nil => simp [width]
  | cons c rest ih =>
    simp only [List.cons_append, width, ih]
    omega

/-- Of the open sequence, if there is one, `n` bytes are held back. -/
def Held : Option Pending → Nat → Prop
  | none, n => n = 0
  | some p, n => p.Holds n

/-- What is given for bytes that are read behind `n` others held back: with what is held back now,
characters of at least as many bytes, and those of ASCII for their own byte only. -/
structure Accounts (n : Nat) (bytes : List UInt8) (given : List Char × Option Pending) : Prop where
  kept : ∃ m, Held given.2 m ∧ n + bytes.length ≤ width given.1 + m
  ascii : ∀ c ∈ given.1, c.toNat < 0x80 → ∃ b ∈ bytes, b.toNat = c.toNat

theorem utf8Size_replacement : replacement.utf8Size = 3 := rfl

theorem not_ascii_replacement : ¬ replacement.toNat < 0x80 := by decide

theorem toNat_ofNat_of_ascii {b : UInt8} (h : b.toNat < 0x80) :
    (Char.ofNat b.toNat).toNat = b.toNat := by
  unfold Char.ofNat
  rw [dif_pos (.inl (by omega))]
  rfl

theorem accounts_start (b : UInt8) : Accounts 0 [b] (start b) := by
  by_cases hb : b.toNat < 0x80
  · rw [start_of_ascii hb]
    constructor
    · have := (Char.ofNat b.toNat).utf8Size_pos
      exact ⟨0, rfl, by simp only [width, List.length_singleton]; omega⟩
    · intro c hc _
      rw [List.mem_singleton.1 hc, toNat_ofNat_of_ascii hb]
      exact ⟨b, List.mem_singleton_self b, rfl⟩
  · rcases start_cases (Nat.not_lt.1 hb) with heq | ⟨p, heq, hp⟩
    · rw [heq]
      constructor
      · exact ⟨0, rfl, by simp only [width, List.length_singleton, utf8Size_replacement]; omega⟩
      · intro c hc hc'
        rw [List.mem_singleton.1 hc] at hc'
        exact absurd hc' not_ascii_replacement
    · rw [heq]
      exact ⟨⟨1, hp, by simp only [width, List.length_singleton]; omega⟩, by simp⟩

/-- One byte, behind those that are held back. -/
theorem accounts_feed {pending : Option Pending} {n : Nat} (h : Held pending n) (b : UInt8) :
    Accounts n [b] (feed pending b) := by
  cases pending with
  | none =>
    have hn : n = 0 := h
    subst hn
    exact accounts_start b
  | some p =>
    have hp : p.Holds n := h
    obtain ⟨-, c, heq, hc, hsize⟩ | ⟨-, q, heq, hq⟩ | heq := feed_cases hp b
    · rw [heq]
      constructor
      · exact ⟨0, rfl, by simp only [width, List.length_singleton]; omega⟩
      · intro d hd hd'
        rw [List.mem_singleton.1 hd] at hd'
        omega
    · rw [heq]
      exact ⟨⟨n + 1, hq, by simp only [width, List.length_singleton]; omega⟩, by simp⟩
    · -- the replacement character makes up for the bytes held back, which are three at most
      have hshort := hp.short
      obtain ⟨⟨m, hm, hwidth⟩, hascii⟩ := accounts_start b
      rw [heq]
      constructor
      · refine ⟨m, hm, ?_⟩
        simp only [width, utf8Size_replacement]
        omega
      · intro c hc hc'
        rcases List.mem_cons.1 hc with rfl | hc
        · exact absurd hc' not_ascii_replacement
        · exact hascii c hc hc'

/-- All bytes, one after the other. -/
theorem accounts_feedAll {pending : Option Pending} {n : Nat} (h : Held pending n)
    (bytes : List UInt8) : Accounts n bytes (feedAll pending bytes) := by
  induction bytes generalizing pending n with
  | nil => exact ⟨⟨n, h, by simp [feedAll, width]⟩, by simp [feedAll]⟩
  | cons b rest ih =>
    obtain ⟨⟨m, hm, hwidth⟩, hascii⟩ := accounts_feed h b
    obtain ⟨⟨k, hk, hwidth'⟩, hascii'⟩ := ih hm
    unfold feedAll
    constructor
    · refine ⟨k, hk, ?_⟩
      simp only [List.length_cons, width_append] at hwidth ⊢
      omega
    · intro c hc hc'
      rcases List.mem_append.1 hc with hc | hc
      · obtain ⟨d, hd, heq⟩ := hascii c hc hc'
        exact ⟨d, List.mem_cons.2 (.inl (List.mem_singleton.1 hd)), heq⟩
      · obtain ⟨d, hd, heq⟩ := hascii' c hc hc'
        exact ⟨d, List.mem_cons_of_mem b hd, heq⟩

theorem accounts_bytes (bytes : List UInt8) : Accounts 0 bytes (feedAll none bytes) := by
  have hnone : Held none 0 := rfl
  exact accounts_feedAll hnone bytes

theorem Held.le_width_flush {pending : Option Pending} {n : Nat} (h : Held pending n) :
    n ≤ width (flush pending) := by
  cases pending with
  | none => exact Nat.le_of_eq h
  | some p =>
    have hshort := Pending.Holds.short h
    have hwidth : width (flush (some p)) = 3 := rfl
    omega

/-- A text takes no fewer bytes than what it was decoded from. -/
theorem length_le_width_chars (bytes : List UInt8) : bytes.length ≤ width (chars bytes) := by
  obtain ⟨n, hheld, hwidth⟩ := (accounts_bytes bytes).kept
  have hflush := hheld.le_width_flush
  unfold chars
  rw [width_append]
  omega

theorem ascii_of_mem_chars {bytes : List UInt8} {c : Char} (h : c ∈ chars bytes)
    (hc : c.toNat < 0x80) : ∃ b ∈ bytes, b.toNat = c.toNat := by
  rcases List.mem_append.1 h with h | h
  · exact (accounts_bytes bytes).ascii c h hc
  · unfold flush at h
    split at h
    · rw [List.mem_singleton.1 h] at hc
      exact absurd hc not_ascii_replacement
    · cases h

/-! ## Cuts at ASCII -/

/-- A byte of ASCII ends the open sequence and stands for itself. -/
theorem feed_ascii {pending : Option Pending} {n : Nat} (h : Held pending n) {b : UInt8}
    (hb : b.toNat < 0x80) : feed pending b = (flush pending ++ [Char.ofNat b.toNat], none) := by
  cases pending with
  | none => exact start_of_ascii hb
  | some p =>
    obtain ⟨hbyte, -⟩ | ⟨hbyte, -⟩ | heq := feed_cases h b
    · omega
    · omega
    · rw [heq, start_of_ascii hb]
      rfl

/-- What stands before a byte of ASCII is decoded on its own, and so is what stands after it. -/
theorem chars_append_ascii (bytes : List UInt8) {b : UInt8} (hb : b.toNat < 0x80)
    (more : List UInt8) :
    chars (bytes ++ b :: more) = chars bytes ++ Char.ofNat b.toNat :: chars more := by
  obtain ⟨n, hheld, -⟩ := (accounts_bytes bytes).kept
  unfold chars
  rw [feedAll_append, feedAll, feed_ascii hheld hb]
  simp

theorem append_cons_cases {α : Type} {xs ys before after : List α} {a b : α}
    (h : xs ++ a :: ys = before ++ b :: after) (hb : b ∉ xs) :
    (before = xs ∧ b = a ∧ after = ys) ∨ ∃ middle, before = xs ++ a :: middle ∧
      ys = middle ++ b :: after := by
  rcases List.append_eq_append_iff.1 h with ⟨middle, hbefore, hrest⟩ | ⟨middle, hxs, hrest⟩
  · cases middle with
    | nil =>
      obtain ⟨rfl, rfl⟩ := List.cons.inj hrest
      exact .inl ⟨by simpa using hbefore, rfl, rfl⟩
    | cons c middle =>
      obtain ⟨rfl, hys⟩ := List.cons.inj hrest
      exact .inr ⟨middle, hbefore, hys⟩
  · cases middle with
    | nil =>
      obtain ⟨rfl, rfl⟩ := List.cons.inj hrest
      exact .inl ⟨by simpa using hxs.symm, rfl, rfl⟩
    | cons c middle =>
      obtain ⟨rfl, -⟩ := List.cons.inj hrest
      exact absurd (hxs ▸ by simp) hb

/-- Bytes have a first one of ASCII, or none. -/
theorem exists_first_ascii (bytes : List UInt8) :
    (∀ b ∈ bytes, 0x80 ≤ b.toNat) ∨ ∃ front b back, bytes = front ++ b :: back ∧
      b.toNat < 0x80 ∧ ∀ d ∈ front, 0x80 ≤ d.toNat := by
  induction bytes with
  | nil => exact .inl (by simp)
  | cons d rest ih =>
    by_cases hd : d.toNat < 0x80
    · exact .inr ⟨[], d, rest, rfl, hd, by simp⟩
    · have hd := Nat.not_lt.1 hd
      rcases ih with hnone | ⟨front, b, back, rfl, hb, hfront⟩
      · exact .inl (List.forall_mem_cons.2 ⟨hd, hnone⟩)
      · exact .inr ⟨d :: front, b, back, rfl, hb, List.forall_mem_cons.2 ⟨hd, hfront⟩⟩

/-- Where the text has a character of ASCII, the bytes have its byte, and the two sides of the
character are the texts of the two sides of the byte. -/
theorem exists_of_chars_eq {bytes : List UInt8} {before after : List Char} {c : Char}
    (hc : c.toNat < 0x80) (h : chars bytes = before ++ c :: after) :
    ∃ front b back, bytes = front ++ b :: back ∧ b.toNat = c.toNat ∧ chars front = before ∧
      chars back = after := by
  -- from one byte of ASCII to the next; between them the text has no character of ASCII
  have absent {bytes : List UInt8} (hbytes : ∀ b ∈ bytes, 0x80 ≤ b.toNat) : c ∉ chars bytes := by
    intro hmem
    obtain ⟨b, hb, heq⟩ := ascii_of_mem_chars hmem hc
    have := hbytes b hb
    omega
  induction hlength : bytes.length using Nat.strongRecOn generalizing bytes before with
  | _ length ih =>
    rcases exists_first_ascii bytes with hnone | ⟨front, b, back, rfl, hb, hfront⟩
    · exact absurd (h ▸ by simp) (absent hnone)
    · rw [chars_append_ascii front hb] at h
      obtain ⟨rfl, rfl, rfl⟩ | ⟨middle, rfl, hback⟩ := append_cons_cases h (absent hfront)
      · exact ⟨front, b, back, rfl, (toNat_ofNat_of_ascii hb).symm, rfl, rfl⟩
      · have hshorter : back.length < length := by
          rw [← hlength, List.length_append, List.length_cons]
          omega
        obtain ⟨front', d, back', rfl, hd, rfl, rfl⟩ := ih _ hshorter hback rfl
        exact ⟨front ++ b :: front', d, back', by simp, hd, chars_append_ascii front hb front', rfl⟩

/-! ## Well-formed text -/

theorem feedAll_of_start {b : UInt8} {p : Pending} (h : start b = ([], some p))
    (rest : List UInt8) : feedAll none (b :: rest) = feedAll (some p) rest := by
  rw [feedAll, feed, h]
  rfl

theorem toNat_ofNat_of_lt {n : Nat} (h : n < 256) : (UInt8.ofNat n).toNat = n := by
  rw [UInt8.toNat_ofNat', Nat.mod_eq_of_lt h]

/-- The byte of a digit of six bits. Every byte of a sequence but the first is one. -/
def digit (n : Nat) : UInt8 := UInt8.ofNat (n % 64 + 128)

theorem toNat_digit (n : Nat) : (digit n).toNat = n % 64 + 128 :=
  toNat_ofNat_of_lt (by omega)

theorem next_digit (p : Pending) (n : Nat) : p.next (digit n) = p.value * 64 + n % 64 := by
  unfold Pending.next
  rw [toNat_digit, Nat.add_sub_cancel]

section Digits

variable {p : Pending} {n : Nat}

theorem within_digit (hlow : p.low.toNat ≤ n % 64 + 128) (hhigh : n % 64 + 128 ≤ p.high.toNat) :
    p.low ≤ digit n ∧ digit n ≤ p.high := by
  rw [UInt8.le_iff_toNat_le, UInt8.le_iff_toNat_le, toNat_digit]
  exact ⟨hlow, hhigh⟩

theorem feedAll_last (hmore : p.more = 0) (hlow : p.low.toNat ≤ n % 64 + 128)
    (hhigh : n % 64 + 128 ≤ p.high.toNat) :
    feedAll (some p) [digit n] = ([Char.ofNat (p.value * 64 + n % 64)], none) := by
  obtain ⟨hlow, hhigh⟩ := within_digit hlow hhigh
  rw [feedAll, feed_of_within hlow hhigh, hmore, next_digit]
  rfl

theorem feedAll_more {more : Nat} (hmore : p.more = more + 1)
    (hlow : p.low.toNat ≤ n % 64 + 128) (hhigh : n % 64 + 128 ≤ p.high.toNat)
    (rest : List UInt8) :
    feedAll (some p) (digit n :: rest) =
      feedAll (some ⟨p.value * 64 + n % 64, 0x80, 0xBF, more⟩) rest := by
  obtain ⟨hlow, hhigh⟩ := within_digit hlow hhigh
  rw [feedAll, feed_of_within hlow hhigh, hmore, next_digit]
  rfl

end Digits

theorem feedAll_two {v : Nat} (h : 0x80 ≤ v) (h' : v < 0x800) :
    feedAll none [UInt8.ofNat (v / 64 % 32 + 192), digit v] = ([Char.ofNat v], none) := by
  have hlead : (UInt8.ofNat (v / 64 % 32 + 192)).toNat = v / 64 + 192 := by
    rw [toNat_ofNat_of_lt (by omega), Nat.mod_eq_of_lt (by omega)]
  have hlow : (0x80 : UInt8).toNat = 128 := rfl
  have hhigh : (0xBF : UInt8).toNat = 191 := rfl
  rw [feedAll_of_start (start_of_two (by omega) (by omega)),
    feedAll_last rfl (by dsimp only; omega) (by dsimp only; omega)]
  dsimp only
  rw [hlead, Nat.add_sub_cancel, Nat.div_add_mod']

theorem feedAll_three {v : Nat} (h : 0x800 ≤ v) (h' : v < 0x10000)
    (hvalid : v < 0xD800 ∨ 0xE000 ≤ v) :
    feedAll none [UInt8.ofNat (v / 4096 % 16 + 224), digit (v / 64), digit v] =
      ([Char.ofNat v], none) := by
  have hlead : (UInt8.ofNat (v / 4096 % 16 + 224)).toNat = v / 4096 + 224 := by
    rw [toNat_ofNat_of_lt (by omega), Nat.mod_eq_of_lt (by omega)]
  have hlow : (0x80 : UInt8).toNat = 128 := rfl
  have hhigh : (0xBF : UInt8).toNat = 191 := rfl
  obtain ⟨p, hstart, hmore, hvalue, hplow, hphigh⟩ :=
    start_of_three (b := UInt8.ofNat (v / 4096 % 16 + 224)) (by omega) (by omega)
  rw [hlead] at hplow hphigh
  rw [hlead, Nat.add_sub_cancel] at hvalue
  rw [feedAll_of_start hstart, feedAll_more hmore (by split_ifs at hplow <;> omega)
    (by split_ifs at hphigh <;> omega), feedAll_last rfl (by dsimp only; omega)
    (by dsimp only; omega)]
  have hjoined : (p.value * 64 + v / 64 % 64) * 64 + v % 64 = v := by omega
  dsimp only
  rw [hjoined]

theorem feedAll_four {v : Nat} (h : 0x10000 ≤ v) (h' : v < 0x110000) :
    feedAll none [UInt8.ofNat (v / 262144 % 8 + 240), digit (v / 4096), digit (v / 64), digit v] =
      ([Char.ofNat v], none) := by
  have hlead : (UInt8.ofNat (v / 262144 % 8 + 240)).toNat = v / 262144 + 240 := by
    rw [toNat_ofNat_of_lt (by omega), Nat.mod_eq_of_lt (by omega)]
  have hlow : (0x80 : UInt8).toNat = 128 := rfl
  have hhigh : (0xBF : UInt8).toNat = 191 := rfl
  obtain ⟨p, hstart, hmore, hvalue, hplow, hphigh⟩ :=
    start_of_four (b := UInt8.ofNat (v / 262144 % 8 + 240)) (by omega) (by omega)
  rw [hlead] at hplow hphigh
  rw [hlead, Nat.add_sub_cancel] at hvalue
  rw [feedAll_of_start hstart, feedAll_more hmore (by split_ifs at hplow <;> omega)
    (by split_ifs at hphigh <;> omega), feedAll_more rfl (by dsimp only; omega)
    (by dsimp only; omega), feedAll_last rfl (by dsimp only; omega) (by dsimp only; omega)]
  have hjoined : ((p.value * 64 + v / 4096 % 64) * 64 + v / 64 % 64) * 64 + v % 64 = v := by omega
  dsimp only
  rw [hjoined]

/-- A character is decoded from its own bytes. -/
theorem feedAll_utf8EncodeChar (c : Char) :
    feedAll none (String.utf8EncodeChar c) = ([c], none) := by
  have hvalid : c.val.toNat.isValidChar := c.valid
  have hchar : Char.ofNat c.val.toNat = c := c.ofNat_toNat
  unfold Nat.isValidChar at hvalid
  unfold String.utf8EncodeChar
  generalize c.val.toNat = v at hvalid hchar
  rw [← hchar]
  dsimp only
  split
  · have hb : (UInt8.ofNat v).toNat = v := toNat_ofNat_of_lt (by omega)
    rw [feedAll, feed, start_of_ascii (by omega), hb]
    rfl
  split
  · exact feedAll_two (by omega) (by omega)
  split
  · exact feedAll_three (by omega) (by omega) (by omega)
  · exact feedAll_four (by omega) (by omega)

theorem chars_flatMap_utf8EncodeChar (text : List Char) :
    chars (text.flatMap String.utf8EncodeChar) = text := by
  have hfeed : feedAll none (text.flatMap String.utf8EncodeChar) = (text, none) := by
    induction text with
    | nil => rfl
    | cons c rest ih =>
      rw [List.flatMap_cons, feedAll_append, feedAll_utf8EncodeChar, ih]
      rfl
  unfold chars
  rw [hfeed]
  exact List.append_nil text

end CobolCalls.Text.Utf8
