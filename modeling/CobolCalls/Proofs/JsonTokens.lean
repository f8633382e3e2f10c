import CobolCalls.Json.Token
import CobolCalls.Json.Writer
import Mathlib.Data.List.Basic
import Mathlib.Data.List.TakeWhile

/-
  The tokens of JSON text, one piece of text after the other. `Lexes text ts rest` says that in
  front of `rest` a text is read as the tokens `ts`, so that what is known of the pieces is known
  of the whole.

  Strings and numbers carry the argument. A string ends with its closing quote, whatever follows,
  and the characters of a written string come back from their escapes. A number has no end of its
  own, so what follows it must not be able to continue it.
-/

namespace CobolCalls.Json

/-! ## Numbers -/

/-- Whether a character right after a number could belong to it. -/
def continuesNumber (c : Char) : Bool := isDigit c || c == '.' || c == 'e' || c == 'E'

/-- A number ends in front of this text. -/
def EndsNumber (rest : List Char) : Prop := ∀ c ∈ rest.head?, continuesNumber c = false

theorem EndsNumber.head {c : Char} {rest : List Char} (h : EndsNumber (c :: rest)) :
    isDigit c = false ∧ c ≠ '.' ∧ c ≠ 'e' ∧ c ≠ 'E' := by
  have := h c rfl
  simp only [continuesNumber, Bool.or_eq_false_iff, beq_eq_false_iff_ne] at this
  exact ⟨this.1.1.1, this.1.1.2, this.1.2, this.2⟩

/-- The digits at the front of a text do not depend on what comes after it. -/
theorem digits_append {rest : List Char} (h : EndsNumber rest) (text : List Char) :
    (text ++ rest).takeWhile isDigit = text.takeWhile isDigit ∧
      (text ++ rest).dropWhile isDigit = text.dropWhile isDigit ++ rest := by
  induction text with
  | nil =>
    cases rest with
    | nil => exact ⟨rfl, rfl⟩
    | cons c rest => simp [h.head.1]
  | cons c text ih =>
    rw [List.cons_append]
    by_cases hc : isDigit c = true
    · simp [hc, ih]
    · simp [hc]

/-- The digits at the front of a text, of which there must be some, and what follows them. -/
def leading? {α : Type} (value : List Char → α) (text : List Char) : Option (α × List Char) :=
  match text.takeWhile isDigit with
  | [] => none
  | digits => some (value digits, text.dropWhile isDigit)

theorem leading?_append {α : Type} (value : List Char → α) {text tail rest : List Char} {v : α}
    (h : leading? value text = some (v, tail)) (hrest : EndsNumber rest) :
    leading? value (text ++ rest) = some (v, tail ++ rest) := by
  unfold leading? at h ⊢
  rw [(digits_append hrest text).1, (digits_append hrest text).2]
  split at h
  · simp at h
  · obtain ⟨rfl, rfl⟩ := by simpa using h
    rfl

theorem fraction?_append {text tail rest : List Char} {digits : Option (List Char)}
    (h : fraction? text = some (digits, tail)) (hrest : EndsNumber rest) :
    fraction? (text ++ rest) = some (digits, tail ++ rest) := by
  have point : ∀ text, fraction? ('.' :: text) = leading? some text := fun _ => rfl
  by_cases hp : ∃ text', text = '.' :: text'
  · obtain ⟨text, rfl⟩ := hp
    rw [point] at h
    rw [List.cons_append, point]
    exact leading?_append _ h hrest
  · rw [fraction?.eq_2 _ fun text' he => hp ⟨text', he⟩] at h
    obtain ⟨rfl, rfl⟩ := by simpa using h
    refine fraction?.eq_2 _ fun text' he => ?_
    cases text with
    | nil =>
      rw [List.nil_append] at he
      exact (he ▸ hrest).head.2.1 rfl
    | cons c text => exact hp ⟨text, by rw [(List.cons.inj he).1]⟩

theorem exponent?_append {text tail rest : List Char} {e : Int}
    (h : exponent? text = some (e, tail)) (hrest : EndsNumber rest) :
    exponent? (text ++ rest) = some (e, tail ++ rest) := by
  cases text with
  | nil => simp [exponent?] at h
  | cons c text =>
    -- The sign, where there is one, is the first character, so nothing after it changes it.
    by_cases minus : c = '-'
    · subst minus
      exact leading?_append (fun digits => -(natOf digits : Int)) h hrest
    by_cases plus : c = '+'
    · subst plus
      exact leading?_append (fun digits => (natOf digits : Int)) h hrest
    · have unsigned : ∀ text', exponent? (c :: text') =
          leading? (fun digits => (natOf digits : Int)) (c :: text') := fun text' =>
        exponent?.eq_3 _ (fun _ he => minus (List.cons.inj he).1)
          fun _ he => plus (List.cons.inj he).1
      rw [unsigned] at h
      rw [List.cons_append, unsigned]
      exact leading?_append _ h hrest

theorem mark?_append {text tail rest : List Char} {e : Option Int}
    (h : mark? text = some (e, tail)) (hrest : EndsNumber rest) :
    mark? (text ++ rest) = some (e, tail ++ rest) := by
  cases text with
  | nil =>
    obtain ⟨rfl, rfl⟩ := by simpa [mark?] using h
    cases rest with
    | nil => rfl
    | cons c rest => simp [mark?, hrest.head]
  | cons c text =>
    simp only [List.cons_append, mark?] at h ⊢
    split at h
    · split at h
      next exponent => simp_all [exponent?_append exponent hrest]
      · simp at h
    · obtain ⟨rfl, rfl⟩ := by simpa using h
      simp_all

theorem unsigned?_append {negative : Bool} {text tail rest : List Char} {n : Option Number}
    (h : unsigned? negative text = some (n, tail)) (hrest : EndsNumber rest) :
    unsigned? negative (text ++ rest) = some (n, tail ++ rest) := by
  unfold unsigned? at h ⊢
  rw [(digits_append hrest text).1, (digits_append hrest text).2]
  split at h
  · simp at h
  · simp at h
  · simp only [bind, Option.bind_eq_some_iff, pure] at h
    obtain ⟨⟨fraction, rest₁⟩, hf, ⟨exponent, rest₂⟩, hm, he⟩ := h
    have hf := fraction?_append hf hrest
    have hm := mark?_append hm hrest
    simp only [bind, pure, hf, hm, Option.bind_some]
    grind

/-- A number is read the same whatever follows it. -/
theorem number?_append {text tail rest : List Char} {n : Option Number}
    (h : number? text = some (n, tail)) (hrest : EndsNumber rest) :
    number? (text ++ rest) = some (n, tail ++ rest) := by
  cases text with
  | nil => simp [number?, unsigned?] at h
  | cons c text =>
    by_cases minus : c = '-'
    · subst minus
      have h : unsigned? true text = some (n, tail) := h
      exact unsigned?_append h hrest
    · have unsigned : ∀ text', number? (c :: text') = unsigned? false (c :: text') := by
        intro text'
        exact number?.eq_2 _ fun _ he => minus (List.cons.inj he).1
      rw [unsigned] at h
      rw [List.cons_append, unsigned]
      exact unsigned?_append h hrest

theorem isDigit_of_mem_toDigits {n : Nat} {c : Char} (h : c ∈ Nat.toDigits 10 n) :
    isDigit c = true := by
  have := Nat.isDigit_of_mem_toDigits (by decide) (by decide) h
  simpa [isDigit, Char.isDigit, Char.le_def] using this

theorem natOf_toDigits (n : Nat) : natOf (Nat.toDigits 10 n) = n :=
  Nat.ofDigitChars_toDigits (by decide) (by decide)

theorem unsigned?_digits {digits : List Char} (negative : Bool) (hne : digits ≠ [])
    (hall : ∀ c ∈ digits, isDigit c = true) (hzero : ∀ c rest, digits ≠ '0' :: c :: rest) :
    unsigned? negative digits = some (integer? negative digits, []) := by
  have front : digits.takeWhile isDigit = digits := List.takeWhile_eq_self_iff.2 hall
  have after : digits.dropWhile isDigit = [] := List.dropWhile_eq_nil_iff.2 hall
  unfold unsigned?
  rw [front, after]
  split
  · exact absurd rfl hne
  next c rest => exact absurd rfl (hzero c rest)
  · rfl

/-- Only zero is written with a leading zero. -/
theorem toDigits_ne_zero_cons {n : Nat} (hn : 0 < n) (rest : List Char) :
    Nat.toDigits 10 n ≠ '0' :: rest := by
  induction n using Nat.strongRecOn generalizing rest with
  | ind n ih =>
    intro he
    by_cases small : n < 10
    · rw [Nat.toDigits_of_lt_base small] at he
      have zero := congrArg Char.toNat (List.cons.inj he).1
      rw [Nat.toNat_digitChar_of_lt_ten small] at zero
      have : '0'.toNat = 48 := rfl
      omega
    · rw [Nat.toDigits_of_base_le (by decide) (by omega)] at he
      obtain ⟨d, ds, hd⟩ := List.exists_cons_of_ne_nil (Nat.toDigits_ne_nil (b := 10) (n := n / 10))
      rw [hd, List.cons_append] at he
      rw [(List.cons.inj he).1] at hd
      exact ih (n / 10) (by omega) (by omega) ds hd

theorem unsigned?_toDigits (negative : Bool) (n : Nat) :
    unsigned? negative (Nat.toDigits 10 n) =
      some (integer? negative (Nat.toDigits 10 n), []) := by
  refine unsigned?_digits negative Nat.toDigits_ne_nil (fun _ => isDigit_of_mem_toDigits) ?_
  intro c rest
  rcases Nat.eq_zero_or_pos n with rfl | hn
  · simp [Nat.toDigits_of_lt_base]
  · exact toDigits_ne_zero_cons hn _

/-- Numbers that their text stands for: whole ones that 64 bits hold, and doubles that are
printed and read as themselves. -/
def Number.Kept : Number → Prop
  | .nat n => n ≤ maxNat
  | .neg n => 0 < n ∧ n ≤ 0x8000000000000000
  | .float x => number? (Number.text (.float x)) = some (some (.float x), [])

theorem Number.Kept.number?_text {n : Number} (h : n.Kept) :
    number? n.text = some (some n, []) := by
  match n with
  | .nat n =>
    have unsigned : number? (Nat.toDigits 10 n) = unsigned? false (Nat.toDigits 10 n) := by
      refine number?.eq_2 _ fun rest he => ?_
      have digit : isDigit '-' = true := isDigit_of_mem_toDigits (he ▸ List.mem_cons_self)
      exact absurd digit (by decide)
    rw [Number.text, unsigned, unsigned?_toDigits]
    have h : n ≤ maxNat := h
    simp [integer?, natOf_toDigits, h]
  | .neg n =>
    rw [Number.text, number?, unsigned?_toDigits]
    simp [integer?, natOf_toDigits, h.1, h.2]
  | .float x => exact h

/-! ## Strings -/

/-- The parts of a literal that stand for a character on their own. -/
inductive Piece.StandsFor : Piece → Char → Prop where
  | char (c : Char) : StandsFor (.char c) c
  | unit {c : Char} (h : c.toNat < 0x20) : StandsFor (.unit c.toNat) c

theorem unit?_hexChar {n : Nat} (h : n < 0x20) :
    unit? '0' '0' (hexChar (n / 16)) (hexChar (n % 16)) = some n := by
  have all : ∀ n < 0x20, unit? '0' '0' (hexChar (n / 16)) (hexChar (n % 16)) = some n := by
    decide
  exact all n h

/-- An escaped character is read as one part. -/
theorem pieces_escape (c : Char) : ∃ p : Piece, p.StandsFor c ∧
    ∀ done rest, pieces done (escape c ++ rest) = pieces (p :: done) rest := by
  unfold escape
  split
  case h_8 noQuote noBackslash _ _ _ _ _ =>
    split
    next control =>
      refine ⟨.unit c.toNat, .unit control, fun done rest => ?_⟩
      simp only [List.cons_append, List.nil_append]
      rw [pieces, unit?_hexChar control]
    next plain =>
      refine ⟨.char c, .char c, fun done rest => ?_⟩
      rw [List.cons_append, List.nil_append, pieces.eq_5 _ _ _ noQuote
        (fun _ _ _ _ _ hc => absurd hc noBackslash) fun _ _ hc => absurd hc noBackslash]
      have noBackslash : ¬ c = '\\' := noBackslash
      simp [noBackslash, plain]
  all_goals exact ⟨.char _, .char _, fun _ _ => rfl⟩

theorem pieces_flatMap_escape (s : List Char) : ∃ ps, List.Forall₂ Piece.StandsFor ps s ∧
    ∀ done rest,
      pieces done (s.flatMap escape ++ '"' :: rest) = some (done.reverse ++ ps, rest) := by
  induction s with
  | nil => exact ⟨[], .nil, fun done rest => by simp [pieces]⟩
  | cons c s ih =>
    obtain ⟨p, hp, head⟩ := pieces_escape c
    obtain ⟨ps, hps, tail⟩ := ih
    refine ⟨p :: ps, .cons hp hps, fun done rest => ?_⟩
    rw [List.flatMap_cons, List.append_assoc, head, tail]
    simp

theorem characters?_of_standsFor {ps : List Piece} {s : List Char}
    (h : List.Forall₂ Piece.StandsFor ps s) : characters? ps = some s := by
  induction h with
  | nil => rfl
  | @cons p c ps s hp _ ih =>
    cases hp with
    | char => simp [characters?, ih]
    | unit control =>
      have high : isHighSurrogate c.toNat = false := by simp [isHighSurrogate]; omega
      have low : isLowSurrogate c.toNat = false := by simp [isLowSurrogate]; omega
      -- The unit after this one, if there is one, does not join it.
      match ps with
      | .unit m :: rest => simp [characters?, high, low, ih, Char.ofNat_toNat]
      | .char d :: rest => simp_all [characters?, Char.ofNat_toNat]
      | [] => simp_all [characters?, Char.ofNat_toNat]

/-- A quoted string is read as it was. -/
theorem string?_quoted (s : String) :
    string? (s.toList.flatMap escape ++ ['"']) = some (some s, []) := by
  obtain ⟨ps, hps, read⟩ := pieces_flatMap_escape s.toList
  simp [string?, read, characters?_of_standsFor hps]

theorem pieces_append {done parts : List Piece} {text tail : List Char}
    (h : pieces done text = some (parts, tail)) (rest : List Char) :
    pieces done (text ++ rest) = some (parts, tail ++ rest) := by
  fun_induction pieces done text
  case case5 done e text c _ hescaped ih =>
    -- a unit starts with no escaped character, so its digits are not asked for
    have hunit : e ≠ 'u' := by
      rintro rfl
      simp [escaped?] at hescaped
    simp_all [pieces]
  all_goals simp_all [pieces]

/-- A string ends with its closing quote. -/
theorem string?_append {text tail : List Char} {s : Option String}
    (h : string? text = some (s, tail)) (rest : List Char) :
    string? (text ++ rest) = some (s, tail ++ rest) := by
  simp only [string?, bind, Option.bind_eq_some_iff, pure, Option.some.injEq] at h
  obtain ⟨⟨parts, tail'⟩, hparts, he⟩ := h
  obtain ⟨rfl, rfl⟩ := Prod.mk.inj he
  simp [string?, pieces_append hparts rest]

/-! ## Lexing -/

/-- Text of nothing but blanks. -/
def Blank (text : List Char) : Prop := ∀ c ∈ text, isSpace c = true

theorem blank_nil : Blank [] := by simp [Blank]

/-- In front of `rest`, a text is read as these tokens. -/
def Lexes (text : List Char) (ts : List Token) (rest : List Char) : Prop :=
  ∀ done, lexOnto done (text ++ rest) = lexOnto (ts.reverse ++ done) rest

theorem Lexes.append {a b rest : List Char} {s t : List Token} (ha : Lexes a s (b ++ rest))
    (hb : Lexes b t rest) : Lexes (a ++ b) (s ++ t) rest := by
  intro done
  rw [List.append_assoc, ha, hb, List.reverse_append, List.append_assoc]

theorem lexes_token {text rest : List Char} {t : Token} (hne : text ≠ [])
    (hs : ∀ c ∈ text.head?, isSpace c = false) (h : token? (text ++ rest) = some (t, rest)) :
    Lexes text [t] rest := by
  intro done
  cases text with
  | nil => exact absurd rfl hne
  | cons c text =>
    rw [List.cons_append] at h ⊢
    rw [lexOnto, hs c rfl]
    simp only [Bool.false_eq_true, if_false]
    split
    next read =>
      rw [read] at h
      obtain ⟨rfl, rfl⟩ := by simpa using h
      rfl
    next read => simp [read] at h

theorem lexes_blank {text : List Char} (h : Blank text) (rest : List Char) :
    Lexes text [] rest := by
  intro done
  induction text with
  | nil => rfl
  | cons c text ih =>
    rw [List.cons_append, lexOnto, if_pos (h c List.mem_cons_self)]
    exact ih fun c hc => h c (List.mem_cons_of_mem _ hc)

theorem Lexes.after_blank {blank text rest : List Char} {ts : List Token}
    (hb : Blank blank) (h : Lexes text ts rest) : Lexes (blank ++ text) ts rest :=
  (lexes_blank hb _).append h

/-- Punctuation is one token whatever follows it. -/
theorem Lexes.after_mark {c : Char} {text rest : List Char} {t : Token} {ts : List Token}
    (hs : isSpace c = false) (ht : token? (c :: (text ++ rest)) = some (t, text ++ rest))
    (h : Lexes text ts rest) : Lexes (c :: text) (t :: ts) rest := by
  have mark : Lexes [c] [t] (text ++ rest) :=
    lexes_token (List.cons_ne_nil _ _) (by simpa using hs) ht
  exact mark.append h

theorem lexes_string {body : List Char} {s : Option String} (h : string? body = some (s, []))
    (rest : List Char) : Lexes ('"' :: body) [.str s] rest := by
  refine lexes_token (List.cons_ne_nil _ _) (by simp [isSpace]) ?_
  have read := string?_append h rest
  simp [token?, read]

/-- A number starts with its sign or a digit. -/
theorem exists_cons_of_number? {text rest : List Char} {n : Option Number}
    (h : number? text = some (n, rest)) :
    ∃ c tail, text = c :: tail ∧ (c = '-' ∨ isDigit c = true) := by
  cases text with
  | nil => simp [number?, unsigned?] at h
  | cons c tail =>
    refine ⟨c, tail, rfl, ?_⟩
    by_cases minus : c = '-'
    · exact .inl minus
    · rw [number?.eq_2 _ fun _ he => minus (List.cons.inj he).1, unsigned?] at h
      by_cases digit : isDigit c = true
      · exact .inr digit
      · simp [digit] at h

theorem lexes_number {text rest : List Char} {n : Option Number}
    (h : number? text = some (n, [])) (hrest : EndsNumber rest) : Lexes text [.num n] rest := by
  have read := number?_append h hrest
  obtain ⟨c, tail, rfl, hc⟩ := exists_cons_of_number? h
  have other : ∀ d, d ≠ '-' → isDigit d = false → c ≠ d := by
    rintro d hd hdigit rfl
    rcases hc with hc | hc
    · exact hd hc
    · simp [hc] at hdigit
  refine lexes_token (List.cons_ne_nil _ _) ?_ ?_
  · intro d hd
    obtain rfl : c = d := by simpa using hd
    have space := other ' ' (by decide) (by decide)
    have feed := other '\n' (by decide) (by decide)
    have ret := other '\r' (by decide) (by decide)
    have tab := other '\t' (by decide) (by decide)
    simp [isSpace, space, feed, ret, tab]
  · rw [token?.eq_11]
    · rw [read]
      rfl
    all_goals
      intro text he
      refine other _ ?_ ?_ (List.cons.inj he).1 <;> decide

theorem endsNumber_cons {c : Char} (h : continuesNumber c = false) (rest : List Char) :
    EndsNumber (c :: rest) := by
  intro d hd
  obtain rfl : c = d := by simpa using hd
  exact h

theorem Blank.endsNumber {text rest : List Char} (h : Blank text) (hrest : EndsNumber rest) :
    EndsNumber (text ++ rest) := by
  cases text with
  | nil => exact hrest
  | cons c text =>
    refine endsNumber_cons ?_ _
    have space := h c List.mem_cons_self
    simp only [isSpace, Bool.or_eq_true, beq_iff_eq] at space
    rcases space with ((rfl | rfl) | rfl) | rfl <;> decide

end CobolCalls.Json
