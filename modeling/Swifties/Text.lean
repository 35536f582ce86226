import Mathlib

/-!
# Byte strings and decimal numerals

The server keeps every name, path and body in a `std::string`.  This file fixes
the representation used for them and the handful of string operations the
sources call: searching for one character from either end, cutting a string at
a position, and writing or reading a decimal `int`.
-/

namespace Swifties

/-- A `std::string`, one character for each byte. -/
abbrev Text := List Char

def intMax : ℤ := 2147483647

def intMin : ℤ := -2147483648

namespace Text

/-! ## Searching and cutting -/

def find (s : Text) (c : Char) : Option ℕ :=
  s.findIdx? (fun d => d == c)

def findLastOf : Text → Char → Option ℕ
  | [], _ => none
  | d :: s, c =>
      match findLastOf s c with
      | some i => some (i + 1)
      | none => if d = c then some 0 else none

/-- `s.substr(0, s.find_last_of(c))`: all of `s` when `c` does not occur. -/
def beforeLast (s : Text) (c : Char) : Text :=
  match s.findLastOf c with
  | some i => s.take i
  | none => s

/-- `s.substr(s.find_last_of(c) + 1)`: all of `s` when `c` does not occur,
since `npos + 1` wraps to zero. -/
def afterLast (s : Text) (c : Char) : Text :=
  match s.findLastOf c with
  | some i => s.drop (i + 1)
  | none => s

def dropSlashes : Text → Text
  | '/' :: c :: rest => dropSlashes (c :: rest)
  | s => s

/-- `while (s.length() > 1 && s.back() == '/') s.pop_back()`. -/
def stripTrailingSlashes (s : Text) : Text := (dropSlashes s.reverse).reverse

theorem dropSlashes_getLast? (s : Text) :
    (dropSlashes s).getLast? = s.getLast? := by
  fun_induction dropSlashes s with
  | case1 c rest ih => rw [ih, List.getLast?_cons_cons]
  | case2 s => rfl

@[simp] theorem stripTrailingSlashes_head? (s : Text) :
    s.stripTrailingSlashes.head? = s.head? := by
  rw [stripTrailingSlashes, List.head?_reverse, dropSlashes_getLast?,
    List.getLast?_reverse]

theorem find_eq_some {s : Text} {c : Char} {i : ℕ}
    (hfind : s.find c = some i) :
    s = s.take i ++ c :: s.drop (i + 1) ∧ c ∉ s.take i := by
  rw [find, List.findIdx?_eq_some_iff_getElem] at hfind
  obtain ⟨hlt, hc, hbefore⟩ := hfind
  have hci : s[i] = c := by simpa using hc
  constructor
  · rw [← hci, List.getElem_cons_drop, List.take_append_drop]
  · intro hmem
    obtain ⟨j, hj, hcj⟩ := List.getElem_of_mem hmem
    rw [List.length_take] at hj
    have hji : j < i := by omega
    rw [List.getElem_take] at hcj
    simpa [hcj] using hbefore j hji

theorem find_append_cons {s t : Text} {c : Char} (hc : c ∉ s) :
    find (s ++ c :: t) c = some s.length := by
  rw [find, List.findIdx?_eq_some_iff_getElem]
  refine ⟨by simp, by simp, fun j hj => ?_⟩
  rw [List.getElem_append_left hj, beq_iff_eq]
  intro heq
  exact hc (heq ▸ List.getElem_mem hj)

theorem findLastOf_eq_none {s : Text} {c : Char} (hc : c ∉ s) :
    s.findLastOf c = none := by
  induction s with
  | nil => rfl
  | cons d s ih =>
      simp only [List.mem_cons, not_or] at hc
      simp [findLastOf, ih hc.2, Ne.symm hc.1]

theorem findLastOf_append_cons {s t : Text} {c : Char} (hc : c ∉ t) :
    findLastOf (s ++ c :: t) c = some s.length := by
  induction s with
  | nil => simp [findLastOf, findLastOf_eq_none hc]
  | cons d s ih => simp [findLastOf, ih]

@[simp] theorem beforeLast_append_cons {s t : Text} {c : Char} (hc : c ∉ t) :
    beforeLast (s ++ c :: t) c = s := by
  simp [beforeLast, findLastOf_append_cons hc]

@[simp] theorem afterLast_append_cons {s t : Text} {c : Char} (hc : c ∉ t) :
    afterLast (s ++ c :: t) c = t := by
  simp [afterLast, findLastOf_append_cons hc]

theorem afterLast_of_not_mem {s : Text} {c : Char} (hc : c ∉ s) :
    s.afterLast c = s := by
  simp [afterLast, findLastOf_eq_none hc]

theorem exists_split_last (s : Text) (c : Char) :
    c ∉ s ∨ ∃ a b, s = a ++ c :: b ∧ c ∉ b := by
  induction s with
  | nil => exact .inl (by simp)
  | cons d s ih =>
      rcases ih with hnot | ⟨a, b, rfl, hb⟩
      · by_cases hd : d = c
        · subst hd
          exact .inr ⟨[], s, rfl, hnot⟩
        · exact .inl (by simp [hnot, Ne.symm hd])
      · exact .inr ⟨d :: a, b, rfl, hb⟩

theorem not_mem_afterLast (s : Text) (c : Char) : c ∉ s.afterLast c := by
  rcases exists_split_last s c with hnot | ⟨a, b, rfl, hb⟩
  · rwa [afterLast_of_not_mem hnot]
  · rwa [afterLast_append_cons hb]

/-! ## Decimal numerals -/

/-- An `int` written by `operator<<` or `std::to_string`. -/
def decimal : ℤ → Text
  | .ofNat n => Nat.toDigits 10 n
  | .negSucc n => '-' :: Nat.toDigits 10 (n + 1)

/-- The value of a string of decimal digits, `none` when some character is not
a digit or there is none. -/
def digitsValue? (s : Text) : Option ℕ :=
  if s ≠ [] ∧ s.all Char.isDigit then some (Nat.ofDigitChars 10 s 0) else none

/-- `boost::lexical_cast<int>`: an optional sign and decimal digits whose value
fits an `int`; `none` is `bad_lexical_cast`. -/
def lexicalCast (s : Text) : Option ℤ :=
  let value : Option ℤ :=
    match s with
    | '-' :: digits => (digitsValue? digits).map fun n => -(n : ℤ)
    | '+' :: digits => (digitsValue? digits).map fun n => (n : ℤ)
    | digits => (digitsValue? digits).map fun n => (n : ℤ)
  value.filter fun n => decide (intMin ≤ n ∧ n ≤ intMax)

def isSpace (c : Char) : Bool :=
  c == ' ' || (9 ≤ c.toNat && c.toNat ≤ 13)

/-- `atoi`: white space, an optional sign and the digits that follow, read as a
`long` that saturates and is then cut to an `int`. -/
def atoi (s : Text) : ℤ :=
  let magnitude : Text → ℤ := fun digits =>
    (Nat.ofDigitChars 10 (digits.takeWhile Char.isDigit) 0 : ℕ)
  let value :=
    match s.dropWhile isSpace with
    | '-' :: digits => max (-magnitude digits) (-9223372036854775808)
    | '+' :: digits => min (magnitude digits) 9223372036854775807
    | digits => min (magnitude digits) 9223372036854775807
  value.bmod 4294967296

example : atoi " +80x".toList = 80 := by decide +kernel

theorem isDigit_of_mem_toDigits {n : ℕ} {c : Char}
    (hc : c ∈ Nat.toDigits 10 n) : c.isDigit = true :=
  Nat.isDigit_of_mem_toDigits (by decide) (by decide) hc

theorem not_mem_decimal {n : ℤ} {c : Char} (hdigit : c.isDigit = false)
    (hminus : c ≠ '-') : c ∉ decimal n := by
  intro hmem
  have hdigits : ∀ m : ℕ, c ∉ Nat.toDigits 10 m := by
    intro m hm
    simp [isDigit_of_mem_toDigits hm] at hdigit
  cases n with
  | ofNat n => exact hdigits n hmem
  | negSucc n =>
      rcases List.mem_cons.mp hmem with heq | hm
      · exact hminus heq
      · exact hdigits _ hm

@[simp] theorem slash_not_mem_decimal (n : ℤ) : '/' ∉ decimal n :=
  not_mem_decimal (by decide) (by decide)

@[simp] theorem dot_not_mem_decimal (n : ℤ) : '.' ∉ decimal n :=
  not_mem_decimal (by decide) (by decide)

@[simp] theorem decimal_ne_nil (n : ℤ) : decimal n ≠ [] := by
  cases n <;> simp [decimal, Nat.toDigits_ne_nil]

theorem toDigits_head_ne_minus (n : ℕ) (t : Text) :
    Nat.toDigits 10 n ≠ '-' :: t := by
  intro heq
  have hmem : '-' ∈ Nat.toDigits 10 n := by simp [heq]
  simpa using isDigit_of_mem_toDigits hmem

theorem toDigits_injective : Function.Injective (Nat.toDigits 10) := by
  intro m n heq
  have hvalue := congrArg (fun s => Nat.ofDigitChars 10 s 0) heq
  simpa using hvalue

theorem decimal_injective : Function.Injective decimal := by
  intro m n heq
  cases m with
  | ofNat m =>
      cases n with
      | ofNat n => exact congrArg Int.ofNat (toDigits_injective heq)
      | negSucc n => exact (toDigits_head_ne_minus m _ heq).elim
  | negSucc m =>
      cases n with
      | ofNat n => exact (toDigits_head_ne_minus n _ heq.symm).elim
      | negSucc n =>
          have htail := List.tail_eq_of_cons_eq heq
          have hsucc := toDigits_injective htail
          exact congrArg Int.negSucc (Nat.succ_injective hsucc)

theorem digitsValue?_toDigits (n : ℕ) :
    digitsValue? (Nat.toDigits 10 n) = some n := by
  have hall : (Nat.toDigits 10 n).all Char.isDigit = true := by
    rw [List.all_eq_true]
    intro c hc
    exact isDigit_of_mem_toDigits hc
  simp [digitsValue?, hall, Nat.toDigits_ne_nil]

theorem lexicalCast_decimal {n : ℤ} (hnonneg : 0 ≤ n) (hmax : n ≤ intMax) :
    lexicalCast (decimal n) = some n := by
  obtain ⟨m, rfl⟩ := Int.eq_ofNat_of_zero_le hnonneg
  have hmin : intMin ≤ (m : ℤ) := by unfold intMin; omega
  have hvalue := digitsValue?_toDigits m
  change lexicalCast (Nat.toDigits 10 m) = some (m : ℤ)
  cases hdigits : Nat.toDigits 10 m with
  | nil => exact (Nat.toDigits_ne_nil hdigits).elim
  | cons c t =>
      have hcmem : c ∈ Nat.toDigits 10 m := by simp [hdigits]
      have hc : c.isDigit = true := isDigit_of_mem_toDigits hcmem
      have hminus : c ≠ '-' := by
        rintro rfl
        exact absurd hc (by decide)
      have hplus : c ≠ '+' := by
        rintro rfl
        exact absurd hc (by decide)
      rw [hdigits] at hvalue
      simp [lexicalCast, hminus, hplus, hvalue, hmin, hmax]

theorem head_decimal_isDigit {n : ℤ} (hnonneg : 0 ≤ n) :
    ∃ c t, decimal n = c :: t ∧ c.isDigit = true := by
  obtain ⟨m, rfl⟩ := Int.eq_ofNat_of_zero_le hnonneg
  cases hdigits : Nat.toDigits 10 m with
  | nil => exact (Nat.toDigits_ne_nil hdigits).elim
  | cons c t =>
      have hmem : c ∈ Nat.toDigits 10 m := by simp [hdigits]
      exact ⟨c, t, hdigits, isDigit_of_mem_toDigits hmem⟩

end Text

end Swifties
