import Swifties.Base64Decoding
import Swifties.Session

/-!
# Overflow in base64 decoding

`base64_decode` shifts the `int` it collects by six bits for each character and
never masks it.  All that has been read stays in it, so the shift overflows with
the sixth character, apart from `A`s at the front, which are zeros, unless the
first of the six is a `B`, and with the seventh in any case.
-/

namespace Swifties
namespace Base64

/-- The exact results of `val << 6` and of its sum with `T[c]`, for one character
after the other.  Behind the first that does not fit, `val` is what `decodeLoop`
makes of it. -/
def intermediates : Text → BitVec 32 → List ℤ
  | [], _ => []
  | c :: rest, val =>
      match sextet? c with
      | none => []
      | some t =>
          val.toInt * 64 :: (val.toInt * 64 + t) ::
            intermediates rest ((val <<< 6) + BitVec.ofNat 32 t)

/-- What `authenticate` has `base64_decode` compute for a header. -/
def headerIntermediates (authHeader : Text) : List ℤ :=
  if authHeader.take 6 = "Basic ".toList then
    intermediates (authHeader.drop 6) 0
  else []

def FitsInt (v : ℤ) : Prop := -intMax - 1 ≤ v ∧ v ≤ intMax

/-- The characters that are decoded, without the `A`s in front of them. -/
def significant (encoded : Text) : Text :=
  (encoded.takeWhile fun c => (sextet? c).isSome).dropWhile fun c => c == 'A'

/-- Thirty bits, or thirty-one where the first character is a `B`. -/
def FitsEncoding (digits : Text) : Prop :=
  digits.length ≤ 5 ∨ digits.length = 6 ∧ digits.head? = some 'B'

/-! ## The largest intermediate value is the last -/

theorem bigEndian_le_append (values more : List ℕ) :
    bigEndian 64 values ≤ bigEndian 64 (values ++ more) := by
  rw [bigEndian_append]
  have hpos : 0 < 64 ^ more.length := Nat.pow_pos (by decide)
  calc
    bigEndian 64 values ≤ bigEndian 64 values * 64 ^ more.length :=
      Nat.le_mul_of_pos_right _ hpos
    _ ≤ bigEndian 64 values * 64 ^ more.length + bigEndian 64 more :=
      Nat.le_add_right _ _

theorem intermediates_fit_iff (input : Text) {values : List ℕ}
    {val : BitVec 32} (hval : val.toNat = bigEndian 64 values)
    (hmax : bigEndian 64 values < 2 ^ 31) :
    (∀ v ∈ intermediates input val, FitsInt v) ↔
      bigEndian 64 (values ++ sextets input) < 2 ^ 31 := by
  induction input generalizing values val with
  | nil => simpa [intermediates, sextets] using hmax
  | cons c rest ih =>
      cases hc : sextet? c with
      | none =>
          rw [sextets_cons_none hc, List.append_nil]
          simpa [intermediates, hc] using hmax
      | some t =>
          have hint : val.toInt = bigEndian 64 values := by
            rw [BitVec.toInt_eq_toNat_of_lt (by omega), hval]
          have hsum := bigEndian_concat 64 values t
          rw [sextets_cons_some hc, List.append_cons]
          simp only [intermediates, hc, List.forall_mem_cons, hint]
          by_cases hfits : bigEndian 64 (values ++ [t]) < 2 ^ 31
          · have hnext : ((val <<< 6) + BitVec.ofNat 32 t).toNat =
                bigEndian 64 (values ++ [t]) := by
              rw [BitVec.toNat_add, BitVec.toNat_shiftLeft, BitVec.toNat_ofNat,
                hval, Nat.shiftLeft_eq, hsum]
              omega
            rw [ih hnext hfits]
            constructor
            · exact fun h => h.2.2
            · intro hrest
              unfold FitsInt intMax
              exact ⟨by omega, by omega, hrest⟩
          · apply iff_of_false
            · rintro ⟨_, ⟨_, hle⟩, _⟩
              unfold intMax at hle
              omega
            · intro hall
              exact hfits (lt_of_le_of_lt (bigEndian_le_append _ _) hall)

/-! ## How many characters fit -/

theorem sextet?_getElem {c : Char} {t : ℕ} (hc : sextet? c = some t) :
    alphabet[t]? = some c := by
  obtain ⟨hlt, hsame, _⟩ := List.findIdx?_eq_some_iff_getElem.mp hc
  rw [List.getElem?_eq_getElem hlt, beq_iff_eq.mp hsame]

theorem sextet?_eq_zero_iff {c : Char} {t : ℕ} (hc : sextet? c = some t) :
    t = 0 ↔ c = 'A' := by
  constructor
  · rintro rfl
    exact (Option.some.inj (sextet?_getElem hc)).symm
  · rintro rfl
    exact (Option.some.inj hc).symm

theorem sextet?_eq_one_iff {c : Char} {t : ℕ} (hc : sextet? c = some t) :
    t = 1 ↔ c = 'B' := by
  constructor
  · rintro rfl
    exact (Option.some.inj (sextet?_getElem hc)).symm
  · rintro rfl
    exact (Option.some.inj hc).symm

theorem sextets_lt (input : Text) : ∀ t ∈ sextets input, t < 64 := by
  intro t ht
  obtain ⟨c, _, hc⟩ := List.mem_filterMap.mp ht
  exact sextet?_lt hc

theorem length_sextets (input : Text) :
    (sextets input).length =
      (input.takeWhile fun c => (sextet? c).isSome).length := by
  induction input with
  | nil => rfl
  | cons c rest ih =>
      cases hc : sextet? c with
      | none => simp [sextets_cons_none hc, hc]
      | some t => simp [sextets_cons_some hc, hc, ih]

theorem bigEndian_cons (base digit : ℕ) (digits : List ℕ) :
    bigEndian base (digit :: digits) =
      digit * base ^ digits.length + bigEndian base digits := by
  rw [← List.singleton_append, bigEndian_append]
  simp [bigEndian]

theorem bigEndian_lt {digits : List ℕ} (hdigits : ∀ digit ∈ digits, digit < 64) :
    bigEndian 64 digits < 64 ^ digits.length := by
  rw [bigEndian, ← List.length_reverse]
  apply Nat.ofDigits_lt_base_pow_length (by decide)
  intro digit hdigit
  exact hdigits digit (List.mem_reverse.mp hdigit)

/-- A number without leading zeros fits by its length and its first digit. -/
theorem bigEndian_cons_lt_iff {digit : ℕ} {digits : List ℕ} (hpos : digit ≠ 0)
    (hdigits : ∀ d ∈ digit :: digits, d < 64) :
    bigEndian 64 (digit :: digits) < 2 ^ 31 ↔
      digits.length ≤ 4 ∨ digits.length = 5 ∧ digit = 1 := by
  rw [List.forall_mem_cons] at hdigits
  have hlow := bigEndian_lt hdigits.2
  rcases Nat.lt_trichotomy digits.length 5 with hshort | hfive | hlong
  · have hall := bigEndian_lt (List.forall_mem_cons.mpr hdigits)
    have hpow : 64 ^ (digit :: digits).length ≤ 64 ^ 5 :=
      Nat.pow_le_pow_right (by decide) hshort
    exact iff_of_true (by omega) (.inl (by omega))
  · rw [bigEndian_cons, hfive]
    rw [hfive] at hlow
    omega
  · rw [bigEndian_cons]
    have hpow : 64 ^ 6 ≤ 64 ^ digits.length :=
      Nat.pow_le_pow_right (by decide) hlong
    have hhead : 64 ^ digits.length ≤ digit * 64 ^ digits.length :=
      Nat.le_mul_of_pos_left _ (Nat.pos_of_ne_zero hpos)
    exact iff_of_false (by omega) (by omega)

theorem bigEndian_sextets_lt_iff (encoded : Text) :
    bigEndian 64 (sextets encoded) < 2 ^ 31 ↔
      FitsEncoding (significant encoded) := by
  induction encoded with
  | nil => exact iff_of_true (by decide) (.inl (Nat.zero_le 5))
  | cons c rest ih =>
      cases hc : sextet? c with
      | none =>
          rw [sextets_cons_none hc]
          apply iff_of_true (by decide)
          left
          simp [significant, hc]
      | some t =>
          have hvalues := sextets_lt (c :: rest)
          rw [sextets_cons_some hc] at hvalues ⊢
          by_cases hzero : t = 0
          · have hc' := (sextet?_eq_zero_iff hc).mp hzero
            have hskip : significant (c :: rest) = significant rest := by
              rw [hc'] at hc
              simp [significant, hc, hc']
            rw [hskip, ← ih, bigEndian_cons, hzero, Nat.zero_mul, Nat.zero_add]
          · have hc' : c ≠ 'A' := fun h =>
              hzero ((sextet?_eq_zero_iff hc).mpr h)
            have hkeep : significant (c :: rest) =
                c :: rest.takeWhile fun d => (sextet? d).isSome := by
              simp [significant, hc, hc']
            have hfive : (sextets rest).length + 1 ≤ 5 ↔
                (sextets rest).length ≤ 4 := by omega
            have hsix : (sextets rest).length + 1 = 6 ↔
                (sextets rest).length = 5 := by omega
            rw [bigEndian_cons_lt_iff hzero hvalues, hkeep, FitsEncoding,
              List.length_cons, ← length_sextets, List.head?_cons,
              Option.some_inj, sextet?_eq_one_iff hc, hfive, hsix]

/-- Decoding a header stays in the range of an `int` exactly if it has at most
five characters to decode behind the leading `A`s, or six from a `B` on. -/
theorem headerIntermediates_fit_iff (authHeader : Text) :
    (∀ v ∈ headerIntermediates authHeader, FitsInt v) ↔
      (authHeader.take 6 = "Basic ".toList →
        FitsEncoding (significant (authHeader.drop 6))) := by
  rw [headerIntermediates]
  split
  next hbasic =>
    have hfits := @intermediates_fit_iff (authHeader.drop 6) [] 0 rfl (by decide)
    rw [List.nil_append, bigEndian_sextets_lt_iff] at hfits
    rw [hfits]
    exact (imp_iff_right hbasic).symm
  next hbasic =>
    apply iff_of_true
    · simp
    · intro h
      exact (hbasic h).elim

/-- The header of `tariq:123` overflows: its first six characters are a number
of 35 bits. -/
theorem not_headerIntermediates_fit :
    ¬ ∀ authHeader, ∀ v ∈ headerIntermediates authHeader, FitsInt v := by
  intro hclaim
  have hmem : 31240693376 ∈
      headerIntermediates "Basic dGFyaXE6MTIz".toList := by
    decide +kernel
  have hfits := hclaim _ _ hmem
  unfold FitsInt intMax at hfits
  omega

end Base64
end Swifties
