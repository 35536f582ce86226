import Mathlib.Data.Nat.Digits.Lemmas
import Swifties.Base64

/-!
# What base64 decoding computes

The `int` of `base64_decode` is never masked, so it wraps on long inputs.  Only
its low bits are still to be written, and these survive: the result is the whole
bytes of the concatenated 6-bit values, and it undoes the encoding of RFC 4648.
-/

namespace Swifties
namespace Base64

def bigEndian (base : ℕ) (digits : List ℕ) : ℕ :=
  Nat.ofDigits base digits.reverse

theorem bigEndian_append (base : ℕ) (digits digits' : List ℕ) :
    bigEndian base (digits ++ digits') =
      bigEndian base digits * base ^ digits'.length +
        bigEndian base digits' := by
  rw [bigEndian, List.reverse_append, Nat.ofDigits_append, List.length_reverse,
    bigEndian, bigEndian, Nat.add_comm, Nat.mul_comm]

theorem bigEndian_concat (base : ℕ) (digits : List ℕ) (digit : ℕ) :
    bigEndian base (digits ++ [digit]) = bigEndian base digits * base + digit := by
  rw [bigEndian_append, List.length_singleton, Nat.pow_one]
  simp [bigEndian]

/-- The 6-bit values of the characters in front of the first one outside the
alphabet. -/
def sextets (input : Text) : List ℕ :=
  (input.takeWhile fun c => (sextet? c).isSome).filterMap sextet?

theorem sextets_cons_some {c : Char} {t : ℕ} (hc : sextet? c = some t)
    (rest : Text) : sextets (c :: rest) = t :: sextets rest := by
  unfold sextets
  rw [List.takeWhile_cons_of_pos (by rw [hc]; rfl), List.filterMap_cons_some hc]

theorem sextets_cons_none {c : Char} (hc : sextet? c = none) (rest : Text) :
    sextets (c :: rest) = [] := by
  unfold sextets
  rw [List.takeWhile_cons_of_neg (by rw [hc]; decide), List.filterMap_nil]

/-- The whole bytes at the front of the concatenation of 6-bit values, whose
last `6 * k % 8` bits do not fill a byte. -/
def leadingBytes (values : List ℕ) : List ℕ :=
  (Nat.digitsAppend 256 (6 * values.length / 8)
    (bigEndian 64 values / 2 ^ (6 * values.length % 8))).reverse

theorem eq_leadingBytes {values bytes : List ℕ}
    (hbound : ∀ byte ∈ bytes, byte < 256)
    (hlength : bytes.length = 6 * values.length / 8)
    (hvalue : bigEndian 256 bytes =
      bigEndian 64 values / 2 ^ (6 * values.length % 8)) :
    bytes = leadingBytes values := by
  have hdigits : bytes.reverse ∈
      {digits : List ℕ | digits.length = 6 * values.length / 8 ∧
        ∀ digit ∈ digits, digit < 256} := by
    constructor
    · rw [List.length_reverse, hlength]
    · intro digit hdigit
      exact hbound digit (List.mem_reverse.mp hdigit)
  have hinverse :=
    (Nat.setInvOn_digitsAppend_ofDigits (by decide) _).1 hdigits
  rw [leadingBytes, ← hvalue, bigEndian, hinverse, List.reverse_reverse]

/-- The state of the loop behind some 6-bit values. -/
structure Decoded (values : List ℕ) (val : BitVec 32) (valb : ℤ)
    (bytes : List ℕ) : Prop where
  low : val.toNat = bigEndian 64 values % 2 ^ 32
  pending : valb = (6 * values.length % 8 : ℕ) - 8
  bound : ∀ byte ∈ bytes, byte < 256
  length : bytes.length = 6 * values.length / 8
  value : bigEndian 256 bytes =
    bigEndian 64 values / 2 ^ (6 * values.length % 8)

theorem Decoded.eq_leadingBytes {values bytes : List ℕ} {val : BitVec 32}
    {valb : ℤ} (hdecoded : Decoded values val valb bytes) :
    bytes = leadingBytes values :=
  Base64.eq_leadingBytes hdecoded.bound hdecoded.length hdecoded.value

theorem decoded_nil : Decoded [] 0 (-8) [] where
  low := rfl
  pending := rfl
  bound := by simp
  length := rfl
  value := rfl

theorem sextet?_lt {c : Char} {t : ℕ} (hc : sextet? c = some t) : t < 64 := by
  have hlength : alphabet.length = 64 := by decide
  rw [← hlength]
  exact (List.findIdx?_eq_some_iff_getElem.mp hc).1

/-- The sign of the shifted `val` is masked off with everything else above the
byte. -/
theorem toNat_sshiftRight_and (val : BitVec 32) {shift : ℕ}
    (hshift : shift + 8 ≤ 32) :
    ((val.sshiftRight shift) &&& 0xFF#32).toNat =
      val.toNat / 2 ^ shift % 256 := by
  have hmask : (val.sshiftRight shift) &&& 0xFF#32 =
      (val >>> shift) &&& 0xFF#32 := by
    apply BitVec.eq_of_getLsbD_eq
    intro i hi
    by_cases hbyte : i < 8
    · simp only [BitVec.getLsbD_and, BitVec.getLsbD_sshiftRight,
        BitVec.getLsbD_ushiftRight]
      rw [if_pos (by omega)]
      simp [Nat.not_le.mpr hi]
    · have hzero : (0xFF#32).getLsbD i = false := by
        have hpow : (0xFF#32).toNat < 2 ^ i :=
          lt_of_lt_of_le (by decide) (Nat.pow_le_pow_right (by decide)
            (Nat.le_of_not_lt hbyte))
        exact Nat.testBit_lt_two_pow hpow
      rw [BitVec.getLsbD_and, BitVec.getLsbD_and, hzero, Bool.and_false,
        Bool.and_false]
  rw [hmask, BitVec.toNat_and, BitVec.toNat_ushiftRight,
    Nat.shiftRight_eq_div_pow]
  exact Nat.and_two_pow_sub_one_eq_mod _ 8

theorem mod_div_mod (value : ℕ) {shift : ℕ} (hshift : shift + 8 ≤ 32) :
    value % 2 ^ 32 / 2 ^ shift % 256 = value / 2 ^ shift % 256 := by
  have hsplit : 2 ^ 32 = 2 ^ shift * 2 ^ (32 - shift) := by
    rw [← Nat.pow_add]
    congr 1
    omega
  have hdvd : 256 ∣ 2 ^ (32 - shift) :=
    Nat.pow_dvd_pow 2 (show 8 ≤ 32 - shift by omega)
  rw [hsplit, Nat.mod_mul_right_div_self, Nat.mod_mod_of_dvd _ hdvd]

theorem Decoded.low_step {values bytes : List ℕ} {val : BitVec 32} {valb : ℤ}
    (hdecoded : Decoded values val valb bytes) (t : ℕ) :
    ((val <<< 6) + BitVec.ofNat 32 t).toNat =
      bigEndian 64 (values ++ [t]) % 2 ^ 32 := by
  rw [bigEndian_concat, BitVec.toNat_add, BitVec.toNat_shiftLeft,
    BitVec.toNat_ofNat, hdecoded.low, Nat.shiftLeft_eq]
  omega

/-- The first of four 6-bit values writes no byte. -/
theorem Decoded.wait {values bytes : List ℕ} {val : BitVec 32} {valb : ℤ}
    (hdecoded : Decoded values val valb bytes) {t : ℕ} (ht : t < 64)
    (hvalb : ¬ 0 ≤ valb + 6) :
    Decoded (values ++ [t]) ((val <<< 6) + BitVec.ofNat 32 t) (valb + 6)
      bytes := by
  have hpending := hdecoded.pending
  have hphase : 6 * values.length % 8 = 0 := by omega
  have hnext : 6 * (values ++ [t]).length % 8 = 6 := by
    rw [List.length_append, List.length_singleton]
    omega
  constructor
  · exact hdecoded.low_step t
  · rw [hnext]
    omega
  · exact hdecoded.bound
  · have hlength := hdecoded.length
    rw [List.length_append, List.length_singleton]
    omega
  · have hvalue := hdecoded.value
    rw [hphase, Nat.pow_zero, Nat.div_one] at hvalue
    rw [hvalue, hnext, bigEndian_concat]
    omega

/-- The other three write the eight bits above those that stay pending. -/
theorem Decoded.write {values bytes : List ℕ} {val : BitVec 32} {valb : ℤ}
    (hdecoded : Decoded values val valb bytes) {t : ℕ} (ht : t < 64)
    (hvalb : 0 ≤ valb + 6) :
    Decoded (values ++ [t]) ((val <<< 6) + BitVec.ofNat 32 t) (valb + 6 - 8)
      (bytes ++ [bigEndian 64 (values ++ [t]) / 2 ^ (valb + 6).toNat %
        256]) := by
  have hpending := hdecoded.pending
  have hlength := hdecoded.length
  have hphase : 6 * values.length % 8 = (valb + 6).toNat + 2 := by omega
  have hnext : 6 * (values ++ [t]).length % 8 = (valb + 6).toNat := by
    rw [List.length_append, List.length_singleton]
    omega
  constructor
  · exact hdecoded.low_step t
  · rw [hnext]
    omega
  · intro byte hbyte
    rw [List.mem_append, List.mem_singleton] at hbyte
    rcases hbyte with hold | hnew
    · exact hdecoded.bound byte hold
    · rw [hnew]
      exact Nat.mod_lt _ (by decide)
  · rw [List.length_append, List.length_append, List.length_singleton,
      List.length_singleton]
    omega
  · -- eight pending bits more than before are six new ones and two old ones
    have hold : bigEndian 64 (values ++ [t]) / 2 ^ (valb + 6).toNat / 256 =
        bigEndian 64 values / 2 ^ (6 * values.length % 8) := by
      have hpow : 2 ^ (valb + 6).toNat * 256 =
          64 * 2 ^ (6 * values.length % 8) := by
        rw [hphase, Nat.pow_add]
        ring
      have hhead : bigEndian 64 (values ++ [t]) / 64 = bigEndian 64 values := by
        rw [bigEndian_concat]
        omega
      rw [Nat.div_div_eq_div_mul, hpow, ← Nat.div_div_eq_div_mul, hhead]
    rw [bigEndian_concat, hdecoded.value, ← hold, hnext, Nat.div_add_mod']

theorem byteAt_eq {values bytes : List ℕ} {val : BitVec 32} {valb : ℤ}
    (hdecoded : Decoded values val valb bytes) (t : ℕ) :
    byteAt ((val <<< 6) + BitVec.ofNat 32 t) (valb + 6).toNat =
      Char.ofNat
        (bigEndian 64 (values ++ [t]) / 2 ^ (valb + 6).toNat % 256) := by
  have hshift : (valb + 6).toNat + 8 ≤ 32 := by
    have hpending := hdecoded.pending
    omega
  rw [byteAt, toNat_sshiftRight_and _ hshift, hdecoded.low_step,
    mod_div_mod _ hshift]

theorem decodeLoop_eq (input : Text) {values bytes : List ℕ} {val : BitVec 32}
    {valb : ℤ} (hdecoded : Decoded values val valb bytes) :
    decodeLoop input val valb (bytes.map Char.ofNat) =
      (leadingBytes (values ++ sextets input)).map Char.ofNat := by
  induction input generalizing values bytes val valb with
  | nil =>
      rw [decodeLoop, hdecoded.eq_leadingBytes]
      simp [sextets]
  | cons c rest ih =>
      rw [decodeLoop]
      cases hc : sextet? c with
      | none =>
          rw [sextets_cons_none hc, List.append_nil, hdecoded.eq_leadingBytes]
      | some t =>
          have ht := sextet?_lt hc
          rw [sextets_cons_some hc, List.append_cons]
          by_cases hvalb : 0 ≤ valb + 6
          · simp only [if_pos hvalb, byteAt_eq hdecoded]
            rw [← ih (hdecoded.write ht hvalb), List.map_append]
            rfl
          · simp only [if_neg hvalb]
            exact ih (hdecoded.wait ht hvalb)

/-- Decoding keeps the whole bytes of the concatenated 6-bit values. -/
theorem decode_eq (input : Text) :
    decode input = (leadingBytes (sextets input)).map Char.ofNat :=
  decodeLoop_eq input decoded_nil

/-! ## Encoding -/

def alphabetChar (t : ℕ) : Char := alphabet.getD t 'A'

/-- Three bytes become four 6-bit values; what is left at the end is filled up
with zero bits. -/
def encodeBytes : List ℕ → List ℕ
  | [] => []
  | [a] => [a / 4, a % 4 * 16]
  | [a, b] => [a / 4, a % 4 * 16 + b / 16, b % 16 * 4]
  | a :: b :: c :: rest =>
      a / 4 :: (a % 4 * 16 + b / 16) :: (b % 16 * 4 + c / 64) :: c % 64 ::
        encodeBytes rest

def padding (length : ℕ) : Text :=
  match length % 3 with
  | 0 => []
  | 1 => ['=', '=']
  | _ => ['=']

/-- The base64 encoding of RFC 4648, with or without padding. -/
def encode (padded : Bool) (s : Text) : Text :=
  (encodeBytes (s.map Char.toNat)).map alphabetChar ++
    if padded then padding s.length else []

example : encode true "tariq:1234".toList = "dGFyaXE6MTIzNA==".toList := by
  decide +kernel

theorem sextet?_alphabetChar : ∀ t < 64, sextet? (alphabetChar t) = some t := by
  decide +kernel

theorem sextets_alphabetChar {values : List ℕ}
    (hvalues : ∀ t ∈ values, t < 64) (rest : Text) :
    sextets (values.map alphabetChar ++ rest) = values ++ sextets rest := by
  induction values with
  | nil => rfl
  | cons t values ih =>
      have ht := sextet?_alphabetChar t (hvalues t (List.mem_cons_self ..))
      rw [List.map_cons, List.cons_append, sextets_cons_some ht,
        ih fun t' hmem => hvalues t' (List.mem_cons_of_mem _ hmem),
        List.cons_append]

theorem sextets_padding (length : ℕ) : sextets (padding length) = [] := by
  unfold padding
  split <;> rfl

theorem encodeBytes_lt {bytes : List ℕ} (hbytes : ∀ byte ∈ bytes, byte < 256) :
    ∀ t ∈ encodeBytes bytes, t < 64 := by
  fun_induction encodeBytes bytes with
  | case1 => simp
  | case2 a =>
      have ha := hbytes a (by simp)
      simp only [List.forall_mem_cons]
      exact ⟨by omega, by omega, by simp⟩
  | case3 a b =>
      have ha := hbytes a (by simp)
      have hb := hbytes b (by simp)
      simp only [List.forall_mem_cons]
      exact ⟨by omega, by omega, by omega, by simp⟩
  | case4 a b c rest ih =>
      have ha := hbytes a (by simp)
      have hb := hbytes b (by simp)
      have hc := hbytes c (by simp)
      have hrest := ih fun byte hmem => hbytes byte (by simp [hmem])
      simp only [List.forall_mem_cons]
      exact ⟨by omega, by omega, by omega, by omega, hrest⟩

/-- The 6-bit values are the bits of the bytes with fewer than eight zero bits
behind them. -/
theorem encodeBytes_value {bytes : List ℕ}
    (hbytes : ∀ byte ∈ bytes, byte < 256) :
    ∃ zeros < 8, 6 * (encodeBytes bytes).length = 8 * bytes.length + zeros ∧
      bigEndian 64 (encodeBytes bytes) = bigEndian 256 bytes * 2 ^ zeros := by
  fun_induction encodeBytes bytes with
  | case1 => exact ⟨0, by decide, rfl, rfl⟩
  | case2 a =>
      refine ⟨4, by decide, rfl, ?_⟩
      simp [bigEndian, Nat.ofDigits]
      omega
  | case3 a b =>
      refine ⟨2, by decide, rfl, ?_⟩
      simp [bigEndian, Nat.ofDigits]
      omega
  | case4 a b c rest ih =>
      obtain ⟨zeros, hzeros, hlength, hvalue⟩ :=
        ih fun byte hmem => hbytes byte (by simp [hmem])
      refine ⟨zeros, hzeros, ?_, ?_⟩
      · simp only [List.length_cons]
        omega
      · have hgroup : bigEndian 64 [a / 4, a % 4 * 16 + b / 16,
            b % 16 * 4 + c / 64, c % 64] = bigEndian 256 [a, b, c] := by
          simp [bigEndian, Nat.ofDigits]
          omega
        have hpow : 64 ^ (encodeBytes rest).length =
            256 ^ rest.length * 2 ^ zeros := by
          calc (64 : ℕ) ^ (encodeBytes rest).length
              = 2 ^ (6 * (encodeBytes rest).length) := by
                rw [Nat.pow_mul]
            _ = 2 ^ (8 * rest.length) * 2 ^ zeros := by
                rw [hlength, Nat.pow_add]
            _ = 256 ^ rest.length * 2 ^ zeros := by
                rw [Nat.pow_mul]
        change bigEndian 64 ([a / 4, a % 4 * 16 + b / 16, b % 16 * 4 + c / 64,
          c % 64] ++ encodeBytes rest) = bigEndian 256 ([a, b, c] ++ rest) * _
        rw [bigEndian_append, bigEndian_append, hgroup, hvalue, hpow]
        ring

theorem leadingBytes_encodeBytes {bytes : List ℕ}
    (hbytes : ∀ byte ∈ bytes, byte < 256) :
    leadingBytes (encodeBytes bytes) = bytes := by
  obtain ⟨zeros, hzeros, hlength, hvalue⟩ := encodeBytes_value hbytes
  symm
  apply eq_leadingBytes hbytes
  · omega
  · have hphase : 6 * (encodeBytes bytes).length % 8 = zeros := by omega
    rw [hphase, hvalue, Nat.mul_div_cancel _ (by positivity)]

theorem sextets_encode (padded : Bool) {s : Text}
    (hbytes : ∀ c ∈ s, c.toNat < 256) :
    sextets (encode padded s) = encodeBytes (s.map Char.toNat) := by
  have hvalues : ∀ t ∈ encodeBytes (s.map Char.toNat), t < 64 := by
    apply encodeBytes_lt
    simpa using hbytes
  have hpadding : sextets (if padded then padding s.length else []) = [] := by
    cases padded with
    | false => rfl
    | true => exact sextets_padding s.length
  rw [encode, sextets_alphabetChar hvalues, hpadding, List.append_nil]

theorem decode_encode (padded : Bool) {s : Text}
    (hbytes : ∀ c ∈ s, c.toNat < 256) : decode (encode padded s) = s := by
  have hnumbers : ∀ byte ∈ s.map Char.toNat, byte < 256 := by
    simpa using hbytes
  rw [decode_eq, sextets_encode padded hbytes,
    leadingBytes_encodeBytes hnumbers, List.map_map]
  calc s.map (Char.ofNat ∘ Char.toNat)
      = s.map id := List.map_congr_left fun c _ => Char.ofNat_toNat c
    _ = s := List.map_id s

/-- Decoding keeps the whole bytes of the 6-bit values in front of the first
other character, and so undoes the encoding of every string of bytes. -/
theorem decode_leadingBytes_encode (input : Text) (padded : Bool) (s : Text)
    (hbytes : ∀ c ∈ s, c.toNat < 256) :
    decode input = (leadingBytes (sextets input)).map Char.ofNat ∧
      decode (encode padded s) = s :=
  ⟨decode_eq input, decode_encode padded hbytes⟩

theorem decode_leadingBytes_encode_umlaut :
    decode "dPxyOjE=x".toList =
        (leadingBytes (sextets "dPxyOjE=x".toList)).map Char.ofNat ∧
      decode (encode true ['t', 'ü', 'r', ':', '1']) =
        ['t', 'ü', 'r', ':', '1'] := by
  apply decode_leadingBytes_encode
  simp

end Base64
end Swifties
