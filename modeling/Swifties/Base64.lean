import Swifties.Text

/-!
# Base64 decoding

`base64_decode` keeps the bits it has read in a 32-bit `int` and counts in
`valb` how many of them are ready, less eight.  It stops at the first character
outside the alphabet.
-/

namespace Swifties

namespace Base64

def alphabet : Text :=
  "ABCDEFGHIJKLMNOPQRSTUVWXYZabcdefghijklmnopqrstuvwxyz0123456789+/".toList

def sextet? (c : Char) : Option ℕ := alphabet.findIdx? fun d => d == c

def byteAt (val : BitVec 32) (valb : ℕ) : Char :=
  Char.ofNat ((val.sshiftRight valb) &&& 0xFF#32).toNat

/-- The loop of `base64_decode`; the shift on `val` drops what does not fit. -/
def decodeLoop : Text → BitVec 32 → ℤ → Text → Text
  | [], _, _, out => out
  | c :: rest, val, valb, out =>
      match sextet? c with
      | none => out
      | some t =>
          let val := (val <<< 6) + BitVec.ofNat 32 t
          let valb := valb + 6
          if 0 ≤ valb then
            decodeLoop rest val (valb - 8) (out ++ [byteAt val valb.toNat])
          else decodeLoop rest val valb out

def decode (input : Text) : Text := decodeLoop input 0 (-8) []

example : decode "dGFyaXE6MTIz".toList = "tariq:123".toList := by
  decide +kernel

end Base64

end Swifties
