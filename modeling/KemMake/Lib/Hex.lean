import Mathlib.Data.List.Basic

/-!
# Hexadecimal text

Octets written as two lower-case digits each, in ASCII, and read back. Reading takes digits
of either case, and spaces between octets.
-/

namespace Hex

/-- The digit of a number below sixteen. -/
def digit (n : Nat) : UInt8 := if n < 10 then UInt8.ofNat (48 + n) else UInt8.ofNat (87 + n)

def encode (octets : List UInt8) : List UInt8 :=
  octets.flatMap fun o => [digit (o.toNat / 16), digit (o.toNat % 16)]

def value (c : UInt8) : Option Nat :=
  let n := c.toNat
  if 48 ≤ n ∧ n < 58 then some (n - 48)
  else if 97 ≤ n ∧ n < 103 then some (n - 87)
  else if 65 ≤ n ∧ n < 71 then some (n - 55)
  else none

def blank (c : UInt8) : Bool := c.toNat = 32 || (9 ≤ c.toNat && c.toNat ≤ 13)

def decode : List UInt8 → Option (List UInt8)
  | [] => some []
  | [c] => if blank c then some [] else none
  | c :: c' :: rest =>
    if blank c then decode (c' :: rest)
    else do
      let high ← value c
      let low ← value c'
      let octets ← decode rest
      return UInt8.ofNat (16 * high + low) :: octets

theorem value_digit : ∀ n < 16, value (digit n) = some n := by decide

theorem digit_ascii : ∀ n < 16, (digit n).toNat < 128 ∧ blank (digit n) = false := by decide

@[simp] theorem encode_cons (o : UInt8) (octets : List UInt8) :
    encode (o :: octets) = digit (o.toNat / 16) :: digit (o.toNat % 16) :: encode octets := rfl

theorem decode_encode (octets : List UInt8) : decode (encode octets) = some octets := by
  induction octets with
  | nil => rfl
  | cons o octets ih =>
    have ho : o.toNat < 256 := o.toNat_lt
    have hhigh : o.toNat / 16 < 16 := by omega
    have hlow : o.toNat % 16 < 16 := by omega
    have hsum : 16 * (o.toNat / 16) + o.toNat % 16 = o.toNat := by omega
    rw [encode_cons, decode, (digit_ascii _ hhigh).2, value_digit _ hhigh, value_digit _ hlow, ih]
    change some (UInt8.ofNat (16 * (o.toNat / 16) + o.toNat % 16) :: octets) = some (o :: octets)
    rw [hsum, UInt8.ofNat_toNat]

theorem encode_inj {a b : List UInt8} : encode a = encode b ↔ a = b := by
  refine ⟨fun h => ?_, congrArg encode⟩
  have ha := decode_encode a
  rw [h, decode_encode] at ha
  exact (Option.some.inj ha).symm

/-- Hexadecimal text is ASCII. -/
theorem encode_ascii (octets : List UInt8) : ∀ c ∈ encode octets, c.toNat < 128 := by
  induction octets with
  | nil => simp [encode]
  | cons o octets ih =>
    have ho : o.toNat < 256 := o.toNat_lt
    have hhigh : o.toNat / 16 < 16 := by omega
    have hlow : o.toNat % 16 < 16 := by omega
    rw [encode_cons]
    intro c hc
    rcases List.mem_cons.mp hc with rfl | hc
    · exact (digit_ascii _ hhigh).1
    · rcases List.mem_cons.mp hc with rfl | hc
      · exact (digit_ascii _ hlow).1
      · exact ih c hc

end Hex
