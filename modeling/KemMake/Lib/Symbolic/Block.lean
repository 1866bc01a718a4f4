/-!
# Symbolic octet strings

An octet string is a list of blocks, and concatenation is list append: where one
block ends is known, but two lists that read the same are the same string. A
block is a literal octet, a name (a value somebody drew), or the result of a
cryptographic operation on octet strings. The KEM has parameter sets `κ`, the
AEAD algorithms are `α`, the names `ν`.
-/

namespace Symbolic

inductive Block (κ α ν : Type) where
  | octet (n : Nat)
  | name (n : ν)
  /-- Public key of the key pair grown from a seed. -/
  | pub (l : κ) (seed : List (Block κ α ν))
  /-- Ciphertext of encapsulating to `pk` with given coins. -/
  | encap (l : κ) (pk coins : List (Block κ α ν))
  /-- The secret of that encapsulation. -/
  | shared (l : κ) (pk coins : List (Block κ α ν))
  /-- The secret of decapsulating a ciphertext made for another key. -/
  | rejected (l : κ) (seed ct : List (Block κ α ν))
  | kdf (length : Nat) (salt info ikm : List (Block κ α ν))
  | aead (a : α) (key nonce text ad : List (Block κ α ν))
  | digest (text : List (Block κ α ν))
  /-- A string with a known pad added to it. -/
  | mask (bytes : List (Block κ α ν)) (pad : List Nat)

namespace Block
variable {κ α ν : Type}

section
variable [DecidableEq κ] [DecidableEq α] [DecidableEq ν]

mutual

def beq : Block κ α ν → Block κ α ν → Bool
  | .octet m, .octet n => m == n
  | .name m, .name n => m == n
  | .pub k s, .pub l t => k == l && beqs s t
  | .encap k p c, .encap l q d => k == l && beqs p q && beqs c d
  | .shared k p c, .shared l q d => k == l && beqs p q && beqs c d
  | .rejected k s c, .rejected l t d => k == l && beqs s t && beqs c d
  | .kdf m s i k, .kdf n t j l => m == n && beqs s t && beqs i j && beqs k l
  | .aead a k n p d, .aead b l m q e =>
    a == b && beqs k l && beqs n m && beqs p q && beqs d e
  | .digest s, .digest t => beqs s t
  | .mask s p, .mask t q => beqs s t && p == q
  | _, _ => false

def beqs : List (Block κ α ν) → List (Block κ α ν) → Bool
  | [], [] => true
  | a :: s, b :: t => beq a b && beqs s t
  | _, _ => false

end

mutual

theorem beq_iff : ∀ a b : Block κ α ν, beq a b = true ↔ a = b
  | .octet _, b => by cases b <;> simp [beq]
  | .name _, b => by cases b <;> simp [beq]
  | .pub _ s, b => by cases b <;> simp [beq, beqs_iff s]
  | .encap _ p c, b => by cases b <;> simp [beq, beqs_iff p, beqs_iff c, and_assoc]
  | .shared _ p c, b => by cases b <;> simp [beq, beqs_iff p, beqs_iff c, and_assoc]
  | .rejected _ s c, b => by cases b <;> simp [beq, beqs_iff s, beqs_iff c, and_assoc]
  | .kdf _ s i k, b => by
    cases b <;> simp [beq, beqs_iff s, beqs_iff i, beqs_iff k, and_assoc]
  | .aead _ k n p d, b => by
    cases b <;> simp [beq, beqs_iff k, beqs_iff n, beqs_iff p, beqs_iff d, and_assoc]
  | .digest s, b => by cases b <;> simp [beq, beqs_iff s]
  | .mask s _, b => by cases b <;> simp [beq, beqs_iff s]

theorem beqs_iff : ∀ s t : List (Block κ α ν), beqs s t = true ↔ s = t
  | [], t => by cases t <;> simp [beqs]
  | a :: s, t => by cases t <;> simp [beqs, beq_iff a, beqs_iff s]

end

instance : DecidableEq (Block κ α ν) := fun a b => decidable_of_iff _ (beq_iff a b)

end

section
variable (pubLen encapLen : κ → Nat) (nameLen : ν → Nat)

/- Lengths in octets. A shared secret and a digest are 32 octets, a sealed text is
16 octets longer than the text. -/
mutual

def len : Block κ α ν → Nat
  | .octet _ => 1
  | .name n => nameLen n
  | .pub l _ => pubLen l
  | .encap l _ _ => encapLen l
  | .shared .. => 32
  | .rejected .. => 32
  | .kdf n .. => n
  | .aead _ _ _ text _ => lens text + 16
  | .digest _ => 32
  | .mask _ pad => pad.length

def lens : List (Block κ α ν) → Nat
  | [] => 0
  | b :: s => len b + lens s

end
end

end Block

end Symbolic
