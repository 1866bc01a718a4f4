import Mathlib.Data.Set.Basic
import KemMake.Lib.Symbolic.Block

/-!
# What an adversary can derive

`Derives K b`: an adversary who holds the blocks `K` can compute `b`, by applying
public operations and undoing those whose key it holds. `Exposed N L` is a set
that contains everything derivable, made from the names `N` given away and the
sealed or digested blocks `L` that were sent; `Derives.exposed` is the rule that
secrecy proofs use, and the lemmas after it read a secret's exposure back.
-/

namespace Symbolic

variable {κ α ν : Type}

/-- Every block of a string. -/
def All (S : Block κ α ν → Prop) (s : List (Block κ α ν)) : Prop := ∀ b ∈ s, S b

@[simp] theorem all_nil (S : Block κ α ν → Prop) : All S [] := by simp [All]

@[simp] theorem all_cons {S : Block κ α ν → Prop} {b : Block κ α ν} {s : List (Block κ α ν)} :
    All S (b :: s) ↔ S b ∧ All S s := by simp [All]

@[simp] theorem all_append {S : Block κ α ν → Prop} {s t : List (Block κ α ν)} :
    All S (s ++ t) ↔ All S s ∧ All S t := by
  simp only [All, List.mem_append]
  exact ⟨fun h => ⟨fun b hb => h b (.inl hb), fun b hb => h b (.inr hb)⟩,
    fun h b hb => hb.elim (h.1 b) (h.2 b)⟩

theorem All.mono {S T : Block κ α ν → Prop} {s : List (Block κ α ν)} (h : All S s)
    (hST : ∀ b, S b → T b) : All T s := fun b hb => hST b (h b hb)

inductive Derives (K : Set (Block κ α ν)) : Block κ α ν → Prop
  | known {b} : b ∈ K → Derives K b
  | octet (n : Nat) : Derives K (.octet n)
  | pub {l seed} : (∀ b ∈ seed, Derives K b) → Derives K (.pub l seed)
  | encap {l pk coins} : (∀ b ∈ pk, Derives K b) → (∀ b ∈ coins, Derives K b) →
      Derives K (.encap l pk coins)
  | shared {l pk coins} : (∀ b ∈ pk, Derives K b) → (∀ b ∈ coins, Derives K b) →
      Derives K (.shared l pk coins)
  | decap {l seed coins} : (∀ b ∈ seed, Derives K b) →
      Derives K (.encap l [.pub l seed] coins) → Derives K (.shared l [.pub l seed] coins)
  | reject {l seed ct} : (∀ b ∈ seed, Derives K b) → (∀ b ∈ ct, Derives K b) →
      Derives K (.rejected l seed ct)
  | kdf {n salt info ikm} : (∀ b ∈ salt, Derives K b) → (∀ b ∈ info, Derives K b) →
      (∀ b ∈ ikm, Derives K b) → Derives K (.kdf n salt info ikm)
  | aead {a key nonce text ad} : (∀ b ∈ key, Derives K b) → (∀ b ∈ nonce, Derives K b) →
      (∀ b ∈ text, Derives K b) → (∀ b ∈ ad, Derives K b) →
      Derives K (.aead a key nonce text ad)
  | openAead {a key nonce text ad b} : Derives K (.aead a key nonce text ad) →
      (∀ b ∈ key, Derives K b) → b ∈ text → Derives K b
  | digest {text} : (∀ b ∈ text, Derives K b) → Derives K (.digest text)
  | mask {bytes} (pad : List Nat) : (∀ b ∈ bytes, Derives K b) → Derives K (.mask bytes pad)
  | unmask {bytes pad b} : Derives K (.mask bytes pad) → b ∈ bytes → Derives K b

theorem Derives.mono {K K' : Set (Block κ α ν)} (hK : K ⊆ K') {b : Block κ α ν}
    (h : Derives K b) : Derives K' b := by
  induction h with
  | known hb => exact .known (hK hb)
  | octet n => exact .octet n
  | pub _ ih => exact .pub ih
  | encap _ _ ih₁ ih₂ => exact .encap ih₁ ih₂
  | shared _ _ ih₁ ih₂ => exact .shared ih₁ ih₂
  | decap _ _ ih₁ ih₂ => exact .decap ih₁ ih₂
  | reject _ _ ih₁ ih₂ => exact .reject ih₁ ih₂
  | kdf _ _ _ ih₁ ih₂ ih₃ => exact .kdf ih₁ ih₂ ih₃
  | aead _ _ _ _ ih₁ ih₂ ih₃ ih₄ => exact .aead ih₁ ih₂ ih₃ ih₄
  | openAead _ _ hb ih₁ ih₂ => exact .openAead ih₁ ih₂ hb
  | digest _ ih => exact .digest ih
  | mask pad _ ih => exact .mask pad ih
  | unmask _ hb ih => exact .unmask ih hb

/-- What may be known when the names `N` are, and the blocks `L` were sent. Public
keys and KEM ciphertexts always are. A shared secret is when a seed of its key
or its coins are, and when its key is no key pair's. -/
inductive Exposed (N : Set ν) (L : Set (Block κ α ν)) : Block κ α ν → Prop
  | sent {b} : b ∈ L → Exposed N L b
  | octet (n : Nat) : Exposed N L (.octet n)
  | name {n} : n ∈ N → Exposed N L (.name n)
  | pub (l seed) : Exposed N L (.pub l seed)
  | encap (l pk coins) : Exposed N L (.encap l pk coins)
  | sharedSeed {l seed coins} : (∀ b ∈ seed, Exposed N L b) →
      Exposed N L (.shared l [.pub l seed] coins)
  | sharedCoins {l pk coins} : (∀ b ∈ coins, Exposed N L b) → Exposed N L (.shared l pk coins)
  | sharedForeign {l pk coins} : (∀ seed, pk ≠ [.pub l seed]) → Exposed N L (.shared l pk coins)
  | rejected {l seed ct} : (∀ b ∈ seed, Exposed N L b) → Exposed N L (.rejected l seed ct)
  | kdf {n salt info ikm} : (∀ b ∈ ikm, Exposed N L b) → Exposed N L (.kdf n salt info ikm)
  | aead {a key nonce text ad} : (∀ b ∈ key, Exposed N L b) → (∀ b ∈ text, Exposed N L b) →
      Exposed N L (.aead a key nonce text ad)
  | digest {text} : (∀ b ∈ text, Exposed N L b) → Exposed N L (.digest text)
  | mask {bytes pad} : (∀ b ∈ bytes, Exposed N L b) → Exposed N L (.mask bytes pad)

theorem Exposed.mono {N N' : Set ν} {L L' : Set (Block κ α ν)} (hN : N ⊆ N') (hL : L ⊆ L')
    {b : Block κ α ν} (h : Exposed N L b) : Exposed N' L' b := by
  induction h with
  | sent hb => exact .sent (hL hb)
  | octet n => exact .octet n
  | name hn => exact .name (hN hn)
  | pub l seed => exact .pub l seed
  | encap l pk coins => exact .encap l pk coins
  | sharedSeed _ ih => exact .sharedSeed ih
  | sharedCoins _ ih => exact .sharedCoins ih
  | sharedForeign h => exact .sharedForeign h
  | rejected _ ih => exact .rejected ih
  | kdf _ ih => exact .kdf ih
  | aead _ _ ih₁ ih₂ => exact .aead ih₁ ih₂
  | digest _ ih => exact .digest ih
  | mask _ ih => exact .mask ih

/-- Sealed texts and digests only. -/
def Wrapped (L : Set (Block κ α ν)) : Prop :=
  ∀ b ∈ L, (∃ a key nonce text ad, b = .aead a key nonce text ad) ∨ ∃ text, b = .digest text

/-- A sealed text whose key may be known has a text that may be. -/
structure Discreet (N : Set ν) (L : Set (Block κ α ν)) : Prop where
  wrapped : Wrapped L
  text : ∀ a key nonce text ad, .aead a key nonce text ad ∈ L →
    All (Exposed N L) key → All (Exposed N L) text

section
variable {N : Set ν} {L : Set (Block κ α ν)} (hL : Wrapped L)
include hL

theorem Wrapped.not_sent {b : Block κ α ν} (hs : ∀ a key nonce text ad, b ≠ .aead a key nonce text ad)
    (hd : ∀ text, b ≠ .digest text) : b ∉ L := by
  intro hb
  rcases hL b hb with ⟨a, key, nonce, text, ad, h⟩ | ⟨text, h⟩
  · exact hs _ _ _ _ _ h
  · exact hd _ h

theorem exposed_name {n : ν} : Exposed N L (.name n) ↔ n ∈ N := by
  refine ⟨fun h => ?_, .name⟩
  cases h with
  | sent h => exact absurd h (hL.not_sent (by simp) (by simp))
  | name h => exact h

theorem exposed_shared {l : κ} {seed coins : List (Block κ α ν)}
    (h : Exposed N L (.shared l [.pub l seed] coins)) :
    All (Exposed N L) seed ∨ All (Exposed N L) coins := by
  cases h with
  | sent h => exact absurd h (hL.not_sent (by simp) (by simp))
  | sharedSeed h => exact .inl h
  | sharedCoins h => exact .inr h
  | sharedForeign h => exact absurd rfl (h seed)

theorem exposed_kdf {n : Nat} {salt info ikm : List (Block κ α ν)}
    (h : Exposed N L (.kdf n salt info ikm)) : All (Exposed N L) ikm := by
  cases h with
  | sent h => exact absurd h (hL.not_sent (by simp) (by simp))
  | kdf h => exact h

theorem exposed_mask {bytes : List (Block κ α ν)} {pad : List Nat}
    (h : Exposed N L (.mask bytes pad)) : All (Exposed N L) bytes := by
  cases h with
  | sent h => exact absurd h (hL.not_sent (by simp) (by simp))
  | mask h => exact h

omit hL in
theorem exposed_aead {a : α} {key nonce text ad : List (Block κ α ν)}
    (h : Exposed N L (.aead a key nonce text ad)) :
    .aead a key nonce text ad ∈ L ∨ All (Exposed N L) key ∧ All (Exposed N L) text := by
  cases h with
  | sent h => exact .inl h
  | aead hk ht => exact .inr ⟨hk, ht⟩

omit hL in
theorem exposed_digest {text : List (Block κ α ν)} (h : Exposed N L (.digest text)) :
    .digest text ∈ L ∨ All (Exposed N L) text := by
  cases h with
  | sent h => exact .inl h
  | digest h => exact .inr h

omit hL in
/-- Everything derivable from exposed blocks is exposed. -/
theorem Derives.exposed (hL : Discreet N L) {K : Set (Block κ α ν)} (hK : ∀ b ∈ K, Exposed N L b)
    {b : Block κ α ν} (h : Derives K b) : Exposed N L b := by
  induction h with
  | known hb => exact hK _ hb
  | octet n => exact .octet n
  | pub => exact .pub _ _
  | encap => exact .encap _ _ _
  | shared _ _ _ ih => exact .sharedCoins ih
  | decap _ _ ih => exact .sharedSeed ih
  | reject _ _ ih => exact .rejected ih
  | kdf _ _ _ _ _ ih => exact .kdf ih
  | aead _ _ _ _ ih₁ _ ih₂ => exact .aead ih₁ ih₂
  | openAead _ _ hb ih₁ ih₂ =>
    rcases exposed_aead ih₁ with hs | ⟨_, ht⟩
    · exact hL.text _ _ _ _ _ hs ih₂ _ hb
    · exact ht _ hb
  | digest _ ih => exact .digest ih
  | mask pad _ ih => exact .mask ih
  | unmask _ hb ih => exact exposed_mask hL.wrapped ih _ hb

end

/-! ## Without a single name -/

/-- What takes no name to make: public keys are known whatever their seeds are. -/
inductive Nameless : Block κ α ν → Prop
  | octet (n : Nat) : Nameless (.octet n)
  | pub (l seed) : Nameless (.pub l seed)
  | encap {l pk coins} : (∀ b ∈ coins, Nameless b) → Nameless (.encap l pk coins)
  | shared {l pk coins} : (∀ b ∈ coins, Nameless b) → Nameless (.shared l pk coins)
  | rejected {l seed ct} : (∀ b ∈ seed, Nameless b) → Nameless (.rejected l seed ct)
  | kdf {n salt info ikm} : (∀ b ∈ ikm, Nameless b) → Nameless (.kdf n salt info ikm)
  | aead {a key nonce text ad} : (∀ b ∈ text, Nameless b) →
      Nameless (.aead a key nonce text ad)
  | digest {text} : (∀ b ∈ text, Nameless b) → Nameless (.digest text)
  | mask {bytes pad} : (∀ b ∈ bytes, Nameless b) → Nameless (.mask bytes pad)

theorem not_nameless_name {n : ν} : ¬ Nameless (.name n : Block κ α ν) := by
  intro h
  cases h

/-- The coins of an encapsulation are as nameless as its ciphertext. -/
theorem nameless_encap {l : κ} {pk coins : List (Block κ α ν)} (h : Nameless (.encap l pk coins)) :
    All Nameless coins := by
  cases h with
  | encap h => exact h

/-- Whoever holds nothing with a name in it derives nothing with one. -/
theorem Derives.nameless {K : Set (Block κ α ν)} (hK : ∀ b ∈ K, Nameless b) {b : Block κ α ν}
    (h : Derives K b) : Nameless b := by
  induction h with
  | known hb => exact hK _ hb
  | octet n => exact .octet n
  | pub => exact .pub _ _
  | encap _ _ _ ih => exact .encap ih
  | shared _ _ _ ih => exact .shared ih
  | decap _ _ _ ih => exact .shared (nameless_encap ih)
  | reject _ _ ih => exact .rejected ih
  | kdf _ _ _ _ _ ih => exact .kdf ih
  | aead _ _ _ _ _ _ ih => exact .aead ih
  | openAead _ _ hb ih =>
    cases ih with
    | aead ht => exact ht _ hb
  | digest _ ih => exact .digest ih
  | mask _ _ ih => exact .mask ih
  | unmask _ hb ih =>
    cases ih with
    | mask hbytes => exact hbytes _ hb

end Symbolic
