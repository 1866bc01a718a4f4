import Mathlib.Algebra.GroupWithZero.Nat
import Mathlib.Data.List.Basic

/-!
# Codes

Encodings into octets that carry the proof that they decode, and the ways to build one from
others. A list of octet strings is written with the length of each string before it.
-/

namespace Code

/-- A number as a sum of octets, of which the last is not 255. -/
def sumOf (n : Nat) : List UInt8 := List.replicate (n / 255) 255 ++ [UInt8.ofNat (n % 255)]

def pack : List (List UInt8) → List UInt8
  | [] => []
  | string :: rest => sumOf string.length ++ string ++ pack rest

/-- What is read: the length of a string so far, or its octets so far in reverse. -/
inductive Reading where
  | length (n : Nat)
  | octets (missing : Nat) (read : List UInt8)

def unpackFrom : Reading → List UInt8 → Option (List (List UInt8))
  | .length n, [] => if n = 0 then some [] else none
  | .octets _ _, [] => none
  | .length n, o :: rest =>
    if o = 255 then unpackFrom (.length (n + 255)) rest
    else if n + o.toNat = 0 then (unpackFrom (.length 0) rest).map ([] :: ·)
    else unpackFrom (.octets (n + o.toNat) []) rest
  | .octets missing read, o :: rest =>
    if missing = 1 then (unpackFrom (.length 0) rest).map ((o :: read).reverse :: ·)
    else unpackFrom (.octets (missing - 1) (o :: read)) rest

def unpack (octets : List UInt8) : Option (List (List UInt8)) := unpackFrom (.length 0) octets

theorem unpackFrom_sumOf (n q : Nat) (rest : List UInt8) :
    unpackFrom (.length n) (List.replicate q 255 ++ rest) =
      unpackFrom (.length (n + q * 255)) rest := by
  induction q generalizing n with
  | zero =>
    rw [Nat.zero_mul]
    rfl
  | succ q ih =>
    rw [List.replicate_succ, List.cons_append, unpackFrom, if_pos rfl, ih]
    congr 2
    omega

theorem unpackFrom_octets (string read rest : List UInt8) (hne : string ≠ []) :
    unpackFrom (.octets string.length read) (string ++ rest) =
      (unpackFrom (.length 0) rest).map ((read.reverse ++ string) :: ·) := by
  induction string generalizing read with
  | nil => exact absurd rfl hne
  | cons o string ih =>
    rw [List.cons_append, unpackFrom, List.length_cons, List.reverse_cons]
    by_cases hnil : string = []
    · subst hnil
      exact if_pos rfl
    · have hlen : string.length ≠ 0 := fun h => hnil (List.length_eq_zero_iff.mp h)
      rw [if_neg (by omega), Nat.add_sub_cancel, ih (o :: read) hnil, List.reverse_cons,
        List.append_assoc]
      rfl

theorem unpack_string (string rest : List UInt8) :
    unpack (sumOf string.length ++ string ++ rest) = (unpack rest).map (string :: ·) := by
  have hlt : string.length % 255 < 255 := Nat.mod_lt _ (by decide)
  have hlast : (UInt8.ofNat (string.length % 255)).toNat = string.length % 255 :=
    UInt8.toNat_ofNat_of_lt' (by change _ < 256; omega)
  have hne : UInt8.ofNat (string.length % 255) ≠ 255 := by
    intro h
    rw [h] at hlast
    change 255 = _ at hlast
    omega
  have hsum : 0 + string.length / 255 * 255 + string.length % 255 = string.length := by omega
  rw [unpack, sumOf, List.append_assoc, List.append_assoc, unpackFrom_sumOf, List.cons_append,
    unpackFrom, if_neg hne, hlast, hsum]
  split
  · rename_i hnil
    rw [List.length_eq_zero_iff.mp hnil]
    rfl
  · rename_i hlen
    exact unpackFrom_octets string [] rest fun h => hlen (List.length_eq_zero_iff.mpr h)

theorem unpack_pack (strings : List (List UInt8)) : unpack (pack strings) = some strings := by
  induction strings with
  | nil => rfl
  | cons string strings ih => rw [pack, unpack_string, ih, Option.map_some]

theorem pack_inj {a b : List (List UInt8)} : pack a = pack b ↔ a = b := by
  refine ⟨fun h => ?_, congrArg pack⟩
  have ha := unpack_pack a
  rw [h, unpack_pack] at ha
  exact (Option.some.inj ha).symm

end Code

/-- What is encoded is decoded. -/
structure Code (α : Type) where
  dump : α → List UInt8
  parse : List UInt8 → Option α
  parse_dump : ∀ x, parse (dump x) = some x

namespace Code
variable {α β : Type}

theorem dump_inj (c : Code α) {x y : α} (h : c.dump x = c.dump y) : x = y := by
  have hx := c.parse_dump x
  rw [h, c.parse_dump] at hx
  exact (Option.some.inj hx).symm

def octets : Code (List UInt8) := ⟨id, some, fun _ => rfl⟩

/-- Values that can be read off values with a code. -/
def via (c : Code α) (f : β → α) (g : α → β) (h : ∀ x, g (f x) = x) : Code β where
  dump x := c.dump (f x)
  parse o := (c.parse o).map g
  parse_dump x := by rw [c.parse_dump, Option.map_some, h]

def pair (a : Code α) (b : Code β) : Code (α × β) where
  dump x := pack [a.dump x.1, b.dump x.2]
  parse o :=
    match unpack o with
    | some [x, y] => do return (← a.parse x, ← b.parse y)
    | _ => none
  parse_dump x := by
    rw [unpack_pack]
    simp only [a.parse_dump, b.parse_dump]
    rfl

theorem mapM_parse (c : Code α) (xs : List α) : (xs.map c.dump).mapM c.parse = some xs := by
  induction xs with
  | nil => rfl
  | cons x xs ih =>
    rw [List.map_cons, List.mapM_cons, c.parse_dump, ih]
    rfl

def list (c : Code α) : Code (List α) where
  dump xs := pack (xs.map c.dump)
  parse o := (unpack o).bind fun strings => strings.mapM c.parse
  parse_dump xs := by rw [unpack_pack, Option.bind_some, c.mapM_parse]

def option (c : Code α) : Code (Option α) :=
  c.list.via Option.toList List.head? fun x => by cases x <;> rfl

def nat : Code Nat :=
  octets.via sumOf (fun o => (o.map UInt8.toNat).sum) fun n => by
    have hlast : (UInt8.ofNat (n % 255)).toNat = n % 255 :=
      UInt8.toNat_ofNat_of_lt' (by change n % 255 < 256; omega)
    rw [sumOf, List.map_append, List.sum_append, List.map_replicate, List.sum_replicate_nat]
    simp only [List.map_cons, List.map_nil, List.sum_cons, List.sum_nil, hlast]
    change n / 255 * 255 + (n % 255 + 0) = n
    omega

def int : Code Int :=
  (nat.pair nat).via (fun x => (x.toNat, (-x).toNat)) (fun x => x.1 - x.2) fun x => by
    change (x.toNat : Int) - ((-x).toNat : Int) = x
    omega

end Code
