import Mathlib.Data.Nat.Digits.Lemmas

/-!
# DER

The distinguished encoding of X.690, as far as one-octet identifiers and definite lengths go:
integers, octet strings, object identifiers, sequences with optional and default fields,
implicit tags and choices. Each type carries its encoding, a reader for it and the proof that
the reader gets back what has been encoded, so the encodings are unambiguous by construction.
The reader accepts lengths that are longer than need be, as BER does.
-/

namespace Der

/-! ## Numbers -/

/-- Big-endian and minimal; nothing for zero. -/
def natOctets (n : Nat) : List UInt8 := ((Nat.digits 256 n).map UInt8.ofNat).reverse

def natOf (octets : List UInt8) : Nat := Nat.ofDigits 256 (octets.reverse.map UInt8.toNat)

theorem toNat_ofNat {n : Nat} (h : n < 256) : (UInt8.ofNat n).toNat = n :=
  UInt8.toNat_ofNat_of_lt' h

theorem map_toNat_ofNat {digits : List Nat} (h : ∀ d ∈ digits, d < 256) :
    (digits.map UInt8.ofNat).map UInt8.toNat = digits := by
  rw [List.map_map]
  exact (List.map_congr_left fun d hd => toNat_ofNat (h d hd)).trans (List.map_id _)

theorem natOf_natOctets (n : Nat) : natOf (natOctets n) = n := by
  rw [natOf, natOctets, List.reverse_reverse,
    map_toNat_ofNat fun d hd => Nat.digits_lt_base (by decide) hd, Nat.ofDigits_digits]

theorem natOf_zero_cons (octets : List UInt8) : natOf (0 :: octets) = natOf octets := by
  rw [natOf, List.reverse_cons, List.map_append]
  exact Nat.ofDigits_append_zero _

theorem natOctets_length {n k : Nat} (h : n < 256 ^ k) : (natOctets n).length ≤ k := by
  rw [natOctets, List.length_reverse, List.length_map]
  exact (Nat.digits_length_le_iff (by decide) n).mpr h

/-! ## Lengths -/

/-- X.690 gives a length at most 126 octets of its own. -/
def maxLength : Nat := 256 ^ 126

def lengthOctets (n : Nat) : List UInt8 :=
  if n < 128 then [UInt8.ofNat n]
  else UInt8.ofNat (128 + (natOctets n).length) :: natOctets n

/-- A definite length, and what follows it. -/
def readLength : List UInt8 → Option (Nat × List UInt8)
  | [] => none
  | first :: rest =>
    if first.toNat < 128 then some (first.toNat, rest)
    else
      let k := first.toNat - 128
      if k = 0 ∨ rest.length < k then none
      else some (natOf (rest.take k), rest.drop k)

theorem readLength_lengthOctets {n : Nat} (hn : n < maxLength) (rest : List UInt8) :
    readLength (lengthOctets n ++ rest) = some (n, rest) := by
  unfold lengthOctets
  split
  · rename_i hshort
    have hfirst := toNat_ofNat (n := n) (by omega)
    simp only [List.cons_append, List.nil_append, readLength, hfirst, hshort, ↓reduceIte]
  · rename_i hlong
    have hk := natOctets_length hn
    have hpos : 0 < (natOctets n).length := by
      apply List.length_pos_of_ne_nil
      intro hnil
      have hzero := natOf_natOctets n
      rw [hnil] at hzero
      change 0 = n at hzero
      omega
    have hfirst := toNat_ofNat (n := 128 + (natOctets n).length) (by omega)
    rw [List.cons_append, readLength, hfirst, if_neg (by omega), Nat.add_sub_cancel_left,
      List.length_append]
    rw [if_neg (by omega), List.take_left, List.drop_left, natOf_natOctets]

/-! ## Types -/

/-- A type of values, each with an identifier octet of the type and contents. -/
structure Tagged (α : Type) where
  /-- The identifiers of the type. -/
  tags : UInt8 → Prop
  /-- The values that the type is for. -/
  wf : α → Prop
  identifier : α → UInt8
  content : α → List UInt8
  read : UInt8 → List UInt8 → Option α
  identifier_mem : ∀ x, tags (identifier x)
  read_content : ∀ x, wf x → (content x).length < maxLength →
    read (identifier x) (content x) = some x

namespace Tagged
variable {α β : Type}

def encode (t : Tagged α) (x : α) : List UInt8 :=
  t.identifier x :: (lengthOctets (t.content x).length ++ t.content x)

/-- The first value, and what follows it. -/
def decode (t : Tagged α) : List UInt8 → Option (α × List UInt8)
  | [] => none
  | identifier :: rest => do
    let (n, rest) ← readLength rest
    if rest.length < n then none
    else
      let x ← t.read identifier (rest.take n)
      return (x, rest.drop n)

theorem content_length (t : Tagged α) (x : α) : (t.content x).length ≤ (t.encode x).length := by
  rw [encode, List.length_cons, List.length_append]
  omega

theorem decode_encode (t : Tagged α) {x : α} (hx : t.wf x)
    (hlen : (t.encode x).length < maxLength) (rest : List UInt8) :
    t.decode (t.encode x ++ rest) = some (x, rest) := by
  have hcontent := Nat.lt_of_le_of_lt (t.content_length x) hlen
  rw [encode, List.cons_append, List.append_assoc, decode, readLength_lengthOctets hcontent]
  simp only [Option.bind_eq_bind, Option.bind_some, List.length_append]
  rw [if_neg (by omega), List.take_left, List.drop_left, t.read_content x hx hcontent]
  rfl

/-- Two values of one encoding are one value. -/
theorem encode_inj (t : Tagged α) {x y : α} (hx : t.wf x) (hy : t.wf y)
    (hlen : (t.encode x).length < maxLength) (h : t.encode x = t.encode y) : x = y := by
  have hdx := t.decode_encode hx hlen []
  rw [h, t.decode_encode hy (h ▸ hlen)] at hdx
  exact (Prod.mk.inj (Option.some.inj hdx)).1.symm

theorem encode_ne_nil (t : Tagged α) (x : α) : t.encode x ≠ [] := List.cons_ne_nil _ _

/-- One type out of two with different identifiers. -/
def choice (a : Tagged α) (b : Tagged β) [DecidablePred a.tags]
    (h : ∀ id, a.tags id → ¬ b.tags id) : Tagged (α ⊕ β) where
  tags id := a.tags id ∨ b.tags id
  wf := Sum.elim a.wf b.wf
  identifier := Sum.elim a.identifier b.identifier
  content := Sum.elim a.content b.content
  read id octets :=
    if a.tags id then (a.read id octets).map .inl else (b.read id octets).map .inr
  identifier_mem x := by
    cases x with
    | inl x => exact .inl (a.identifier_mem x)
    | inr x => exact .inr (b.identifier_mem x)
  read_content x hx hlen := by
    cases x with
    | inl x =>
      change (if a.tags (a.identifier x) then _ else _) = _
      rw [if_pos (a.identifier_mem x)]
      exact congrArg (Option.map Sum.inl) (a.read_content x hx hlen)
    | inr x =>
      change (if a.tags (b.identifier x) then _ else _) = _
      rw [if_neg fun ha => h _ ha (b.identifier_mem x)]
      exact congrArg (Option.map Sum.inr) (b.read_content x hx hlen)

instance (a : Tagged α) (b : Tagged β) [DecidablePred a.tags] [DecidablePred b.tags]
    (h : ∀ id, a.tags id → ¬ b.tags id) : DecidablePred (a.choice b h).tags :=
  fun id => inferInstanceAs (Decidable (a.tags id ∨ b.tags id))

/-- Values that stand for those of the type. -/
def via (t : Tagged α) (f : β → α) (g : α → β) (h : ∀ x, g (f x) = x) : Tagged β where
  tags := t.tags
  wf x := t.wf (f x)
  identifier x := t.identifier (f x)
  content x := t.content (f x)
  read id octets := (t.read id octets).map g
  identifier_mem x := t.identifier_mem (f x)
  read_content x hx hlen := by rw [t.read_content (f x) hx hlen, Option.map_some, h]

end Tagged

/-- A type with one identifier. -/
structure Element (α : Type) where
  tag : UInt8
  wf : α → Prop
  content : α → List UInt8
  read : List UInt8 → Option α
  read_content : ∀ x, wf x → (content x).length < maxLength → read (content x) = some x

namespace Element
variable {α β : Type}

def tagged (e : Element α) : Tagged α where
  tags id := id = e.tag
  wf := e.wf
  identifier _ := e.tag
  content := e.content
  read id octets := if id = e.tag then e.read octets else none
  identifier_mem _ := rfl
  read_content x hx hlen := by rw [if_pos rfl, e.read_content x hx hlen]

instance (e : Element α) : DecidablePred e.tagged.tags := fun id => decEq id e.tag

def encode (e : Element α) (x : α) : List UInt8 := e.tagged.encode x

def via (e : Element α) (f : β → α) (g : α → β) (h : ∀ x, g (f x) = x) : Element β where
  tag := e.tag
  wf x := e.wf (f x)
  content x := e.content (f x)
  read octets := (e.read octets).map g
  read_content x hx hlen := by rw [e.read_content (f x) hx hlen, Option.map_some, h]

theorem encode_inj (e : Element α) {x y : α} (hx : e.wf x) (hy : e.wf y)
    (hlen : (e.encode x).length < maxLength) (h : e.encode x = e.encode y) : x = y :=
  e.tagged.encode_inj hx hy hlen h

/-- An implicit tag of the context class, on a type that is constructed or not. -/
def implicit (e : Element α) (n : UInt8) : Element α :=
  { e with tag := 0x80 + (if e.tag = 0x30 then 0x20 else 0) + n }

end Element

/-! ## Integers -/

/-- A clear sign bit in front. -/
def positive (octets : List UInt8) : List UInt8 :=
  match octets with
  | [] => [0]
  | first :: rest => if first.toNat < 128 then first :: rest else 0 :: first :: rest

/-- Two's complement, minimal: the octets of `-(n + 1)` are those of `n` inverted. -/
def intOctets : Int → List UInt8
  | .ofNat n => positive (natOctets n)
  | .negSucc n => (positive (natOctets n)).map fun o => 255 - o

def readInt : List UInt8 → Option Int
  | [] => none
  | first :: rest =>
    if first.toNat < 128 then some (.ofNat (natOf (first :: rest)))
    else some (.negSucc (natOf ((first :: rest).map fun o => 255 - o)))

theorem natOf_positive (octets : List UInt8) : natOf (positive octets) = natOf octets := by
  unfold positive
  split
  · rfl
  · split
    · rfl
    · exact natOf_zero_cons _

theorem positive_cons (octets : List UInt8) :
    ∃ first rest, positive octets = first :: rest ∧ first.toNat < 128 := by
  unfold positive
  split
  · exact ⟨0, [], rfl, by decide⟩
  · split
    · rename_i first rest hfirst
      exact ⟨first, rest, rfl, hfirst⟩
    · rename_i first rest _
      exact ⟨0, first :: rest, rfl, by decide⟩

theorem invert_toNat (o : UInt8) : (255 - o).toNat = 255 - o.toNat := by
  have ho : o.toNat < 256 := o.toNat_lt
  have hle : o ≤ 255 := UInt8.le_iff_toNat_le.mpr (by change o.toNat ≤ 255; omega)
  rw [UInt8.toNat_sub_of_le _ _ hle]
  rfl

theorem invert_invert (octets : List UInt8) :
    (octets.map fun o => 255 - o).map (fun o => 255 - o) = octets := by
  rw [List.map_map]
  refine (List.map_congr_left fun o _ => ?_).trans (List.map_id _)
  have ho : o.toNat < 256 := o.toNat_lt
  apply UInt8.toNat_inj.mp
  change (255 - (255 - o)).toNat = o.toNat
  rw [invert_toNat, invert_toNat]
  omega

theorem readInt_intOctets (i : Int) : readInt (intOctets i) = some i := by
  cases i with
  | ofNat n =>
    obtain ⟨first, rest, hcons, hfirst⟩ := positive_cons (natOctets n)
    have hn : natOf (first :: rest) = n := by rw [← hcons, natOf_positive, natOf_natOctets]
    rw [intOctets, hcons, readInt, if_pos hfirst, hn]
  | negSucc n =>
    obtain ⟨first, rest, hcons, hfirst⟩ := positive_cons (natOctets n)
    have hn : natOf (first :: rest) = n := by rw [← hcons, natOf_positive, natOf_natOctets]
    have hinverted : ¬ (255 - first).toNat < 128 := by
      rw [invert_toNat]
      omega
    have hback := invert_invert (first :: rest)
    rw [List.map_cons] at hback
    rw [intOctets, hcons, List.map_cons, readInt, if_neg hinverted, hback, hn]

def integer : Element Int where
  tag := 0x02
  wf _ := True
  content := intOctets
  read := readInt
  read_content x _ _ := readInt_intOctets x

/-! ## Octet strings -/

def octetString : Element (List UInt8) where
  tag := 0x04
  wf _ := True
  content := id
  read := some
  read_content _ _ _ := rfl

/-! ## Object identifiers -/

/-- Seven bits an octet, with a mark on all but the last. -/
def base128 (n : Nat) : List UInt8 :=
  ((Nat.digits 128 (n / 128)).map fun d => UInt8.ofNat (128 + d)).reverse ++
    [UInt8.ofNat (n % 128)]

/-- The subidentifiers, with the part of the first one that has been read. -/
def readBase128 (part : Nat) : List UInt8 → List Nat
  | [] => []
  | o :: rest =>
    if o.toNat < 128 then (part * 128 + o.toNat) :: readBase128 0 rest
    else readBase128 (part * 128 + (o.toNat - 128)) rest

theorem readBase128_marked (digits : List Nat) (h : ∀ d ∈ digits, d < 128) (part : Nat)
    (rest : List UInt8) :
    readBase128 part ((digits.map fun d => UInt8.ofNat (128 + d)).reverse ++ rest) =
      readBase128 (part * 128 ^ digits.length + Nat.ofDigits 128 digits) rest := by
  induction digits generalizing rest with
  | nil =>
    rw [List.length_nil, Nat.pow_zero, Nat.mul_one]
    rfl
  | cons d digits ih =>
    have hd : d < 128 := h d List.mem_cons_self
    have hoctet := toNat_ofNat (n := 128 + d) (by omega)
    rw [List.map_cons, List.reverse_cons, List.append_assoc,
      ih fun d' hd' => h d' (List.mem_cons_of_mem _ hd'), List.singleton_append, readBase128,
      hoctet, if_neg (by omega), Nat.add_sub_cancel_left, Nat.ofDigits_cons, List.length_cons,
      Nat.pow_succ]
    congr 1
    ring

theorem readBase128_base128 (n : Nat) (rest : List UInt8) :
    readBase128 0 (base128 n ++ rest) = n :: readBase128 0 rest := by
  have hlast := toNat_ofNat (n := n % 128) (by omega)
  have hlt : n % 128 < 128 := Nat.mod_lt _ (by decide)
  have hdigits : ∀ d ∈ Nat.digits 128 (n / 128), d < 128 := fun d hd =>
    Nat.digits_lt_base (by decide) hd
  rw [base128, List.append_assoc, readBase128_marked _ hdigits, Nat.zero_mul, Nat.zero_add,
    Nat.ofDigits_digits, List.singleton_append, readBase128, hlast, if_pos hlt]
  congr 1
  omega

/-- At least two arcs: at most 2, and below 40 under 0 and 1. -/
def ValidOid (arcs : List Nat) : Prop :=
  ∃ first second rest, arcs = first :: second :: rest ∧ first ≤ 2 ∧ (first < 2 → second < 40)

def oidContent : List Nat → List UInt8
  | first :: second :: rest => ((40 * first + second) :: rest).flatMap base128
  | _ => []

def readOid (octets : List UInt8) : Option (List Nat) :=
  match readBase128 0 octets with
  | [] => none
  | part :: rest =>
    if part < 40 then some (0 :: part :: rest)
    else if part < 80 then some (1 :: (part - 40) :: rest)
    else some (2 :: (part - 80) :: rest)

theorem readBase128_flatMap (parts : List Nat) : readBase128 0 (parts.flatMap base128) = parts := by
  induction parts with
  | nil => rfl
  | cons n parts ih => rw [List.flatMap_cons, readBase128_base128, ih]

theorem readOid_oidContent {arcs : List Nat} (h : ValidOid arcs) :
    readOid (oidContent arcs) = some arcs := by
  obtain ⟨first, second, rest, rfl, hfirst, hsecond⟩ := h
  simp only [readOid, oidContent, readBase128_flatMap]
  split
  · have hzero : first = 0 := by omega
    rw [hzero, Nat.mul_zero, Nat.zero_add]
  · split
    · have hone : first = 1 := by omega
      rw [hone, Nat.mul_one, Nat.add_sub_cancel_left]
    · have htwo : first = 2 := by omega
      rw [htwo]
      congr 3
      omega

def objectIdentifier : Element (List Nat) where
  tag := 0x06
  wf := ValidOid
  content := oidContent
  read := readOid
  read_content _ h _ := readOid_oidContent h

/-! ## Sequences -/

/-- An identifier of one octet, or with the number of a high tag after it. -/
def IsIdentifier (octets : List UInt8) : Prop :=
  ∃ id : UInt8, id.toNat % 32 ≠ 31 ∧ octets = [id] ∨
    id.toNat % 32 = 31 ∧ ∃ number, 31 ≤ number ∧ octets = id :: base128 number

/-- One element of whatever type, its length in the shortest form. -/
def IsElement (octets : List UInt8) : Prop :=
  ∃ identifier content, IsIdentifier identifier ∧ content.length < maxLength ∧
    octets = identifier ++ (lengthOctets content.length ++ content)

theorem IsElement.ne_nil {octets : List UInt8} (h : IsElement octets) : octets ≠ [] := by
  obtain ⟨_, content, ⟨id, ⟨_, rfl⟩ | ⟨_, _, _, rfl⟩⟩, _, rfl⟩ := h
  · exact List.cons_ne_nil _ _
  · exact List.cons_ne_nil _ _

/-- The fields of a sequence from some field on. -/
structure Fields (α : Type) where
  /-- The identifiers that the first of them may have. -/
  firsts : UInt8 → Prop
  wf : α → Prop
  encode : α → List UInt8
  read : List UInt8 → Option α
  encode_firsts : ∀ x id rest, encode x = id :: rest → firsts id
  read_encode : ∀ x, wf x → (encode x).length < maxLength → read (encode x) = some x

namespace Fields
variable {α β γ : Type}

def nil : Fields Unit where
  firsts _ := False
  wf _ := True
  encode _ := []
  read octets := if octets = [] then some () else none
  encode_firsts _ _ _ h := List.cons_ne_nil _ _ h.symm
  read_encode _ _ _ := rfl

/-- A last field of any one element, which may be absent. -/
def any : Fields (Option (List UInt8)) where
  firsts _ := True
  wf x := ∀ octets, x = some octets → IsElement octets
  encode x := x.getD []
  read octets := if octets = [] then some none else some (some octets)
  encode_firsts _ _ _ _ := trivial
  read_encode x hx _ := by
    cases x with
    | none => rfl
    | some octets =>
      exact if_neg (hx octets rfl).ne_nil

def required (t : Tagged α) (fields : Fields β) : Fields (α × β) where
  firsts := t.tags
  wf x := t.wf x.1 ∧ fields.wf x.2
  encode x := t.encode x.1 ++ fields.encode x.2
  read octets := do
    let (a, rest) ← t.decode octets
    let b ← fields.read rest
    return (a, b)
  encode_firsts x id rest h := by
    rw [Tagged.encode, List.cons_append] at h
    rw [← (List.cons.inj h).1]
    exact t.identifier_mem x.1
  read_encode x hx hlen := by
    rw [List.length_append] at hlen
    have ha := t.decode_encode hx.1 (by omega) (fields.encode x.2)
    have hb := fields.read_encode x.2 hx.2 (by omega)
    simp only [ha, hb, Option.bind_eq_bind, Option.bind_some]
    rfl

theorem required_length (t : Tagged α) (fields : Fields β) (a : α) (b : β) :
    (t.encode a).length ≤ ((required t fields).encode (a, b)).length ∧
      (fields.encode b).length ≤ ((required t fields).encode (a, b)).length := by
  change _ ≤ (t.encode a ++ fields.encode b).length ∧ _ ≤ (t.encode a ++ fields.encode b).length
  rw [List.length_append]
  omega

/-- The octets begin with such an identifier. -/
def Begins (tags : UInt8 → Prop) : List UInt8 → Prop
  | [] => False
  | id :: _ => tags id

instance (tags : UInt8 → Prop) [DecidablePred tags] : DecidablePred (Begins tags) := fun octets =>
  match octets with
  | [] => .isFalse id
  | id :: _ => inferInstanceAs (Decidable (tags id))

/-- A field that may be absent, and is told from what follows by its identifier. -/
def optional (t : Tagged α) [DecidablePred t.tags] (fields : Fields β)
    (h : ∀ id, t.tags id → ¬ fields.firsts id) : Fields (Option α × β) where
  firsts id := t.tags id ∨ fields.firsts id
  wf x := (∀ a, x.1 = some a → t.wf a) ∧ fields.wf x.2
  encode x := (x.1.map t.encode).getD [] ++ fields.encode x.2
  read octets :=
    if Begins t.tags octets then ((required t fields).read octets).map fun x => (some x.1, x.2)
    else (fields.read octets).map fun b => (none, b)
  encode_firsts x id rest hcons := by
    obtain ⟨a, b⟩ := x
    cases a with
    | none => exact .inr (fields.encode_firsts b id rest hcons)
    | some a => exact .inl ((required t fields).encode_firsts (a, b) id rest hcons)
  read_encode x hx hlen := by
    obtain ⟨a, b⟩ := x
    cases a with
    | none =>
      have habsent : ¬ Begins t.tags (fields.encode b) := by
        intro hbegins
        cases hb : fields.encode b with
        | nil =>
          rw [hb] at hbegins
          exact hbegins
        | cons id rest =>
          rw [hb] at hbegins
          exact h id hbegins (fields.encode_firsts b id rest hb)
      have hb := fields.read_encode b hx.2 hlen
      change (if Begins t.tags (fields.encode b) then _ else _) = _
      rw [if_neg habsent]
      change (fields.read (fields.encode b)).map _ = _
      rw [hb]
      rfl
    | some a =>
      have hread := (required t fields).read_encode (a, b) ⟨hx.1 a rfl, hx.2⟩ hlen
      change (if Begins t.tags (t.encode a ++ fields.encode b) then _ else _) = _
      rw [if_pos (show Begins t.tags (t.encode a ++ fields.encode b) from t.identifier_mem a)]
      change ((required t fields).read ((required t fields).encode (a, b))).map _ = _
      rw [hread]
      rfl

def via (fields : Fields α) (f : β → α) (g : α → β) (h : ∀ x, g (f x) = x) : Fields β where
  firsts := fields.firsts
  wf x := fields.wf (f x)
  encode x := fields.encode (f x)
  read octets := (fields.read octets).map g
  encode_firsts x id rest hcons := fields.encode_firsts (f x) id rest hcons
  read_encode x hx hlen := by rw [fields.read_encode (f x) hx hlen, Option.map_some, h]

/-- A field that is left out where it has its default value. -/
def default [DecidableEq α] (d : α) (t : Tagged α) [DecidablePred t.tags] (fields : Fields β)
    (h : ∀ id, t.tags id → ¬ fields.firsts id) : Fields (α × β) :=
  (optional t fields h).via (fun x => (if x.1 = d then none else some x.1, x.2))
    (fun x => (x.1.getD d, x.2)) fun x => by
      obtain ⟨a, b⟩ := x
      by_cases ha : a = d
      · simp only [ha, ↓reduceIte, Option.getD_none]
      · simp only [ha, ↓reduceIte, Option.getD_some]

end Fields

def sequence {α : Type} (fields : Fields α) : Element α where
  tag := 0x30
  wf := fields.wf
  content := fields.encode
  read := fields.read
  read_content := fields.read_encode

/-- Elements up to the end, given at most so many. -/
def readAll {α : Type} (t : Tagged α) : Nat → List UInt8 → Option (List α)
  | _, [] => some []
  | 0, _ :: _ => none
  | n + 1, octets => do
    let (x, rest) ← t.decode octets
    let xs ← readAll t n rest
    return x :: xs

theorem readAll_flatMap {α : Type} (t : Tagged α) (xs : List α) (hwf : ∀ x ∈ xs, t.wf x)
    (hlen : (xs.flatMap t.encode).length < maxLength) (n : Nat) (hn : xs.length ≤ n) :
    readAll t n (xs.flatMap t.encode) = some xs := by
  induction xs generalizing n with
  | nil =>
    cases n <;> rfl
  | cons x xs ih =>
    cases n with
    | zero => cases hn
    | succ n =>
      rw [List.flatMap_cons, List.length_append] at hlen
      have hx := t.decode_encode (hwf x List.mem_cons_self) (by omega) (xs.flatMap t.encode)
      have hxs := ih (fun y hy => hwf y (List.mem_cons_of_mem _ hy)) (by omega) n
        (Nat.le_of_succ_le_succ hn)
      rw [List.flatMap_cons, readAll]
      · simp only [hx, hxs, Option.bind_eq_bind, Option.bind_some]
        rfl
      · intro h
        exact t.encode_ne_nil x (List.append_eq_nil_iff.mp h).1

theorem length_le_flatMap {α : Type} (t : Tagged α) (xs : List α) :
    xs.length ≤ (xs.flatMap t.encode).length := by
  induction xs with
  | nil => exact Nat.le_refl 0
  | cons x xs ih =>
    have hpos := List.length_pos_of_ne_nil (t.encode_ne_nil x)
    rw [List.flatMap_cons, List.length_append, List.length_cons]
    omega

def sequenceOf {α : Type} (t : Tagged α) : Element (List α) where
  tag := 0x30
  wf xs := ∀ x ∈ xs, t.wf x
  content xs := xs.flatMap t.encode
  read octets := readAll t octets.length octets
  read_content xs hwf hlen := readAll_flatMap t xs hwf hlen _ (length_le_flatMap t xs)

end Der
