import KemMake.Provenance

/-!
# What the adversary may know

`opened` are the names that the adversary may come to know in a state of the network,
`sealed` the sealed texts and digests in it. A secret payload is opened if it was posted
to a session with a peer whose private key the adversary may have. In every
reachable state all that is on the wire is exposed by these two, and no more can be
derived.
-/

namespace KemMake
open Symbolic

/-- The peer's registered key is of a static pair whose private key the adversary lacks. -/
def World.Guarded (W : World) (s : Session Sym Pdu) : Prop :=
  ∃ peer pk l n, s.peerKeyId = some peer ∧ W.registered peer = some pk ∧
    pk.publicKey = [.pub l [.name (.static n)]] ∧ n ∉ W.statics

namespace Network

/-- The session in this place has no peer yet, or one whose key is guarded. -/
def Entrusted (W : World) (net : Network) (i : Nat) : Prop :=
  ∃ s : Session Sym Pdu, net.sessions[i]? = some s ∧ (s.peerKeyId ≠ none → W.Guarded s)

def Leaked (W : World) (net : Network) (n : Nat) : Prop :=
  ∃ i p, (i, p) ∈ net.posted ∧ .name (.secret n) ∈ p ∧ ¬ net.Entrusted W i

def opened (W : World) (net : Network) : Set Name :=
  {name | match name with
    | .uuid _ | .nonce _ => True
    | .coins _ | .coins' _ => False
    | .seed k => k ∈ W.ephemerals
    | .static n => n ∈ W.statics
    | .secret n => n ∈ W.secrets ∨ net.Leaked W n}

def sealed (net : Network) : Set Sym :=
  {b | ∃ (i : Nat) (s : Session Sym Pdu), net.sessions[i]? = some s ∧ s.Seals (fun p => (i, p) ∈ net.posted) b}

/-- What may be known in this state. -/
def Shown (W : World) (net : Network) : Sym → Prop := Exposed (net.opened W) net.sealed

structure Inv (W : World) (net : Network) : Prop where
  drained : ∀ (i : Nat) (s : Session Sym Pdu), net.sessions[i]? = some s → s.outgoingPdus = []
  wire : ∀ i pdu, (i, pdu) ∈ net.wire → All (net.Shown W) pdu.blocks
  posted : ∀ i p, (i, p) ∈ net.posted → i < net.sessions.length ∧
    All (fun b => net.Shown W b ∨ ∃ n, b = .name (.secret n)) p
  session : ∀ (i : Nat) (s : Session Sym Pdu), net.sessions[i]? = some s →
    s.Sound W (net.Shown W) (fun p => (i, p) ∈ net.posted) (fun der => (i, der) ∈ net.wire)

variable {W : World} {net net' : Network}

theorem wrapped_sealed (net : Network) : Wrapped net.sealed := by
  rintro b ⟨i, s, _, hb⟩
  cases hb with
  | completion | message => exact .inl ⟨_, _, _, _, _, rfl⟩
  | ack => exact .inr ⟨_, rfl⟩

theorem public_shown : Session.Public (net.Shown W) where
  pub l seed := .pub l seed
  encap l pk coins := .encap l pk coins
  nonce k := .name (show Name.nonce k ∈ net.opened W from trivial)
  uuid k := .name (show Name.uuid k ∈ net.opened W from trivial)

/-! ## Secrets of single sessions -/

theorem coins_hidden (k : Nat) : ¬ All (net.Shown W) (draw k).coins := by
  intro h
  have hk := (exposed_name (wrapped_sealed net)).mp (h _ (List.mem_singleton_self _))
  exact hk

theorem coins'_hidden (k : Nat) : ¬ All (net.Shown W) (draw k).coins' := by
  intro h
  have hk := (exposed_name (wrapped_sealed net)).mp (h _ (List.mem_singleton_self _))
  exact hk

/-- A secret encapsulated to a guarded key with coins that are not shown. -/
theorem shared_hidden {l l' : Level} {pk : List Sym} {n : Nat} {coins : List Sym}
    (hl : Ideal.octets pk = mlkemPkLen l) (hpk : pk = [.pub l' [.name (.static n)]])
    (hn : n ∉ W.statics) (hc : ¬ All (net.Shown W) coins) :
    ¬ net.Shown W (.shared l pk coins) := by
  subst hpk
  obtain rfl : l' = l := mlkemPkLen_inj (by simpa using hl)
  intro h
  rcases exposed_shared (wrapped_sealed net) h with hseed | hcoins
  · exact hn ((exposed_name (wrapped_sealed net)).mp (hseed _ (List.mem_singleton_self _)))
  · exact hc hcoins

section
variable {E : Sym → Prop} {posted : List Sym → Prop} {said : Pdu → Prop} {s : Session Sym Pdu}

/-- The first secret of an initiator that aims at a guarded key. -/
theorem first_hidden (net : Network) (h : s.Sound W E posted said) (hr : s.role = .initiator) (hg : W.Guarded s) :
    ∃ s1, s.s1 = some [s1] ∧ ¬ net.Shown W s1 := by
  obtain ⟨own, peer, pk, l, k, _, hp, hreg, ho, h1, _⟩ := h.aims hr
  obtain ⟨peer', pk', l', n, hp', hreg', hpk, hn⟩ := hg
  obtain rfl : peer = peer' := by simpa [hp] using hp'
  obtain rfl : pk = pk' := by simpa [hreg] using hreg'
  exact ⟨_, h1, shared_hidden ho hpk hn (coins_hidden k)⟩

/-- The third secret of a responder whose peer's key is guarded. -/
theorem third_hidden (net : Network) (h : s.Sound W E posted said) (hr : s.role = .responder) (hg : W.Guarded s) :
    ∃ s3, s.s3 = some [s3] ∧ ¬ net.Shown W s3 := by
  obtain ⟨peer, pk', l', n, hp, hreg', hpk, hn⟩ := hg
  obtain ⟨pk, l, k, s1, lA, pkA, id, seed, hreg, ho, _, _, h3, _⟩ := h.replied hr peer hp
  obtain rfl : pk = pk' := by simpa [hreg] using hreg'
  exact ⟨_, h3, shared_hidden ho hpk hn (coins'_hidden k)⟩

/-- A derived key is shown only if all four secrets are. -/
theorem derived_hidden {nA nB fA s1 s2 s3 s4 : List Sym} {aead : Aead} {b x : Sym}
    (hb : b ∈ (deriveSessionKeys ideal nA nB fA s1 s2 s3 s4 aead).keyA2b ++
      (deriveSessionKeys ideal nA nB fA s1 s2 s3 s4 aead).ivA2b ++
      (deriveSessionKeys ideal nA nB fA s1 s2 s3 s4 aead).keyB2a ++
      (deriveSessionKeys ideal nA nB fA s1 s2 s3 s4 aead).ivB2a)
    (hx : x ∈ s1 ++ s2 ++ s3 ++ s4) {N : Set Name} {L : Set Sym} (hL : Wrapped L)
    (hE : ¬ Exposed N L x) : ¬ Exposed N L b := by
  intro h
  have hikm : All (Exposed N L) (s1 ++ s2 ++ s3 ++ s4) := by
    simp only [deriveSessionKeys, ideal, List.mem_append, List.mem_singleton] at hb
    rcases hb with ((rfl | rfl) | rfl) | rfl <;> exact exposed_kdf hL h
  exact hE (hikm x hx)

/-- The four directional secrets of a session with a guarded peer. -/
theorem keys_hidden (net : Network) (h : s.Sound W E posted said) (hg : W.Guarded s) {keys : SessionKeys Sym}
    (hk : s.sessionKeys = some keys) {b : Sym}
    (hb : b ∈ keys.keyA2b ++ keys.ivA2b ++ keys.keyB2a ++ keys.ivB2a) : ¬ net.Shown W b := by
  cases hr : s.role with
  | initiator =>
    obtain ⟨own, nA, nB, s1, s2, s3, s4, eph, _, h1, _, hkeys, _⟩ := h.called hr keys hk
    obtain ⟨b1, h1', hb1⟩ := first_hidden net h hr hg
    obtain rfl : s1 = [b1] := by simpa [h1] using h1'
    rw [hkeys] at hb
    exact derived_hidden hb (by simp) (wrapped_sealed net) hb1
  | responder =>
    obtain ⟨peer, nA, nB, s1, s2, s3, s4, _, _, _, h3, hkeys, _⟩ := h.completed hr keys hk
    obtain ⟨b3, h3', hb3⟩ := third_hidden net h hr hg
    obtain rfl : s3 = [b3] := by simpa [h3] using h3'
    rw [hkeys] at hb
    exact derived_hidden hb (by simp) (wrapped_sealed net) hb3

end

/-! ## What can be derived -/

/-- Payloads of a session that does not aim at a guarded key are open. -/
theorem Inv.posted_shown (h : net.Inv W) {i : Nat} {p : List Sym} (hp : (i, p) ∈ net.posted)
    (ha : ¬ net.Entrusted W i) : All (net.Shown W) p := by
  intro b hb
  rcases (h.posted i p hp).2 b hb with hs | ⟨n, rfl⟩
  · exact hs
  · exact .name (show Name.secret n ∈ net.opened W from .inr ⟨i, p, hp, hb, ha⟩)

theorem Inv.discreet (h : net.Inv W) : Discreet (net.opened W) net.sealed where
  wrapped := wrapped_sealed net
  text a key nonce text ad hmem hkey := by
    obtain ⟨i, s, hi, hseal⟩ := hmem
    have hs := h.session i s hi
    have hnot : ∀ keys, s.sessionKeys = some keys → All (net.Shown W) keys.keyA2b ∨
        All (net.Shown W) keys.keyB2a → ¬ net.Entrusted W i := by
      rintro keys hk hkey ⟨s', hi', hg⟩
      obtain rfl : s = s' := by simpa [hi] using hi'
      obtain ⟨⟨a, ha⟩, ⟨b, hb⟩, hpeer⟩ := hs.keyed hk
      have hhidden := fun {x} => keys_hidden net hs (hg hpeer) hk (b := x)
      exact hkey.elim (fun hall => hhidden (by simp [ha]) (hall a ha))
        fun hall => hhidden (by simp [hb]) (hall b hb)
    cases hseal with
    | completion hr hk ht hc =>
      rcases hs.started _ ht with rfl | hp
      · simp
      · exact h.posted_shown hp (hnot _ hk (.inl hkey))
    | message hk hc hp _ _ =>
      refine h.posted_shown hp (hnot _ hk ?_)
      unfold Session.sending at hkey
      split at hkey
      · exact .inl hkey
      · exact .inr hkey

theorem Inv.known_shown (h : net.Inv W) {b : Sym} (hb : b ∈ net.known W.toCorruption) :
    net.Shown W b := by
  rcases hb with hb | ⟨i, pdu, hw, hb⟩
  · cases hb with
    | pub l n => exact .pub l _
    | @static n hn => exact .name (show Name.static n ∈ net.opened W from hn)
    | @seed k hk => exact .name (show Name.seed k ∈ net.opened W from hk)
    | @secret n hn => exact .name (show Name.secret n ∈ net.opened W from .inl hn)
  · exact h.wire i pdu hw b hb

/-- The adversary derives nothing but what may be known. -/
theorem Inv.derives (h : net.Inv W) {b : Sym} (hb : Derives (net.known W.toCorruption) b) :
    net.Shown W b :=
  hb.exposed h.discreet fun _ hk => h.known_shown hk

/-! ## Steps -/

/-- `net'` has the sessions of `net`, further on, and all that was sent and posted. -/
structure Extends (net net' : Network) : Prop where
  session : ∀ (i : Nat) (s : Session Sym Pdu), net.sessions[i]? = some s →
    ∃ s', net'.sessions[i]? = some s' ∧ s.Settles s'
  posted : ∀ x ∈ net.posted, x ∈ net'.posted
  wire : ∀ x ∈ net.wire, x ∈ net'.wire

theorem Extends.shown (hx : Extends net net') (h : net.Inv W) {b : Sym} (hb : net.Shown W b) :
    net'.Shown W b := by
  refine hb.mono (fun name hname => ?_) ?_
  · cases name with
    | secret n =>
      rcases hname with hn | ⟨i, p, hp, hmem, ha⟩
      · exact .inl hn
      · refine .inr ⟨i, p, hx.posted _ hp, hmem, ?_⟩
        rintro ⟨s', hi', hg⟩
        have hlt := (h.posted i p hp).1
        obtain ⟨s'', hi'', hset⟩ := hx.session i _ (List.getElem?_eq_getElem hlt)
        obtain rfl : s' = s'' := by simpa [hi'] using hi''
        refine ha ⟨_, List.getElem?_eq_getElem hlt, fun hpeer => ?_⟩
        obtain ⟨peer, hpeer⟩ := Option.ne_none_iff_exists'.mp hpeer
        have hpeer' := hset.peer peer hpeer
        obtain ⟨_, pk, l, n', hg, hrest⟩ := hg (by simp [hpeer'])
        exact ⟨peer, pk, l, n', hpeer, Option.some.inj (hpeer'.symm.trans hg) ▸ hrest⟩
    | _ => exact hname
  · rintro b ⟨i, s, hi, hseal⟩
    obtain ⟨s', hi', hset⟩ := hx.session i s hi
    exact ⟨i, s', hi', hset.seals (fun _ => hx.posted _) hseal⟩

section
variable {i : Nat} {s s' : Session Sym Pdu} {posted : List (Nat × List Sym)} {calls : Nat}

/-- A call on the session in place `i` that keeps it sound. -/
theorem Inv.place (h : net.Inv W) (hi : net.sessions[i]? = some s)
    (hold : ∀ x ∈ net.posted, x ∈ posted)
    (hnew : ∀ j p, (j, p) ∈ posted → (j, p) ∈ net.posted ∨
      j = i ∧ All (fun b => net.Shown W b ∨ ∃ n, b = .name (.secret n)) p)
    (hset : s.Settles s')
    (hs : ∀ E, (∀ b, net.Shown W b → E b) → Session.Public E →
      (∀ b, s'.Seals (fun p => (i, p) ∈ posted) b → E b) →
      s'.Sound W E (fun p => (i, p) ∈ posted) (fun der => (i, der) ∈ net.wire)) :
    (Network.place { net with posted, calls } i s').Inv W := by
  have hlt : i < net.sessions.length := (List.getElem?_eq_some_iff.mp hi).1
  have hdrain : s'.Settles { s' with outgoingPdus := [] } :=
    ⟨rfl, fun _ => id, fun _ => ⟨rfl, rfl, rfl, fun _ => rfl⟩⟩
  have hget : ∀ j, (Network.place { net with posted, calls } i s').sessions[j]? =
      if j = i then some { s' with outgoingPdus := [] } else net.sessions[j]? := by
    intro j
    simp only [Network.place, List.getElem?_set, hlt, ↓reduceIte]
    by_cases hj : j = i
    · simp [hj]
    · simp [hj, Ne.symm hj]
  have hx : Extends net (Network.place { net with posted, calls } i s') := by
    refine ⟨fun j t hj => ?_, hold, fun x hw => List.mem_append_left _ hw⟩
    rw [hget]
    by_cases hji : j = i
    · subst hji
      obtain rfl : s = t := by simpa [hi] using hj
      exact ⟨_, if_pos rfl, hset.trans hdrain⟩
    · exact ⟨t, by rw [if_neg hji, hj], .refl t⟩
  have hshown : ∀ b, net.Shown W b → (Network.place { net with posted, calls } i s').Shown W b :=
    fun _ => hx.shown h
  have hsound := hs _ hshown public_shown fun b hb =>
    .sent ⟨i, _, by rw [hget, if_pos rfl], hdrain.seals (fun _ => id) hb⟩
  refine ⟨fun j t hj => ?_, fun j pdu hw => ?_, fun j p hp => ?_, fun j t hj => ?_⟩
  · rw [hget] at hj
    split at hj
    · cases hj
      rfl
    · exact h.drained j t hj
  · rcases List.mem_append.mp hw with hw | hw
    · exact (h.wire j pdu hw).mono hshown
    · obtain ⟨pdu', hpdu, heq⟩ := List.mem_map.mp hw
      cases heq
      exact hsound.sent pdu hpdu
  · have hlen : (Network.place { net with posted, calls } i s').sessions.length =
        net.sessions.length := by simp [Network.place]
    rw [hlen]
    rcases hnew j p hp with hold | ⟨hj, hall⟩
    · exact ⟨(h.posted j p hold).1, (h.posted j p hold).2.mono fun b => Or.imp_left (hshown b)⟩
    · exact ⟨hj ▸ hlt, hall.mono fun b => Or.imp_left (hshown b)⟩
  · rw [hget] at hj
    split at hj
    · rename_i hji
      subst hji
      cases hj
      exact hsound.drain (fun der hd => List.mem_append_left _ hd)
        fun der hd => List.mem_append_right _ (List.mem_map_of_mem hd)
    · exact (h.session j t hj).mono hshown (fun p hp => hold _ hp)
        fun der hd => List.mem_append_left _ hd

/-- A new session that is sound. -/
theorem Inv.add (h : net.Inv W)
    (hp : ∀ p, s.pendingPayload = some p → All (fun b => net.Shown W b ∨ ∃ n, b = .name (.secret n)) p)
    (hs : ∀ E, (∀ b, net.Shown W b → E b) → Session.Public E →
      s.Sound W E (fun p => s.pendingPayload = some p) (fun _ => False)) :
    (Network.add { net with calls } s).Inv W := by
  have hget : ∀ j, (Network.add { net with calls } s).sessions[j]? =
      if j = net.sessions.length then some { s with outgoingPdus := [] } else net.sessions[j]? := by
    intro j
    simp only [Network.add, List.getElem?_append]
    by_cases hj : j = net.sessions.length
    · simp [hj]
    · by_cases hlt : j < net.sessions.length
      · simp [hlt, hj]
      · have : net.sessions.length < j := by omega
        simp only [hlt, ↓reduceIte, hj, List.getElem?_eq_none (show net.sessions.length ≤ j by omega)]
        exact List.getElem?_eq_none (by simp; omega)
  have hx : Extends net (Network.add { net with calls } s) := by
    refine ⟨fun j t hj => ?_, fun x hp => List.mem_append_left _ hp,
      fun x hw => List.mem_append_left _ hw⟩
    have hlt := (List.getElem?_eq_some_iff.mp hj).1
    exact ⟨t, by rw [hget, if_neg (by omega), hj], .refl t⟩
  have hshown : ∀ b, net.Shown W b → (Network.add { net with calls } s).Shown W b :=
    fun _ => hx.shown h
  have hsound := hs _ hshown public_shown
  have hlen : (Network.add { net with calls } s).sessions.length = net.sessions.length + 1 := by
    simp [Network.add]
  refine ⟨fun j t hj => ?_, fun j pdu hw => ?_, fun j p hmem => ?_, fun j t hj => ?_⟩
  · rw [hget] at hj
    split at hj
    · cases hj
      rfl
    · exact h.drained j t hj
  · rcases List.mem_append.mp hw with hw | hw
    · exact (h.wire j pdu hw).mono hshown
    · obtain ⟨pdu', hpdu, heq⟩ := List.mem_map.mp hw
      cases heq
      exact hsound.sent pdu hpdu
  · rw [hlen]
    rcases List.mem_append.mp hmem with hmem | hmem
    · exact ⟨Nat.lt_succ_of_lt (h.posted j p hmem).1,
        (h.posted j p hmem).2.mono fun b => Or.imp_left (hshown b)⟩
    · obtain ⟨p', hp', heq⟩ := List.mem_map.mp hmem
      cases heq
      exact ⟨Nat.lt_succ_self _, (hp p (by simpa using hp')).mono fun b => Or.imp_left (hshown b)⟩
  · rw [hget] at hj
    split at hj
    · rename_i hjl
      subst hjl
      cases hj
      have hposted : ∀ p, s.pendingPayload = some p →
          (net.sessions.length, p) ∈ (Network.add { net with calls } s).posted :=
        fun p hp => List.mem_append_right _ (by simp [hp])
      exact (hsound.mono (fun _ => id) hposted fun _ => id).drain (fun _ => False.elim)
        fun der hd => List.mem_append_right _ (List.mem_map_of_mem hd)
    · exact (h.session j t hj).mono hshown (fun p hp => List.mem_append_left _ hp)
        fun der hd => List.mem_append_left _ hd

end

theorem Inv.withCalls (h : net.Inv W) (calls : Nat) : ({ net with calls } : Network).Inv W :=
  ⟨h.drained, h.wire, h.posted, h.session⟩

theorem Inv.apply (h : net.Inv W) {event : Event} (hp : net.Permitted W event) :
    (net.apply event).Inv W := by
  cases event with
  | openInitiator own peer keys config now =>
    simp only [Network.apply]
    split
    · exact h.withCalls _
    · rename_i s hs
      obtain ⟨pk, s1, ct1, hpk, henc, rfl⟩ := Session.initiate_ok hs
      exact h.add (by simp [Session.calling, Session.new]) fun E hE hpub =>
        Session.sound_calling hpub hp.1 (hp.2.mono fun b hb => hE b (h.derives hb)) hpk henc
  | openResponder own keys config =>
    exact h.add (by simp [Session.new]) fun _ _ _ => Session.sound_new hp
  | fork i =>
    simp only [Network.apply]
    split
    · exact h
    · rename_i s hi
      split
      · exact h
      · rename_i t ht
        have hs := h.session i s hi
        refine h.add (fun p hpend => ?_) fun E hE _ => (hs.mono hE (fun _ => id) fun _ => id).fork ht
        obtain ⟨_, _, _, rfl⟩ := Session.fork_ok.mp ht
        exact (h.posted i p (hs.pending p hpend)).2
  | postPdu i der =>
    simp only [Network.apply]
    split
    · exact h
    · rename_i s hi
      exact h.place hi (fun _ => id) (fun _ _ => .inl) ⟨rfl, fun _ => id, fun _ => ⟨rfl, rfl, rfl, fun _ => rfl⟩⟩
        fun E hE _ _ => ((h.session i s hi).mono hE (fun _ => id) fun _ => id).postPdu
          (hp.mono fun b hb => hE b (h.derives hb))
  | postPayload i payload =>
    simp only [Network.apply]
    split
    · exact h
    · rename_i s hi
      refine h.place hi (fun _ hx => List.mem_append_left _ hx) (fun j p hmem => ?_) ?_
        fun E hE _ _ => ((h.session i s hi).mono hE (fun _ => id) fun _ => id).postPayload
          (fun _ hx => List.mem_append_left _ hx) (by simp)
      · refine (List.mem_append.mp hmem).imp_right fun hmem => ?_
        cases List.mem_singleton.mp hmem
        exact ⟨rfl, hp.mono fun b hb => hb.imp_left h.derives⟩
      · rw [Session.postPayload_eq]
        exact ⟨rfl, fun _ => id, fun _ => ⟨rfl, rfl, rfl, fun _ => rfl⟩⟩
  | update i now =>
    simp only [Network.apply]
    split
    · exact h
    · rename_i s hi
      have hs := h.session i s hi
      exact h.place hi (fun _ => id) (fun _ _ => .inl) (Session.update_settles hs now _)
        fun E hE hpub hseal => (hs.mono hE (fun _ => id) fun _ => id).update hpub now _ hseal

theorem reachable_inv (h : Reachable W net) : net.Inv W := by
  induction h with
  | start => exact ⟨by simp, by simp, by simp, by simp⟩
  | step _ hp ih => exact ih.apply hp

end Network

end KemMake
