import KemMake.SessionCases

/-!
# What the handshake handlers compute

Each handler reads fields and calls primitives, any of which may raise, before it
assigns anything. `Answer`, `Call` and `Opening` name what each of them has read
and computed once nothing has raised; `Reply` is the same for the decryption of `m`.
-/

namespace KemMake
namespace Session

variable {β π : Type} (P : Primitives β π)

/-- The parts of `initReply`. -/
structure Answer (s : Session β π) (req : SessionInitRequest β) (e : Entropy β)
    (r : InitReply β π) where
  seed : List β
  level : Level
  cid : List β
  ct2 : KemCiphertext β
  ct3 : KemCiphertext β
  own_private : s.keys.getPrivateKey req.keyIdB = .ok seed
  peer_public : s.keys.getPublicKey req.keyIdA = .ok r.peerStaticPublic
  level_of : levelOf req.pkAStar = .ok level
  first : decapsulate P seed level req.ct1 = .ok r.s1
  own_ephemeral : r.ownEphemeralPrivate = e.seed
  second : encapsulate P req.pkAStar e.coins = .ok (r.s2, ct2)
  third : encapsulate P r.peerStaticPublic e.coins' = .ok (r.s3, ct3)
  acceptable : r.chosen ∈ s.config.acceptableAeads
  offered : aeadOid r.chosen ∈ req.acceptableAeads
  has_cid : s.cid = some cid
  out : r.outDer = P.dump (MakeMessage.build cid (.sessionInitResponse
    { pkBStar := ⟨kemAlg (mlkemOid level), P.publicBytes level e.seed⟩
      ct2, ct3, nB := e.nonce, chosenAead := aeadOid r.chosen }))

/-- The parts of `completionCall`. -/
structure Call (s : Session β π) (resp : SessionInitResponse β) (e : Entropy β)
    (c : CompletionCall β) where
  ownKeyId : KeyId β
  seed : List β
  ephemeral : List β
  (s1 s2 s3 s4 : List β)
  has_own : s.ownKeyId = some ownKeyId
  own_private : s.keys.getPrivateKey ownKeyId = .ok seed
  own_ephemeral : s.ownEphemeralPrivate = some ephemeral
  first : s.s1 = some s1
  second : decapsulate P ephemeral s.config.kemLevel resp.ct2 = .ok s2
  third : decapsulate P seed s.config.kemLevel resp.ct3 = .ok s3
  fourth : encapsulate P resp.pkBStar e.coins = .ok (s4, c.ct4)
  named : aeadName resp.chosenAead = some c.chosen
  acceptable : c.chosen ∈ s.config.acceptableAeads
  has_cid : s.cid = some c.cid
  keys : c.keys = deriveSessionKeys P e.nonce resp.nB (P.dumpKeyId ownKeyId) s1 s2 s3 s4 c.chosen
  plaintext : c.plaintext = s.pendingPayload.getD []
  encrypted : c.cM =
    P.encrypt c.chosen c.keys.keyA2b (firstNonce P c.keys.ivA2b) c.plaintext c.cid

/-- The parts of `openCompletion`. -/
structure Opening (s : Session β π) (req : SessionCompletionRequest β) (o : OpenedCompletion β) where
  ephemeral : List β
  nB : List β
  peerKeyId : KeyId β
  (s1 s2 s3 : List β)
  aead : Aead
  own_ephemeral : s.ownEphemeralPrivate = some ephemeral
  has_nB : s.nB = some nB
  has_peer : s.peerKeyId = some peerKeyId
  first : s.s1 = some s1
  second : s.s2 = some s2
  third : s.s3 = some s3
  fourth : decapsulate P ephemeral s.config.kemLevel req.ct4 = .ok o.s4
  has_aead : s.chosenAead = some aead
  has_cid : s.cid = some o.cid
  keys : o.keys = deriveSessionKeys P req.nA nB (P.dumpKeyId peerKeyId) s1 s2 s3 o.s4 aead
  decrypted : P.decrypt aead o.keys.keyA2b (firstNonce P o.keys.ivA2b) req.cM o.cid =
    some o.plaintext

/-- The parts of `openReply`. -/
structure Reply (s : Session β π) (m reply : List β) where
  keys : SessionKeys β
  cid : List β
  has_keys : s.sessionKeys = some keys
  has_cid : s.cid = some cid
  decrypted : P.decrypt keys.aeadName keys.keyB2a (firstNonce P keys.ivB2a) m cid = some reply

variable {P} {s : Session β π} {e : Entropy β}

theorem attr_ok {α : Type} {o : Option α} {a : α} : attr o = .ok a ↔ o = some a := by
  cases o <;> simp [attr]

theorem orHandshakeFailed_ok {α : Type} {why : HandshakeFailure} {x : Except PyError α} {a : α} :
    orHandshakeFailed why x = .ok a ↔ x = .ok a := by
  cases x <;> simp [orHandshakeFailed]

theorem chooseAead_ok {acceptable : List Aead} {requested : List Oid} {chosen : Aead}
    (h : chooseAead acceptable requested = .ok chosen) :
    chosen ∈ acceptable ∧ aeadOid chosen ∈ requested := by
  unfold chooseAead at h
  split at h
  · cases h
  · rename_i name hf
    cases h
    exact ⟨List.mem_of_find?_eq_some hf, by simpa using List.find?_some hf⟩

theorem checkAead_ok {acceptable : List Aead} {oid : Oid} {chosen : Aead}
    (h : checkAead acceptable oid = .ok chosen) : aeadName oid = some chosen ∧ chosen ∈ acceptable := by
  unfold checkAead at h
  split at h
  · cases h
  · rename_i name hn
    split at h
    · rename_i hm
      cases h
      exact ⟨hn, hm⟩
    · cases h

theorem initReply_ok {req : SessionInitRequest β} {r : InitReply β π}
    (h : s.initReply P req e = .ok r) : Nonempty (Answer P s req e r) := by
  simp only [initReply, bind_ok, attr_ok, orHandshakeFailed_ok, pure, Except.pure,
    Except.ok.injEq, Prod.exists] at h
  obtain ⟨seed, hseed, pk, hpk, level, hlevel, s1, h1, eph, pub, hgen, s2, ct2, h2, s3, ct3, h3,
    chosen, hchosen, cid, hcid, rfl⟩ := h
  obtain ⟨hacc, hoff⟩ := chooseAead_ok hchosen
  cases generateEphemeral_eq hgen
  exact ⟨⟨seed, level, cid, ct2, ct3, hseed, hpk, hlevel, h1, rfl, h2, h3, hacc, hoff, hcid, rfl⟩⟩

theorem completionCall_ok {resp : SessionInitResponse β} {c : CompletionCall β}
    (h : s.completionCall P resp e = .ok c) : Nonempty (Call P s resp e c) := by
  simp only [completionCall, bind_ok, attr_ok, pure, Except.pure, Except.ok.injEq, Prod.exists,
    encrypt_zero] at h
  obtain ⟨own, hown, seed, hseed, eph, heph, s2, h2, s3, h3, chosen, hchosen, s4, ct4, h4, s1, h1,
    cid, hcid, cM, rfl, rfl⟩ := h
  obtain ⟨hname, hacc⟩ := checkAead_ok hchosen
  exact ⟨⟨own, seed, eph, s1, s2, s3, s4, hown, hseed, heph, h1, h2, h3, h4, hname, hacc, hcid, rfl,
    rfl, rfl⟩⟩

theorem openCompletion_ok {req : SessionCompletionRequest β} {o : OpenedCompletion β}
    (h : s.openCompletion P req = .ok o) : Nonempty (Opening P s req o) := by
  simp only [openCompletion, bind_ok, attr_ok, orHandshakeFailed_ok, pure, Except.pure,
    Except.ok.injEq] at h
  obtain ⟨eph, he, s4, h4, nB, hn, peer, hp, s1, h1, s2, h2, s3, h3, aead, ha, cid, hc,
    text, ht, rfl⟩ := h
  exact ⟨⟨eph, nB, peer, s1, s2, s3, aead, he, hn, hp, h1, h2, h3, h4, ha, hc, rfl,
    decrypt_zero.mp ht⟩⟩

theorem openReply_ok {m reply : List β} (h : s.openReply P m = .ok reply) :
    Nonempty (Reply P s m reply) := by
  simp only [openReply, bind_ok, attr_ok] at h
  obtain ⟨keys, hk, cid, hc, hd⟩ := h
  exact ⟨⟨keys, cid, hk, hc, decrypt_zero.mp hd⟩⟩

end Session
end KemMake
