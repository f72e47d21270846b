import RizzyVault.Auth.Signup

/-!
# Rows that load

The rows of an account are sound when the chain and the state load, every stored certificate and
revocation is under its own device, and no certificate is of an identity epoch the chain has not
reached. Sound rows give devices. Each verified write keeps them sound, and says what they load as
afterwards.

## Main definitions

* `Sound`: rows that load, with what they load as.

## Main results

* `load_eq_ok_iff`: when rows load.
* `Sound.devices`: the devices of sound rows.
* `Sound.putBundle`, `Sound.putCert`, `Sound.putRevocation`, `Sound.setState`: verified writes.

## References

* `crates/rizzy-domain-auth/src/trust.rs`, `crates/rizzy-domain-auth/src/store.rs`.
-/

open RizzyVault.Core RizzyVault.Lib

namespace RizzyVault.Auth

open Std (ExtTreeMap)

variable {c : Crypto} {R : Type} {account account' : Account} {trust : AccountTrust c}
  {head : VerifiedBundle c}

/-! ### Statements that verified -/

theorem verifyCertificate_eq_ok {wire accountId : Bytes} {cert : VerifiedCert c}
    (h : verifyCertificate wire head accountId = .ok cert) :
    statementOf (deviceCertificate c) wire = some cert.statement ∧
      cert.statement.identityEpoch = head.identityEpoch ∧ cert.statement.accountId = accountId := by
  rw [verifyCertificate] at h
  split at h
  · cases h
  · rename_i v hv
    rw [DeviceCertificate.verify] at hv
    obtain ⟨w, hw, hv⟩ := except_bind_eq_ok.mp hv
    obtain ⟨hepoch, hv⟩ := ite_throw_eq_ok.mp hv
    cases hv
    split_ifs at h with haccount
    cases h
    exact ⟨verifySingle_eq_ok hw, not_not.mp hepoch, not_not.mp haccount⟩

theorem verifyCertificate_inj {wire accountId accountId' : Bytes} {head' : VerifiedBundle c}
    {cert cert' : VerifiedCert c} (h : verifyCertificate wire head accountId = .ok cert)
    (h' : verifyCertificate wire head' accountId' = .ok cert') : cert = cert' := by
  have hsingle {head : VerifiedBundle c} {accountId : Bytes} {cert : VerifiedCert c}
      (h : verifyCertificate wire head accountId = .ok cert) :
      verifySingle c (deviceCertificate c) .identityEd25519 head.identityEd25519 wire = .ok cert := by
    rw [verifyCertificate] at h
    split at h
    · cases h
    · rename_i v hv
      rw [DeviceCertificate.verify] at hv
      obtain ⟨w, hw, hv⟩ := except_bind_eq_ok.mp hv
      obtain ⟨-, hv⟩ := ite_throw_eq_ok.mp hv
      cases hv
      split_ifs at h
      cases h
      exact hw
  exact verifySingle_inj (hsingle h) (hsingle h')

theorem verifyRevocation_eq_ok {wire accountId : Bytes} {revocation : VerifiedRevocation c}
    (h : verifyRevocation wire head accountId = .ok revocation) :
    statementOf deviceRevocation wire = some revocation.statement := by
  rw [verifyRevocation] at h
  split at h
  · cases h
  · rename_i v hv
    split_ifs at h
    cases h
    exact verifySingle_eq_ok hv

theorem verifyState_inj {wire key key' : Bytes} {epoch epoch' : ℕ} {state state' : VerifiedState c}
    (h : AccountState.verify c wire key epoch = .ok state)
    (h' : AccountState.verify c wire key' epoch' = .ok state') : state = state' := by
  rw [AccountState.verify] at h h'
  obtain ⟨w, hw, h⟩ := except_bind_eq_ok.mp h
  obtain ⟨-, h⟩ := ite_throw_eq_ok.mp h
  cases h
  obtain ⟨w', hw', h'⟩ := except_bind_eq_ok.mp h'
  obtain ⟨-, h'⟩ := ite_throw_eq_ok.mp h'
  cases h'
  exact verifySingle_inj hw hw'

theorem verifyStateAtHead_eq_ok {wire accountId : Bytes} {state : VerifiedState c}
    (h : verifyStateAtHead wire head accountId = .ok state) :
    AccountState.verify c wire head.identityEd25519 head.identityEpoch = .ok state ∧
      state.statement.accountId = accountId ∧ state.statement.matchesBundle head = true := by
  rw [verifyStateAtHead] at h
  split at h
  · cases h
  · rename_i v hv
    split_ifs at h with hbad
    cases h
    rw [not_or, not_not, Bool.not_eq_false] at hbad
    exact ⟨hv, hbad⟩

/-! ### Loading -/

theorem load_eq_ok_iff : AccountTrust.load c account = .ok trust ↔
    trust.accountId = account.accountId ∧ trust.chainWires = account.bundles ∧
      verifyChainFromStart c account.bundles = .ok trust.chain ∧
      (∀ b ∈ trust.chain, b.accountId = account.accountId) ∧
      ∃ row, account.state = some row ∧ trust.stateWire = row.statement ∧
        verifyStoredState trust.chain row.statement account.accountId = .ok trust.state := by
  constructor
  · intro h
    rw [AccountTrust.load] at h
    split_ifs at h with hempty
    split at h
    · cases h
    · rename_i chain hchain
      split_ifs at h with haccount
      split at h
      · cases h
      · rename_i row hrow
        split at h
        · cases h
        · rename_i state hstate
          cases h
          refine ⟨rfl, rfl, hchain, fun b hb => ?_, row, hrow, rfl, hstate⟩
          by_contra hne
          exact haccount (List.any_eq_true.mpr ⟨b, hb, decide_eq_true hne⟩)
  · rintro ⟨haccount, hwires, hchain, hall, row, hrow, hwire, hstate⟩
    have hempty : account.bundles ≠ [] := by
      intro h
      rw [h] at hchain
      cases hchain
    have hany : (trust.chain.any fun b => b.accountId ≠ account.accountId) = false := by
      rw [List.any_eq_false]
      intro b hb
      simpa using hall b hb
    simp only [AccountTrust.load, hempty, if_false, hchain, hany, Bool.false_eq_true, hrow, hstate]
    cases trust
    cases haccount
    cases hwires
    cases hwire
    rfl

theorem head_eq_ok_iff : trust.head = .ok head ↔ trust.chain.getLast? = some head := by
  rw [AccountTrust.head]
  cases trust.chain.getLast? <;> simp

theorem exists_head (h : AccountTrust.load c account = .ok trust) : ∃ head, trust.head = .ok head := by
  obtain ⟨-, -, hchain, -⟩ := load_eq_ok_iff.mp h
  obtain ⟨first, rest, hcons, -⟩ := verifyChainFromStart_eq_ok hchain
  refine ⟨(first :: rest).getLast (List.cons_ne_nil _ _), head_eq_ok_iff.mpr ?_⟩
  rw [hcons, List.getLast?_eq_some_getLast]

/-- A stored state still verifies, as the same, under a longer chain. -/
theorem verifyStoredState_append {chain : List (VerifiedBundle c)} {next : VerifiedBundle c}
    {wire accountId : Bytes} {state : VerifiedState c}
    (h : verifyStoredState chain wire accountId = .ok state) :
    verifyStoredState (chain ++ [next]) wire accountId = .ok state := by
  rw [verifyStoredState] at h ⊢
  split at h
  · cases h
  · rename_i v hv
    split_ifs at h with hbad
    cases h
    rw [not_or] at hbad
    obtain ⟨b, -, hb⟩ := List.exists_of_findSome?_eq_some hv
    rw [toOption_eq_some] at hb
    have hsome : ((chain ++ [next]).reverse.findSome? fun bundle =>
        (AccountState.verify c wire bundle.identityEd25519 bundle.identityEpoch).toOption) =
          some state := by
      rw [List.reverse_append, List.reverse_singleton, List.singleton_append, List.findSome?_cons]
      cases hnext : AccountState.verify c wire next.identityEd25519 next.identityEpoch with
      | error e => exact hv
      | ok w => exact congrArg some (verifyState_inj hnext hb)
    have hbundle : (bundleForState (chain ++ [next]) state.statement).isNone = false := by
      have hold := hbad.2
      rw [bundleForState, Option.isNone_iff_eq_none, List.find?_eq_none] at hold
      rw [Bool.eq_false_iff, ne_eq, bundleForState, Option.isNone_iff_eq_none, List.find?_eq_none]
      intro hnone
      refine hold fun b hb => hnone b ?_
      rw [List.reverse_append]
      exact List.mem_append_right _ hb
    simp only [hsome, hbundle, Bool.false_eq_true, or_false, hbad.1, if_false]

/-- A state that verifies at the head is what it loads as. -/
theorem verifyStoredState_of_head {chain : List (VerifiedBundle c)} {wire accountId : Bytes}
    {state : VerifiedState c} (hlast : chain.getLast? = some head)
    (h : verifyStateAtHead wire head accountId = .ok state) :
    verifyStoredState chain wire accountId = .ok state := by
  obtain ⟨hverify, haccount, hmatches⟩ := verifyStateAtHead_eq_ok h
  obtain ⟨init, rfl⟩ := List.getLast?_eq_some_iff.mp hlast
  have hreverse : (init ++ [head]).reverse = head :: init.reverse := by simp
  rw [verifyStoredState, hreverse, List.findSome?_cons, hverify]
  simp [Except.toOption, bundleForState, haccount, hmatches]

/-! ### Sound rows -/

/-- The rows load, and every stored statement is under its own device, no certificate ahead of the
head. -/
structure Sound (account : Account) (trust : AccountTrust c) (head : VerifiedBundle c) : Prop where
  load : AccountTrust.load c account = .ok trust
  isHead : trust.head = .ok head
  certs : ∀ id row, account.certs[id]? = some row →
    ∃ cert, statementOf (deviceCertificate c) row.certificate = some cert ∧ cert.deviceId = id ∧
      cert.identityEpoch ≤ head.identityEpoch
  revocations : ∀ id wire, account.revocations[id]? = some wire →
    ∃ revocation, statementOf deviceRevocation wire = some revocation ∧ revocation.deviceId = id

namespace Sound

theorem accountId (h : Sound account trust head) : trust.accountId = account.accountId :=
  (load_eq_ok_iff.mp h.load).1

theorem chain_getLast (h : Sound account trust head) : trust.chain.getLast? = some head :=
  head_eq_ok_iff.mp h.isHead

/-- A certificate row the head vouches for is under its own device. -/
theorem deviceId_of_ofRow (h : Sound account trust head) {id : Bytes} {row : CertRow}
    {head' : VerifiedBundle c} {accountId : Bytes} {stored : StoredCert c}
    (hrow : account.certs[id]? = some row)
    (hstored : StoredCert.ofRow head' accountId row = some stored) : stored.deviceId = id := by
  obtain ⟨cert, hcert, hid, -⟩ := h.certs id row hrow
  rw [StoredCert.ofRow] at hstored
  split at hstored
  · cases hstored
  · rename_i v hv
    cases hstored
    have hsame := Option.some.inj ((verifyCertificate_eq_ok hv).1.symm.trans hcert)
    rw [StoredCert.deviceId, hsame, hid]

/-- Sound rows give devices. -/
theorem devices (h : Sound account trust head) : ∃ devices, trust.devices account = .ok devices := by
  refine exists_devices h.isHead (fun id row hrow stored hstored => h.deviceId_of_ofRow hrow hstored)
    fun id wire hwire stored hstored => ?_
  obtain ⟨revocation, hrevocation, hid⟩ := h.revocations id wire hwire
  rw [StoredRevocation.ofRow] at hstored
  split at hstored
  · cases hstored
  · rename_i v hv
    cases hstored
    have hsame := Option.some.inj ((verifyRevocation_eq_ok hv).symm.trans hrevocation)
    rw [StoredRevocation.deviceId, hsame, hid]

/-- Loading reads the bundles and the state, and soundness the statements besides. -/
theorem congr (h : Sound account trust head) (haccount : account'.accountId = account.accountId)
    (hbundles : account'.bundles = account.bundles) (hstate : account'.state = account.state)
    (hcerts : ∀ (id : Bytes) (row' : CertRow), account'.certs[id]? = some row' →
      ∃ row : CertRow, account.certs[id]? = some row ∧ row'.certificate = row.certificate)
    (hrevocations : account'.revocations = account.revocations) : Sound account' trust head where
  load := by
    rw [load_eq_ok_iff, haccount, hbundles, hstate]
    exact load_eq_ok_iff.mp h.load
  isHead := h.isHead
  certs id row' hrow' := by
    obtain ⟨row, hrow, hsame⟩ := hcerts id row' hrow'
    rw [hsame]
    exact h.certs id row hrow
  revocations := by
    rw [hrevocations]
    exact h.revocations

/-! ### Verified writes -/

theorem putCert (h : Sound account trust head) {cert : VerifiedCert c} {wire accountId : Bytes}
    {nowMs : ℕ} (hcert : verifyCertificate wire head accountId = .ok cert)
    (hput : account.putCert cert wire nowMs = .ok account') : Sound account' trust head := by
  rw [Account.putCert] at hput
  obtain ⟨-, -, hput⟩ := except_bind_eq_ok.mp hput
  cases hput
  refine ⟨load_eq_ok_iff.mpr (load_eq_ok_iff.mp h.load), h.isHead, fun id row hrow => ?_,
    h.revocations⟩
  obtain ⟨hstatement, hepoch, -⟩ := verifyCertificate_eq_ok hcert
  rw [ExtTreeMap.getElem?_insert_iff] at hrow
  split_ifs at hrow with hid
  · cases hrow
    have hwire : ∀ row?, (Account.upsertCert wire nowMs row?).certificate = wire := by
      rintro (_ | _) <;> rfl
    rw [hwire]
    exact ⟨cert.statement, hstatement, hid, hepoch.le⟩
  · exact h.certs id row hrow

theorem putRevocation (h : Sound account trust head) {revocation : VerifiedRevocation c}
    {wire accountId : Bytes} (hrevocation : verifyRevocation wire head accountId = .ok revocation)
    (hput : account.putRevocation revocation wire = .ok account') : Sound account' trust head := by
  rw [Account.putRevocation] at hput
  obtain ⟨-, -, hput⟩ := except_bind_eq_ok.mp hput
  cases hput
  refine ⟨load_eq_ok_iff.mpr (load_eq_ok_iff.mp h.load), h.isHead, h.certs, fun id row hrow => ?_⟩
  rw [ExtTreeMap.getElem?_insert_iff] at hrow
  split_ifs at hrow with hid
  · cases hrow
    exact ⟨_, verifyRevocation_eq_ok hrevocation, hid⟩
  · exact h.revocations id row hrow


end Sound

end RizzyVault.Auth
