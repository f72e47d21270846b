import RizzyVault.Auth.Rules
import RizzyVault.Lib.HashChain

/-!
# Bundle chains

An account's key bundles form a hash chain of links, verified as a whole list from the first bundle
or as an uploaded list against the stored chain. A stored chain with what an upload adds to it is
what the first verification accepts of all the wires, and the same upload adds nothing again.

## Main definitions

* `Uploaded`: an uploaded wire, with the bundle it verifies as, and where the stored chain has it.

## Main results

* `verifyChainFromStart_eq_ok`: an accepted list is a chain of links from the first bundle.
* `verifyChainFromStart_append`: accepting a list and then its successors.
* `extendFrom_spec`: what an upload adds to the stored chain.
* `bundle_chains`: accepted chains number, link, agree and extend as one chain.
-/

open RizzyVault.Core RizzyVault.Lib

namespace RizzyVault.Auth

variable {c : Crypto} {first last head : VerifiedBundle c} {chain stored : List (VerifiedBundle c)}
  {wires wires' : List Bytes} {new : List (VerifiedBundle c × Bytes)}

/-! ### Verifying from the start -/

theorem verifySuccessors_cons {wire : Bytes} :
    verifySuccessors last (wire :: wires) = .ok chain ↔
      ∃ next step tail, verifySuccessor last wire = .ok (next, step) ∧ step ≠ .unchanged ∧
        verifySuccessors next wires = .ok tail ∧ chain = next :: tail := by
  rw [verifySuccessors]
  cases hstep : verifySuccessor last wire with
  | error e => simp
  | ok r =>
    obtain ⟨next, step⟩ := r
    cases htail : verifySuccessors next wires <;> cases step <;> simp [htail, eq_comm]

/-- The successors of a bundle form a chain of links with it. -/
theorem verifySuccessors_eq_ok (h : verifySuccessors last wires = .ok chain) :
    (last :: chain).IsChain Link ∧
      List.Forall₂ (fun wire b => verifySelfSigned c wire = .ok b) wires chain := by
  induction wires generalizing last chain with
  | nil =>
    cases h
    exact ⟨.singleton _, .nil⟩
  | cons wire wires ih =>
    obtain ⟨next, step, tail, hstep, hne, htail, rfl⟩ := verifySuccessors_cons.mp h
    obtain ⟨hself, hlink⟩ := verifySuccessor_eq_ok hstep
    obtain ⟨hchain, hall⟩ := ih htail
    exact ⟨.cons_cons (hlink.resolve_left hne).2 hchain, .cons hself hall⟩

theorem verifyChainFromStart_cons {wire : Bytes} :
    verifyChainFromStart c (wire :: wires) = .ok chain ↔
      ∃ first tail, verifySelfSigned c wire = .ok first ∧ first.bundleSeq = 1 ∧
        verifySuccessors first wires = .ok tail ∧ chain = first :: tail := by
  rw [verifyChainFromStart]
  cases hself : verifySelfSigned c wire with
  | error e => simp
  | ok first =>
    by_cases hseq : first.bundleSeq = 1
    · cases htail : verifySuccessors first wires <;> simp [hseq, htail, eq_comm]
    · simp [hseq]

/-- An accepted list is a chain of links from the first bundle. -/
theorem verifyChainFromStart_eq_ok (h : verifyChainFromStart c wires = .ok chain) :
    ∃ first rest, chain = first :: rest ∧ first.bundleSeq = 1 ∧ chain.IsChain Link ∧
      List.Forall₂ (fun wire b => verifySelfSigned c wire = .ok b) wires chain := by
  cases wires with
  | nil => cases h
  | cons wire wires =>
    obtain ⟨first, tail, hself, hseq, htail, rfl⟩ := verifyChainFromStart_cons.mp h
    obtain ⟨hchain, hall⟩ := verifySuccessors_eq_ok htail
    exact ⟨first, tail, rfl, hseq, hchain, .cons hself hall⟩

/-- The successors of a list and then those of its last bundle are the successors of both. -/
theorem verifySuccessors_append {chain' : List (VerifiedBundle c)}
    (h : verifySuccessors last wires = .ok chain)
    (h' : verifySuccessors ((last :: chain).getLast (List.cons_ne_nil _ _)) wires' = .ok chain') :
    verifySuccessors last (wires ++ wires') = .ok (chain ++ chain') := by
  induction wires generalizing last chain with
  | nil =>
    cases h
    exact h'
  | cons wire wires ih =>
    obtain ⟨next, step, tail, hstep, hne, htail, rfl⟩ := verifySuccessors_cons.mp h
    rw [List.getLast_cons (List.cons_ne_nil _ _)] at h'
    exact verifySuccessors_cons.mpr ⟨next, step, _, hstep, hne, ih htail h', rfl⟩

/-- Accepting a list and then the successors of its last bundle. -/
theorem verifyChainFromStart_append {chain' : List (VerifiedBundle c)}
    (h : verifyChainFromStart c wires = .ok chain) (hlast : chain.getLast? = some last)
    (h' : verifySuccessors last wires' = .ok chain') :
    verifyChainFromStart c (wires ++ wires') = .ok (chain ++ chain') := by
  cases wires with
  | nil => cases h
  | cons wire wires =>
    obtain ⟨first, tail, hself, hseq, htail, rfl⟩ := verifyChainFromStart_cons.mp h
    rw [List.getLast?_eq_some_getLast (List.cons_ne_nil _ _), Option.some_inj] at hlast
    rw [← hlast] at h'
    exact verifyChainFromStart_cons.mpr
      ⟨first, _, hself, hseq, verifySuccessors_append htail h', rfl⟩

/-! ### Numbers and hashes along a chain -/

/-- The first bundle has number 1 and every link adds one. -/
theorem bundleSeq_getElem (hfirst : first.bundleSeq = 1) (hchain : (first :: chain).IsChain Link)
    {i : ℕ} (hi : i < (first :: chain).length) : (first :: chain)[i].bundleSeq = i + 1 := by
  have h := getElem_of_succ (fun b : VerifiedBundle c => b.bundleSeq)
    (hchain.imp fun _ _ h => h.seq) hi
  simp only [List.get_eq_getElem, List.getElem_cons_zero, hfirst] at h
  omega

theorem linked_of_isChain (hchain : chain.IsChain Link) :
    Linked VerifiedBundle.hash (fun b => b.prevBundleHash) chain :=
  hchain.imp fun _ _ h => h.prev

/-- Without a collision of the hash, equal hashes name equal predecessors. -/
theorem noCollision {chain' : List (VerifiedBundle c)}
    (hinj : Set.InjOn c.sha256 {m | ∃ b ∈ chain ++ chain', b.message = m}) :
    NoCollision VerifiedBundle.hash (fun b => b.prevBundleHash) chain chain' := by
  intro a ha b hb hab
  rw [a.hash_eq, b.hash_eq] at hab
  have hmessage := hinj ⟨a, List.mem_append_left _ ha, rfl⟩ ⟨b, List.mem_append_right _ hb, rfl⟩ hab
  exact congrArg PublicKeyBundle.prevBundleHash (VerifiedBundle.eq_of_message_eq hmessage)

/-! ### Extending a stored chain -/

/-- The stored chain has `b` at its number. -/
def Held (stored : List (VerifiedBundle c)) (b : VerifiedBundle c) : Prop :=
  ∃ s, stored[b.bundleSeq - 1]? = some s ∧ s.bundleSeq = b.bundleSeq ∧ s.hash = b.hash

/-- The wires after the number `lastSeq` add `new` to the stored chain past `head`. -/
inductive Extends (stored : List (VerifiedBundle c)) :
    VerifiedBundle c → ℕ → List Bytes → List (VerifiedBundle c × Bytes) → Prop
  | nil (head : VerifiedBundle c) (lastSeq : ℕ) : Extends stored head lastSeq [] []
  | held {head b : VerifiedBundle c} {lastSeq : ℕ} {wire : Bytes} {wires : List Bytes}
      {new : List (VerifiedBundle c × Bytes)} (hself : verifySelfSigned c wire = .ok b)
      (hlast : lastSeq < b.bundleSeq) (hle : b.bundleSeq ≤ head.bundleSeq) (hheld : Held stored b)
      (rest : Extends stored head b.bundleSeq wires new) :
      Extends stored head lastSeq (wire :: wires) new
  | successor {head b : VerifiedBundle c} {lastSeq : ℕ} {wire : Bytes} {wires : List Bytes}
      {step : BundleStep} {new : List (VerifiedBundle c × Bytes)}
      (hstep : verifySuccessor head wire = .ok (b, step)) (hne : step ≠ .unchanged)
      (hlast : lastSeq < b.bundleSeq) (hlt : head.bundleSeq < b.bundleSeq)
      (rest : Extends stored b b.bundleSeq wires new) :
      Extends stored head lastSeq (wire :: wires) ((b, wire) :: new)

theorem extendFrom_eq_ok {lastSeq : ℕ} (h : extendFrom stored head lastSeq wires = .ok new) :
    Extends stored head lastSeq wires new := by
  induction wires generalizing head lastSeq new with
  | nil =>
    cases h
    exact .nil head lastSeq
  | cons wire wires ih =>
    rw [extendFrom] at h
    cases hself : verifySelfSigned c wire with
    | error e => simp [hself] at h
    | ok b =>
      simp only [hself] at h
      split_ifs at h with hlast hle
      · cases hstored : stored[b.bundleSeq - 1]? with
        | none => simp [hstored] at h
        | some s =>
          simp only [hstored] at h
          split_ifs at h with hsame
          rw [not_or, not_not, not_not] at hsame
          exact .held hself (not_le.mp hlast) hle ⟨s, hstored, hsame⟩ (ih h)
      · have hrest : ∀ (next : VerifiedBundle c) (step : BundleStep),
            verifySuccessor head wire = .ok (next, step) → step ≠ .unchanged →
            ∀ tail, extendFrom stored next b.bundleSeq wires = .ok tail →
            Extends stored head lastSeq (wire :: wires) ((next, wire) :: tail) := by
          intro next step hstep hne tail htail
          obtain ⟨hnext, -⟩ := verifySuccessor_eq_ok hstep
          obtain rfl : b = next := Except.ok.inj (hself.symm.trans hnext)
          exact .successor hstep hne (not_le.mp hlast) (not_le.mp hle) (ih htail)
        cases hstep : verifySuccessor head wire with
        | error e => cases e <;> simp [hstep] at h
        | ok r =>
          obtain ⟨next, step⟩ := r
          cases htail : extendFrom stored next b.bundleSeq wires with
          | error e => cases step <;> simp [hstep, htail] at h
          | ok tail =>
            cases step with
            | unchanged => simp [hstep] at h
            | silent | identityChanged =>
              simp only [hstep, htail] at h
              cases h
              exact hrest next _ hstep nofun tail htail

theorem Extends.extendFrom_eq {lastSeq : ℕ} (h : Extends stored head lastSeq wires new) :
    extendFrom stored head lastSeq wires = .ok new := by
  induction h with
  | nil => rfl
  | held hself hlast hle hheld rest ih =>
    obtain ⟨s, hs, hseq, hhash⟩ := hheld
    simp [extendFrom, hself, hlast.not_ge, hle, hs, hseq, hhash, ih]
  | @successor head b lastSeq wire wires step new hstep hne hlast hlt rest ih =>
    obtain ⟨hself, -⟩ := verifySuccessor_eq_ok hstep
    cases step with
    | unchanged => exact absurd rfl hne
    | silent | identityChanged =>
      simp [extendFrom, hself, hlast.not_ge, hlt.not_ge, hstep, ih]

/-- The new bundles are the successors of the head. -/
theorem Extends.verifySuccessors_eq {lastSeq : ℕ} (h : Extends stored head lastSeq wires new) :
    verifySuccessors head (new.map Prod.snd) = .ok (new.map Prod.fst) := by
  induction h with
  | nil => rfl
  | held _ _ _ _ _ ih => exact ih
  | successor hstep hne _ _ _ ih =>
    exact verifySuccessors_cons.mpr ⟨_, _, _, hstep, hne, ih, rfl⟩

/-- The wire with its bundle, if that is above the number `n`. -/
def bundleAbove (c : Crypto) (n : ℕ) (wire : Bytes) : Option (VerifiedBundle c × Bytes) :=
  match verifySelfSigned c wire with
  | .error _ => none
  | .ok b => if n < b.bundleSeq then some (b, wire) else none

theorem bundleAbove_eq {wire : Bytes} {b : VerifiedBundle c} (h : verifySelfSigned c wire = .ok b)
    (n : ℕ) : bundleAbove c n wire = if n < b.bundleSeq then some (b, wire) else none := by
  rw [bundleAbove, h]

/-- The new bundles are the uploaded ones above `n`, the number of the stored head: the head is the
stored one, or an uploaded one that the wires left lie above. -/
theorem Extends.eq_filterMap {lastSeq n : ℕ} (h : Extends stored head lastSeq wires new)
    (hn : head.bundleSeq = n ∨ n ≤ head.bundleSeq ∧ head.bundleSeq ≤ lastSeq) :
    new = wires.filterMap (bundleAbove c n) := by
  induction h with
  | nil => rfl
  | @held head b _ wire _ _ hself hlast hle hheld rest ih =>
    have hhead := hn.resolve_right (by omega)
    have hbelow : ¬ n < b.bundleSeq := by omega
    rw [List.filterMap_cons_none (by rw [bundleAbove_eq hself, if_neg hbelow])]
    exact ih (.inl hhead)
  | @successor head b _ wire _ _ _ hstep hne hlast hlt rest ih =>
    obtain ⟨hself, -⟩ := verifySuccessor_eq_ok hstep
    have habove : n < b.bundleSeq := by omega
    rw [List.filterMap_cons_some (by rw [bundleAbove_eq hself, if_pos habove]),
      ← ih (.inr ⟨habove.le, le_rfl⟩)]

/-- The same wires add nothing to a chain that has the stored and the new bundles at their
numbers. -/
theorem Extends.again {lastSeq : ℕ} {full : List (VerifiedBundle c)} {top : VerifiedBundle c}
    (h : Extends stored head lastSeq wires new) (hstored : ∀ b, Held stored b → Held full b)
    (htop : head.bundleSeq ≤ top.bundleSeq)
    (hnew : ∀ p ∈ new, full[p.1.bundleSeq - 1]? = some p.1 ∧ p.1.bundleSeq ≤ top.bundleSeq) :
    Extends full top lastSeq wires [] := by
  induction h with
  | nil => exact .nil _ _
  | held hself hlast hle hheld rest ih =>
    exact .held hself hlast (hle.trans htop) (hstored _ hheld) (ih htop hnew)
  | successor hstep hne hlast hlt rest ih =>
    obtain ⟨hself, -⟩ := verifySuccessor_eq_ok hstep
    obtain ⟨⟨hget, hle⟩, hnew⟩ := List.forall_mem_cons.mp hnew
    exact .held hself hlast hle ⟨_, hget, rfl, rfl⟩ (ih hle hnew)

/-- An upload to an accepted chain: what it adds, that the result is accepted again, and that the
same upload then adds nothing. -/
theorem extendChain_spec (hstored : verifyChainFromStart c wires = .ok stored)
    (hnew : extendChain stored wires' = .ok new) :
    (∃ head, stored.getLast? = some head ∧
      new = wires'.filterMap (bundleAbove c head.bundleSeq)) ∧
      verifyChainFromStart c (wires ++ new.map Prod.snd) = .ok (stored ++ new.map Prod.fst) ∧
      extendChain (stored ++ new.map Prod.fst) wires' = .ok [] := by
  rw [extendChain] at hnew
  cases hlast : stored.getLast? with
  | none => simp [hlast] at hnew
  | some head =>
    simp only [hlast] at hnew
    have hextends := extendFrom_eq_ok hnew
    have hfull := verifyChainFromStart_append hstored hlast hextends.verifySuccessors_eq
    refine ⟨⟨head, rfl, hextends.eq_filterMap (.inl rfl)⟩, hfull, ?_⟩
    obtain ⟨first, rest, hcons, hseq, hchain, -⟩ := verifyChainFromStart_eq_ok hfull
    have hnumber : ∀ (i : ℕ) (b : VerifiedBundle c),
        (stored ++ new.map Prod.fst)[i]? = some b → b.bundleSeq = i + 1 := by
      intro i b hb
      obtain ⟨hi, rfl⟩ := List.getElem?_eq_some_iff.mp hb
      simp only [hcons] at hi hchain ⊢
      exact bundleSeq_getElem hseq hchain hi
    have hmem : ∀ b ∈ stored ++ new.map Prod.fst,
        (stored ++ new.map Prod.fst)[b.bundleSeq - 1]? = some b := by
      intro b hb
      obtain ⟨i, hi⟩ := List.mem_iff_getElem?.mp hb
      rwa [hnumber i b hi]
    -- The last bundle of the whole chain has the highest number.
    obtain ⟨top, htop⟩ : ∃ top, (stored ++ new.map Prod.fst).getLast? = some top :=
      ⟨_, List.getLast?_eq_some_getLast (by simp [hcons])⟩
    have hle : ∀ b ∈ stored ++ new.map Prod.fst, b.bundleSeq ≤ top.bundleSeq := by
      intro b hb
      obtain ⟨i, hi⟩ := List.mem_iff_getElem?.mp hb
      rw [List.getLast?_eq_getElem?] at htop
      obtain ⟨hlt, -⟩ := List.getElem?_eq_some_iff.mp hi
      rw [hnumber i b hi, hnumber _ top htop]
      omega
    rw [extendChain, htop]
    refine (hextends.again ?_ ?_ ?_).extendFrom_eq
    · rintro b ⟨s, hs, hsame⟩
      exact ⟨s, List.getElem?_append_left (List.getElem?_eq_some_iff.mp hs).1 ▸ hs, hsame⟩
    · exact hle head (List.mem_append_left _ (List.mem_of_getLast? hlast))
    · intro p hp
      have hpmem : p.1 ∈ stored ++ new.map Prod.fst :=
        List.mem_append_right _ (List.mem_map_of_mem hp)
      exact ⟨hmem p.1 hpmem, hle p.1 hpmem⟩

/-- Accepted chains number their bundles from 1 and change the identity epoch exactly with both
identity keys; two of them that agree at a position agree before it; and what an upload adds to a
stored chain is the uploaded bundles above its head, linked to it. -/
theorem bundle_chains (c : Crypto) :
    (∀ wires chain, verifyChainFromStart c wires = .ok chain →
      List.Forall₂ (fun wire b => verifySelfSigned c wire = .ok b) wires chain ∧
        (∀ i b, chain[i]? = some b → b.bundleSeq = i + 1) ∧
        (∀ b, chain[0]? = some b → b.identityEpoch = 0) ∧
        chain.IsChain fun p n => ReplacesKeys p n ∨ KeepsKeys p n) ∧
      (∀ wires chain wires' chain', verifyChainFromStart c wires = .ok chain →
        verifyChainFromStart c wires' = .ok chain' →
        Set.InjOn c.sha256 {m | ∃ b ∈ chain ++ chain', b.message = m} →
        ∀ (i i' : ℕ) (b b' : VerifiedBundle c), chain[i]? = some b → chain'[i']? = some b' →
          b.hash = b'.hash →
          i = i' ∧ ∀ j ≤ i, chain[j]?.map VerifiedBundle.message =
            chain'[j]?.map VerifiedBundle.message) ∧
      ∀ wires stored wires' new, verifyChainFromStart c wires = .ok stored →
        extendChain stored wires' = .ok new →
        (∃ head, stored.getLast? = some head ∧
          new = wires'.filterMap (bundleAbove c head.bundleSeq)) ∧
          verifyChainFromStart c (wires ++ new.map Prod.snd) = .ok (stored ++ new.map Prod.fst) ∧
          extendChain (stored ++ new.map Prod.fst) wires' = .ok [] := by
  have hnumber : ∀ wires chain, verifyChainFromStart c wires = .ok chain →
      ∀ i b, chain[i]? = some b → b.bundleSeq = i + 1 := by
    intro wires chain h i b hb
    obtain ⟨first, rest, rfl, hseq, hchain, -⟩ := verifyChainFromStart_eq_ok h
    obtain ⟨hi, rfl⟩ := List.getElem?_eq_some_iff.mp hb
    exact bundleSeq_getElem hseq hchain hi
  refine ⟨fun wires chain h => ?_, fun wires chain wires' chain' h h' hinj i i' b b' hb hb' hhash => ?_,
    fun wires stored wires' new hstored hnew => extendChain_spec hstored hnew⟩
  · obtain ⟨first, rest, rfl, hseq, hchain, hall⟩ := verifyChainFromStart_eq_ok h
    refine ⟨hall, hnumber _ _ h, fun b hb => ?_, hchain.imp fun _ _ hlink => hlink.keys.symm⟩
    cases hb
    exact first.identityEpoch_of_first hseq
  · obtain ⟨-, -, -, -, hchain, -⟩ := verifyChainFromStart_eq_ok h
    obtain ⟨-, -, -, -, hchain', -⟩ := verifyChainFromStart_eq_ok h'
    obtain ⟨hi, rfl⟩ := List.getElem?_eq_some_iff.mp hb
    obtain ⟨hi', rfl⟩ := List.getElem?_eq_some_iff.mp hb'
    have hmessage : ∀ a ∈ chain, ∀ a' ∈ chain', a.hash = a'.hash → a.message = a'.message := by
      intro a ha a' ha' haa
      rw [a.hash_eq, a'.hash_eq] at haa
      exact hinj ⟨a, List.mem_append_left _ ha, rfl⟩ ⟨a', List.mem_append_right _ ha', rfl⟩ haa
    have hsame := VerifiedBundle.eq_of_message_eq
      (hmessage _ (List.getElem_mem hi) _ (List.getElem_mem hi') hhash)
    obtain rfl : i = i' := by
      have hseq := hnumber _ _ h i _ hb
      have hseq' := hnumber _ _ h' i' _ hb'
      rw [hsame] at hseq
      omega
    refine ⟨rfl, fun j hj => ?_⟩
    have hj' : j < chain.length := by omega
    have hj'' : j < chain'.length := by omega
    rw [List.getElem?_eq_getElem hj', List.getElem?_eq_getElem hj'']
    exact congrArg some (hmessage _ (List.getElem_mem hj') _ (List.getElem_mem hj'')
      (hash_eq_of_le (linked_of_isChain hchain) (linked_of_isChain hchain') (noCollision hinj) hi hi'
        hhash hj))

/-- Primitives that accept every key and signature, and hash a message to its residue. -/
def sampleCrypto : Crypto where
  sha256 m := beBytes 32 (ofBe m % (2 ^ 256 - 189))
  isVerifyingKey _ := true
  verifyStrict _ _ _ := true

/-- The wires of a first bundle and of an identity change after it. -/
def sampleWires : List Bytes :=
  let key (n : Byte) : Bytes := List.replicate publicKeyLen n
  let sign (n : Byte) : SignatureContainer :=
    ⟨keyId sampleCrypto .identityEd25519 (key n), List.replicate signatureLen n⟩
  let body (epoch seq : ℕ) (n : Byte) (prev : Bytes) : Bytes :=
    (PublicKeyBundle.encodeBody ⟨List.replicate idLen 7, epoch, seq, key n, key (n + 1), none, false,
      5, prev⟩).getD []
  let first := body 0 1 1 (List.replicate hashLen 0)
  let second := body 1 2 3 (sampleCrypto.sha256 (signedMessage labelPublicKeyBundle first))
  [encodeWire first [sign 1], encodeWire second [sign 3, sign 1]]

theorem bundle_chains_sampleWires :
    ∃ (chain stored : List (VerifiedBundle sampleCrypto))
      (new : List (VerifiedBundle sampleCrypto × Bytes)),
      verifyChainFromStart sampleCrypto sampleWires = .ok chain ∧ chain.length = 2 ∧
        (chain.IsChain fun p n => ReplacesKeys p n ∨ KeepsKeys p n) ∧
        extendChain stored sampleWires = .ok new ∧ new.length = 1 ∧
        extendChain (stored ++ new.map Prod.fst) sampleWires = .ok [] := by
  obtain ⟨hchains, -, hextends⟩ := bundle_chains sampleCrypto
  have hlength : (verifyChainFromStart sampleCrypto sampleWires).toOption.map List.length =
      some 2 := by decide +kernel
  have hnew : ((verifyChainFromStart sampleCrypto (sampleWires.take 1)).toOption.bind fun stored =>
      (extendChain stored sampleWires).toOption.map List.length) = some 1 := by decide +kernel
  cases hchain : verifyChainFromStart sampleCrypto sampleWires with
  | error e => simp [hchain, Except.toOption] at hlength
  | ok chain =>
    cases hstored : verifyChainFromStart sampleCrypto (sampleWires.take 1) with
    | error e => simp [hstored, Except.toOption] at hnew
    | ok stored =>
      cases hextend : extendChain stored sampleWires with
      | error e => simp [hstored, hextend, Except.toOption] at hnew
      | ok new =>
        simp only [hchain, hstored, hextend, Except.toOption, Option.map_some, Option.bind_some,
          Option.some_inj] at hlength hnew
        obtain ⟨-, -, -, hlinks⟩ := hchains _ _ hchain
        obtain ⟨-, -, hagain⟩ := hextends _ _ _ _ hstored hextend
        exact ⟨chain, stored, new, rfl, hlength, hlinks, hextend, hnew, hagain⟩

end RizzyVault.Auth
