import RizzyVault.Core.ReaderGrammar
import RizzyVault.Core.Sign
import RizzyVault.Lib.Result
import RizzyVault.Lib.Sorted
import RizzyVault.Lib.Text
import RizzyVault.Match.Modes

/-!
# The signed equivalence list

The signing tool builds a list of groups from domains as they are typed; a client reads the list
back from its bytes and takes no domain that is not its own normal form. The tool strips one dot at
the end of a domain before it normalises it, so a domain that ends in two dots is stored with one,
which the client's normalisation strips again.

## Main definitions

* `normalizeDomain`.
* `EquivalenceGroup.new`, `EquivalenceList.new`: the signing tool.
* `EquivalenceList.encodeCtx`, `EquivalenceList.decodeCtx`, `EquivalenceList.verify`.

## Main results

* `decodeCtx_eq_ok_iff`: what a client accepts is the layout of a well-formed list.
* `built_list_accepted_iff`: which lists of the tool a client accepts.

## References

* `crates/rizzy-match/src/equivalence.rs`, `crates/rizzy-match/src/normalize.rs`,
  `crates/rizzy-core/src/sign/mod.rs`.
-/

open RizzyVault.Core RizzyVault.Lib

namespace RizzyVault.Match

open NormalizedUrl (maxHostLen)

/-! ### Domains -/

/-- Why a domain did not normalise. -/
inductive DomainError
  | tooLong
  | invalid
  | empty
  deriving DecidableEq

/-- The conversion of a domain to its ASCII form. A form is its own form, and so is what is left of
it without a dot at its end. -/
structure Idna where
  toAscii : String → Option String
  idempotent : ∀ raw ascii, toAscii raw = some ascii → toAscii ascii = some ascii
  stripDot_self : ∀ raw ascii, toAscii raw = some ascii →
    toAscii (stripDot ascii) = some (stripDot ascii)

/-- The A-label form of a domain. -/
def normalizeDomain (idna : Idna) (raw : String) : Except DomainError String :=
  if maxHostLen < raw.utf8ByteSize then .error .tooLong
  else match idna.toAscii (stripDot raw) with
    | none => .error .invalid
    | some ascii =>
      if ascii = "" then .error .empty
      else if maxHostLen < ascii.utf8ByteSize then .error .tooLong
      else .ok ascii

/-! ### Groups and lists -/

/-- Why a list was rejected. -/
inductive EquivalenceListError
  | tooLong
  | malformed
  | badSignatureLength
  | unsupportedVersion
  | badSignature
  | notNewer
  deriving DecidableEq

def formatVersion : Fin (2 ^ 16) := 1

def maxListLen : ℕ := 2 ^ 20

def maxGroups : ℕ := 4096

def maxGroupDomains : ℕ := 64

/-- Builds a group from its domains: normalised and sorted. The order of the bytes of two texts is
the order of the texts. -/
def EquivalenceGroup.new (idna : Idna) (id : GroupId) (domains : List String)
    (thirdPartyHostable : Bool) : Except EquivalenceListError EquivalenceGroup := do
  let normalized ← domains.mapM fun d => (normalizeDomain idna d).mapError fun _ => .malformed
  let deduped := (normalized.insertionSort (· ≤ ·)).destutter (· ≠ ·)
  if deduped.length ≠ normalized.length then .error .malformed
  else if deduped.length < 2 ∨ maxGroupDomains < deduped.length then .error .malformed
  else .ok ⟨id, deduped, thirdPartyHostable⟩

/-- A list of groups whose signature is not checked yet. -/
structure EquivalenceList where
  formatVersion : Fin (2 ^ 16)
  listVersion : Fin (2 ^ 32)
  publishedAtMs : Fin (2 ^ 64)
  groups : List EquivalenceGroup
  deriving DecidableEq

/-- Builds a list from its groups: sorted by id. -/
def EquivalenceList.new (listVersion : Fin (2 ^ 32)) (publishedAtMs : Fin (2 ^ 64))
    (groups : List EquivalenceGroup) : Except EquivalenceListError EquivalenceList :=
  let sorted := groups.insertionSort fun a b => a.id.bytes ≤ b.id.bytes
  if maxGroups < groups.length then .error .malformed
  else if (sorted.zip sorted.tail).any (fun pair => pair.1.id = pair.2.id) then .error .malformed
  else .ok ⟨Match.formatVersion, listVersion, publishedAtMs, sorted⟩

/-! ### Encoding -/

/-- A string longer than its length prefix can say. -/
inductive EncodeError
  | tooLong
  deriving DecidableEq

/-- A length-prefixed string. -/
def putStr (s : String) : Except EncodeError Bytes :=
  if 2 ^ 32 ≤ s.utf8ByteSize then .error .tooLong else .ok (putBytes (utf8 s))

/-- A number as a `u16`, or zero where it is none. -/
def putCount (n : ℕ) : Bytes := beBytes 2 (if n < 2 ^ 16 then n else 0)

def EquivalenceGroup.encode (group : EquivalenceGroup) : Except EncodeError Bytes := do
  let domains ← group.domains.mapM putStr
  return beBytes 16 group.id.bytes ++ putCount group.domains.length ++ domains.flatten ++
    [if group.thirdPartyHostable then 1 else 0]

/-- The bytes that are signed. -/
def EquivalenceList.encodeCtx (list : EquivalenceList) : Except EncodeError Bytes := do
  let groups ← list.groups.mapM EquivalenceGroup.encode
  return beBytes 2 list.formatVersion ++ beBytes 4 list.listVersion ++
    beBytes 8 list.publishedAtMs ++ putCount list.groups.length ++ groups.flatten

/-- The wire of a list and its signature. -/
def EquivalenceList.encodeSigned (list : EquivalenceList) (signature : Bytes) :
    Except EncodeError Bytes := do
  return (← list.encodeCtx) ++ signature

/-! ### Decoding -/

abbrev ListParser := Parser Byte EquivalenceListError

/-- A read whose every failure is a malformed list. -/
def orMalformed {α : Type} (r : Reader α) : ListParser α := r.mapError fun _ => .malformed

/-- A length-prefixed string. -/
def readStr : ListParser String := do
  let bytes ← orMalformed do Reader.take (← Reader.u32)
  Parser.ofOption (fromUtf8 bytes) .malformed

/-- One domain of a group: its own normal form, and above the domain before it. -/
def readDomain (idna : Idna) (previous : Option String) : ListParser String := do
  let domain ← readStr
  Parser.require (domain.utf8ByteSize ≤ maxHostLen) .malformed
  Parser.require ((normalizeDomain idna domain).toOption = some domain) .malformed
  Parser.require (previous.all fun prev => prev < domain) .malformed
  return domain

def readDomains (idna : Idna) : ℕ → Option String → ListParser (List String)
  | 0, _ => return []
  | n + 1, previous => do
    let domain ← readDomain idna previous
    return domain :: (← readDomains idna n (some domain))

def EquivalenceGroup.decode (idna : Idna) : ListParser EquivalenceGroup := do
  let id ← orMalformed (Reader.number 16)
  let m ← orMalformed Reader.u16
  Parser.require (2 ≤ m ∧ m ≤ maxGroupDomains) .malformed
  let domains ← readDomains idna m none
  let flag ← orMalformed Reader.u8
  let thirdPartyHostable ← Parser.ofOption
    (if flag = 0 then some false else if flag = 1 then some true else none) .malformed
  return ⟨⟨Fin.ofNat _ id⟩, domains, thirdPartyHostable⟩

def readGroup (idna : Idna) (previous : Option GroupId) : ListParser EquivalenceGroup := do
  let group ← EquivalenceGroup.decode idna
  Parser.require (previous.all fun prev => prev.bytes < group.id.bytes) .malformed
  return group

def readGroups (idna : Idna) : ℕ → Option GroupId → ListParser (List EquivalenceGroup)
  | 0, _ => return []
  | n + 1, previous => do
    let group ← readGroup idna previous
    return group :: (← readGroups idna n (some group.id))

namespace EquivalenceList

def read (idna : Idna) : ListParser EquivalenceList := do
  let formatVersion ← orMalformed Reader.u16
  Parser.require (formatVersion = Match.formatVersion.val) .unsupportedVersion
  let listVersion ← orMalformed Reader.u32
  let publishedAtMs ← orMalformed Reader.u64
  let n ← orMalformed Reader.u16
  Parser.require (n ≤ maxGroups) .malformed
  let groups ← readGroups idna n none
  orMalformed Reader.finish
  return ⟨Fin.ofNat _ formatVersion, Fin.ofNat _ listVersion, Fin.ofNat _ publishedAtMs, groups⟩

/-- Reads the signed bytes. -/
def decodeCtx (idna : Idna) (ctx : Bytes) : Except EquivalenceListError EquivalenceList :=
  (read idna ⟨ctx, ctx.length⟩).map Prod.fst

end EquivalenceList

def sigEquivalenceList : Bytes :=
  label ['s', 'i', 'g', '/', 'e', 'q', 'u', 'i', 'v', 'a', 'l', 'e', 'n', 'c', 'e', '-',
    'l', 'i', 's', 't']

/-- Checks a signature under a pinned key. -/
def verifyDetached (c : Crypto) (label ctx publicKey signature : Bytes) : Except VerifyError Unit :=
  if !c.isVerifyingKey publicKey then .error (.malformed .invalidValue)
  else if c.verifyStrict publicKey (label ++ [0x00] ++ ctx) signature then .ok ()
  else .error .badSignature

/-- Reads a list from its wire and checks its signature and that it is newer. -/
def EquivalenceList.verify (idna : Idna) (c : Crypto) (wire publicKey : Bytes)
    (highestAcceptedVersion : Fin (2 ^ 32)) : Except EquivalenceListError EquivalenceList := do
  if maxListLen < wire.length then throw .tooLong
  if wire.length < signatureLen then throw .badSignatureLength
  let ctx := wire.take (wire.length - signatureLen)
  let signature := wire.drop (wire.length - signatureLen)
  let list ← decodeCtx idna ctx
  (verifyDetached c sigEquivalenceList ctx publicKey signature).mapError fun _ => .badSignature
  if list.listVersion ≤ highestAcceptedVersion then throw .notNewer
  return list

/-! ### What a client accepts -/

variable {idna : Idna}

theorem normalizeDomain_eq_ok {raw ascii : String} (h : normalizeDomain idna raw = .ok ascii) :
    idna.toAscii (stripDot raw) = some ascii ∧ ascii ≠ "" ∧ ascii.utf8ByteSize ≤ maxHostLen := by
  unfold normalizeDomain at h
  split_ifs at h
  split at h
  · cases h
  · rename_i found hfound
    split_ifs at h with hempty hlen
    cases h
    exact ⟨hfound, hempty, not_lt.mp hlen⟩

theorem stripDot_eq_self {s : String} : stripDot s = s ↔ s.toList.getLast? ≠ some '.' := by
  unfold stripDot
  split_ifs with h
  · refine ⟨fun heq => ?_, fun hne => absurd h hne⟩
    have hlen := congrArg (fun t => t.toList.length) heq
    rcases hs : s.toList with _ | ⟨c, l⟩
    · rw [hs] at h
      cases h
    · simp [hs] at hlen
  · simp [h]

/-- A stored domain is read back as itself exactly if it does not end in a dot. -/
theorem normalizeDomain_self_iff {raw ascii : String} (h : normalizeDomain idna raw = .ok ascii) :
    normalizeDomain idna ascii = .ok ascii ↔ ascii.toList.getLast? ≠ some '.' := by
  obtain ⟨hascii, hne, hlen⟩ := normalizeDomain_eq_ok h
  rw [← stripDot_eq_self]
  constructor
  · intro hself
    have hstrip := idna.stripDot_self _ _ hascii
    have hstored := (normalizeDomain_eq_ok hself).1
    have hidem := idna.idempotent _ _ hstrip
    rw [hstored] at hidem hstrip
    exact (Option.some.inj hstrip).symm
  · intro hstrip
    have hidem := idna.idempotent _ _ hascii
    rw [normalizeDomain, if_neg (not_lt.mpr hlen), hstrip, hidem]
    simp only [if_neg hne, if_neg (not_lt.mpr hlen)]

/-- The rules of a group a client accepts. -/
structure EquivalenceGroup.WellFormed (idna : Idna) (group : EquivalenceGroup) : Prop where
  count : 2 ≤ group.domains.length ∧ group.domains.length ≤ maxGroupDomains
  ascending : group.domains.Pairwise (· < ·)
  normal : ∀ d ∈ group.domains, normalizeDomain idna d = .ok d

/-- The rules of a list a client accepts. -/
structure EquivalenceList.WellFormed (idna : Idna) (list : EquivalenceList) : Prop where
  version : list.formatVersion = Match.formatVersion
  count : list.groups.length ≤ maxGroups
  ascending : list.groups.Pairwise fun a b => a.id.bytes < b.id.bytes
  groups : ∀ group ∈ list.groups, group.WellFormed idna

/-- The layout of a group. -/
def putGroup (group : EquivalenceGroup) : Bytes :=
  beBytes 16 group.id.bytes ++ (beBytes 2 group.domains.length ++
    (group.domains.flatMap (fun d => putBytes (utf8 d)) ++
      [if group.thirdPartyHostable then 1 else 0]))

/-- The layout of a list. -/
def putList (list : EquivalenceList) : Bytes :=
  beBytes 2 list.formatVersion ++ (beBytes 4 list.listVersion ++ (beBytes 8 list.publishedAtMs ++
    (beBytes 2 list.groups.length ++ list.groups.flatMap putGroup)))

theorem parses_readStr :
    Parses Set.univ readStr fun bs s => s.utf8ByteSize < 2 ^ 32 ∧ bs = putBytes (utf8 s) := by
  apply Parses.congr
  · apply parses_bind (parses_mapError _ Reader.parses_prefixed)
    intro bytes
    have hstr := parses_ofOption (o := fromUtf8 bytes) (e := EquivalenceListError.malformed)
      fun s : String => parses_pure (β := Byte) s
    rwa [bind_pure] at hstr
  intro bs s
  constructor
  · rintro ⟨_, _, x, ⟨hx, rfl⟩, ⟨s, hs, rfl, rfl⟩, rfl⟩
    rw [fromUtf8_eq_some] at hs
    rw [← length_utf8, hs, List.append_nil]
    exact ⟨hx, rfl⟩
  · rintro ⟨hs, rfl⟩
    rw [← length_utf8] at hs
    exact ⟨_, [], utf8 s, ⟨hs, rfl⟩, ⟨s, fromUtf8_eq_some.mpr rfl, rfl, rfl⟩,
      (List.append_nil _).symm⟩

theorem parses_readDomain (previous : Option String) :
    Parses Set.univ (readDomain idna previous) fun bs d =>
      (∀ prev ∈ previous, prev < d) ∧ normalizeDomain idna d = .ok d ∧ (previous = none → True) ∧
        bs = putBytes (utf8 d) := by
  apply Parses.congr
  · apply parses_bind parses_readStr
    intro d
    apply parses_require
    apply parses_require
    exact parses_require (parses_pure d)
  intro bs d
  simp only [option_all_iff, decide_eq_true_eq, toOption_eq_some]
  constructor
  · rintro ⟨_, _, _, ⟨-, rfl⟩, ⟨-, hnormal, hprev, rfl, rfl⟩, rfl⟩
    exact ⟨hprev, hnormal, fun _ => trivial, List.append_nil _⟩
  · rintro ⟨hprev, hnormal, -, rfl⟩
    have hlen := (normalizeDomain_eq_ok hnormal).2.2
    refine ⟨_, [], d, ⟨?_, rfl⟩, ⟨hlen, hnormal, hprev, rfl, rfl⟩, (List.append_nil _).symm⟩
    exact hlen.trans_lt (by norm_num [maxHostLen])

theorem parses_readDomains (n : ℕ) :
    Parses Set.univ (readDomains idna n none) fun bs l =>
      l.length = n ∧ l.Pairwise (· < ·) ∧ (∀ d ∈ l, normalizeDomain idna d = .ok d) ∧
        bs = l.flatMap fun d => putBytes (utf8 d) := by
  refine (parses_loop (· < ·) (fun d : String => d) (readDomains idna) (readDomain idna)
    (fun _ => rfl) (fun _ _ => rfl) parses_readDomain n none).congr fun bs l => ?_
  simp [ascends_none]

theorem parses_decodeGroup :
    Parses Set.univ (EquivalenceGroup.decode idna) fun bs g =>
      g.WellFormed idna ∧ bs = putGroup g := by
  apply Parses.congr
  · apply parses_bind (parses_mapError _ (Reader.parses_number 16))
    intro id
    apply parses_bind (parses_mapError _ (Reader.parses_number 2))
    intro m
    apply parses_require
    apply parses_bind (parses_readDomains m)
    intro domains
    apply parses_bind (parses_mapError _ (Reader.parses_number 1))
    intro flag
    apply parses_ofOption
    intro hostable
    apply parses_pure
  intro bs g
  simp only [decide_eq_true_eq]
  constructor
  · rintro ⟨_, _, id, ⟨hid, rfl⟩, ⟨_, _, _, ⟨hm, rfl⟩, ⟨hcount, _, _, domains,
      ⟨rfl, hasc, hnormal, rfl⟩, ⟨_, _, flag, ⟨hflag, rfl⟩, ⟨hostable, hh, rfl, rfl⟩, rfl⟩, rfl⟩,
      rfl⟩, rfl⟩
    refine ⟨⟨hcount, hasc, hnormal⟩, ?_⟩
    have hid' : (Fin.ofNat (2 ^ 128) id).val = id := Nat.mod_eq_of_lt hid
    have hbyte : beBytes 1 flag = [if hostable then 1 else 0] := by
      split_ifs at hh with h0 h1
      · cases hh
        rw [h0]
        rfl
      · cases hh
        rw [h1]
        rfl
    rw [putGroup, hid', hbyte, List.append_nil]
  · rintro ⟨⟨hcount, hasc, hnormal⟩, rfl⟩
    refine ⟨_, _, g.id.bytes, ⟨g.id.bytes.isLt, rfl⟩, ⟨_, _, _, ⟨?_, rfl⟩, ⟨hcount, _, _, g.domains,
      ⟨rfl, hasc, hnormal, rfl⟩, ⟨beBytes 1 (if g.thirdPartyHostable then 1 else 0), [], _,
      ⟨?_, rfl⟩, ⟨g.thirdPartyHostable, ?_, rfl, ?_⟩, rfl⟩, rfl⟩, rfl⟩, ?_⟩
    · exact hcount.2.trans_lt (by norm_num [maxGroupDomains])
    · split_ifs <;> norm_num
    · cases g.thirdPartyHostable <;> rfl
    · rw [Fin.ofNat_val_eq_self]
    · rw [putGroup, List.append_nil]
      cases g.thirdPartyHostable <;> rfl

instance : IsTrans GroupId fun a b => a.bytes < b.bytes := ⟨fun _ _ _ => lt_trans⟩

theorem parses_readGroups (n : ℕ) :
    Parses Set.univ (readGroups idna n none) fun bs l =>
      l.length = n ∧ (l.Pairwise fun a b => a.id.bytes < b.id.bytes) ∧
        (∀ g ∈ l, g.WellFormed idna) ∧ bs = l.flatMap putGroup := by
  have hstep : ∀ previous : Option GroupId, Parses Set.univ (readGroup idna previous) fun bs g =>
      (∀ prev ∈ previous, prev.bytes < g.id.bytes) ∧ g.WellFormed idna ∧
        (previous = none → True) ∧ bs = putGroup g := by
    intro previous
    apply Parses.congr
    · apply parses_bind parses_decodeGroup
      intro g
      exact parses_require (parses_pure g)
    intro bs g
    simp only [option_all_iff]
    constructor
    · rintro ⟨_, _, _, ⟨hg, rfl⟩, ⟨hprev, rfl, rfl⟩, rfl⟩
      exact ⟨hprev, hg, fun _ => trivial, List.append_nil _⟩
    · rintro ⟨hprev, hg, -, rfl⟩
      exact ⟨_, [], g, ⟨hg, rfl⟩, ⟨hprev, rfl, rfl⟩, (List.append_nil _).symm⟩
  refine (parses_loop (fun a b : GroupId => a.bytes < b.bytes) EquivalenceGroup.id
    (readGroups idna) (readGroup idna) (fun _ => rfl) (fun _ _ => rfl) hstep n none).congr
    fun bs l => ?_
  simp [ascends_none]

theorem parses_list :
    Parses {[]} (EquivalenceList.read idna) fun bs list =>
      list.WellFormed idna ∧ bs = putList list := by
  apply Parses.congr
  · apply parses_bind (parses_mapError _ (Reader.parses_number 2))
    intro version
    apply parses_require
    apply parses_bind (parses_mapError _ (Reader.parses_number 4))
    intro listVersion
    apply parses_bind (parses_mapError _ (Reader.parses_number 8))
    intro publishedAtMs
    apply parses_bind (parses_mapError _ (Reader.parses_number 2))
    intro n
    apply parses_require
    apply parses_bind (parses_readGroups n)
    intro groups
    apply Reader.parses_finish
  intro bs list
  simp only [decide_eq_true_eq]
  constructor
  · rintro ⟨_, _, version, ⟨-, rfl⟩, ⟨rfl, _, _, v, ⟨hv, rfl⟩, ⟨_, _, p, ⟨hp, rfl⟩, ⟨_, _, n,
      ⟨hn, rfl⟩, ⟨hcount, _, _, groups, ⟨rfl, hasc, hgroups, rfl⟩, ⟨rfl, rfl⟩, rfl⟩, rfl⟩, rfl⟩,
      rfl⟩, rfl⟩
    refine ⟨⟨Fin.ofNat_val_eq_self _, hcount, hasc, hgroups⟩, ?_⟩
    have hv' : (Fin.ofNat (2 ^ 32) v).val = v := Nat.mod_eq_of_lt hv
    have hp' : (Fin.ofNat (2 ^ 64) p).val = p := Nat.mod_eq_of_lt hp
    rw [putList, hv', hp', Fin.ofNat_val_eq_self, List.append_nil]
  · rintro ⟨⟨hversion, hcount, hasc, hgroups⟩, rfl⟩
    have hlen : list.groups.length < 256 ^ 2 := hcount.trans_lt (by norm_num [maxGroups])
    refine ⟨_, _, list.formatVersion, ⟨list.formatVersion.isLt, rfl⟩, ⟨by rw [hversion], _, _,
      list.listVersion, ⟨list.listVersion.isLt, rfl⟩, ⟨_, _, list.publishedAtMs,
      ⟨list.publishedAtMs.isLt, rfl⟩, ⟨_, _, _, ⟨hlen, rfl⟩, ⟨hcount, _, _, list.groups,
      ⟨rfl, hasc, hgroups, rfl⟩, ⟨rfl, ?_⟩, rfl⟩, rfl⟩, rfl⟩, rfl⟩, ?_⟩
    · rw [Fin.ofNat_val_eq_self, Fin.ofNat_val_eq_self, Fin.ofNat_val_eq_self]
    · rw [putList, List.append_nil]

/-- A client accepts exactly the layouts of the well-formed lists. -/
theorem decodeCtx_eq_ok_iff {ctx : Bytes} {list : EquivalenceList} :
    EquivalenceList.decodeCtx idna ctx = .ok list ↔ list.WellFormed idna ∧ ctx = putList list :=
  parses_list.run_eq_ok_iff ctx list

/-! ### What the tool writes -/

theorem putStr_eq {s : String} (h : s.utf8ByteSize ≤ maxHostLen) :
    putStr s = .ok (putBytes (utf8 s)) := by
  have hlt : s.utf8ByteSize < 2 ^ 32 := h.trans_lt (by norm_num [maxHostLen])
  rw [putStr, if_neg (not_le.mpr hlt)]

theorem putCount_eq {n : ℕ} (h : n < 2 ^ 16) : putCount n = beBytes 2 n := by
  rw [putCount, if_pos h]

/-- The bounds within which the layout is what is written. -/
structure EquivalenceGroup.Fits (group : EquivalenceGroup) : Prop where
  count : group.domains.length ≤ maxGroupDomains
  domains : ∀ d ∈ group.domains, d.utf8ByteSize ≤ maxHostLen

theorem encode_group_eq {group : EquivalenceGroup} (h : group.Fits) :
    group.encode = .ok (putGroup group) := by
  have hcount : group.domains.length < 2 ^ 16 :=
    h.count.trans_lt (by norm_num [maxGroupDomains])
  rw [EquivalenceGroup.encode, mapM_eq_ok_map fun d hd => putStr_eq (h.domains d hd),
    putCount_eq hcount, putGroup, List.flatMap_def]
  simp [bind, Except.bind, pure, Except.pure]

theorem encodeCtx_eq {list : EquivalenceList} (hcount : list.groups.length ≤ maxGroups)
    (hgroups : ∀ group ∈ list.groups, group.Fits) : list.encodeCtx = .ok (putList list) := by
  have hlt : list.groups.length < 2 ^ 16 := hcount.trans_lt (by norm_num [maxGroups])
  rw [EquivalenceList.encodeCtx, mapM_eq_ok_map fun g hg => encode_group_eq (hgroups g hg),
    putCount_eq hlt, putList, List.flatMap_def]
  simp [bind, Except.bind, pure, Except.pure]

theorem EquivalenceGroup.WellFormed.fits {group : EquivalenceGroup} (h : group.WellFormed idna) :
    group.Fits :=
  ⟨h.count.2, fun d hd => (normalizeDomain_eq_ok (h.normal d hd)).2.2⟩

theorem EquivalenceList.WellFormed.encodeCtx {list : EquivalenceList} (h : list.WellFormed idna) :
    list.encodeCtx = .ok (putList list) :=
  encodeCtx_eq h.count fun group hg => (h.groups group hg).fits

/-! ### What the tool builds -/

/-- A group as it is given to the tool. -/
structure GroupSource where
  id : GroupId
  domains : List String
  thirdPartyHostable : Bool

namespace GroupSource

def build (idna : Idna) (source : GroupSource) : Except EquivalenceListError EquivalenceGroup :=
  EquivalenceGroup.new idna source.id source.domains source.thirdPartyHostable

/-- The length of a domain's form, with its prefix. -/
def domainLen (idna : Idna) (domain : String) : ℕ :=
  match normalizeDomain idna domain with
  | .ok form => 4 + form.utf8ByteSize
  | .error _ => 0

/-- The length of the group on the wire. -/
def wireLen (idna : Idna) (source : GroupSource) : ℕ :=
  19 + (source.domains.map (domainLen idna)).sum

end GroupSource

/-- No domain has a form that ends in a dot. -/
def GroupSource.Dotless (idna : Idna) (source : GroupSource) : Prop :=
  ∀ d ∈ source.domains, ∀ form, normalizeDomain idna d = .ok form → form.toList.getLast? ≠ some '.'

/-- What a group has of its source. -/
structure BuiltFrom (idna : Idna) (source : GroupSource) (group : EquivalenceGroup) : Prop where
  count : 2 ≤ group.domains.length ∧ group.domains.length ≤ maxGroupDomains
  ascending : group.domains.Pairwise (· < ·)
  forms : ∃ forms, group.domains.Perm forms ∧
    List.Forall₂ (fun d form => normalizeDomain idna d = .ok form) source.domains forms

theorem builtFrom_of_build {source : GroupSource} {group : EquivalenceGroup}
    (h : source.build idna = .ok group) : BuiltFrom idna source group := by
  obtain ⟨forms, hforms, h⟩ := except_bind_eq_ok.mp h
  have hall : List.Forall₂ (fun d form => normalizeDomain idna d = .ok form) source.domains
      forms := by
    refine (mapM_eq_ok_forall₂ hforms).imp fun d form hd => ?_
    cases hn : normalizeDomain idna d with
    | error e =>
      rw [hn] at hd
      cases hd
    | ok form' =>
      rw [hn] at hd
      cases hd
      rfl
  simp only at h
  split_ifs at h with hlen hcount
  cases h
  -- no neighbours are equal, so the deduplication keeps the list
  have hself : (forms.insertionSort (· ≤ ·)).destutter (· ≠ ·) = forms.insertionSort (· ≤ ·) := by
    refine (List.destutter_sublist (· ≠ ·) _).eq_of_length ?_
    rw [List.length_insertionSort]
    exact not_not.mp hlen
  have hchain := List.isChain_destutter (· ≠ ·) (forms.insertionSort (· ≤ ·))
  rw [hself] at hchain hcount ⊢
  simp only [not_or, not_lt] at hcount
  exact ⟨hcount, pairwise_lt_of_neighbours (fun d : String => d) (pairwise_le_insertionSort _ _)
    hchain, forms, List.perm_insertionSort _ _, hall⟩

/-- What a list has of its groups. -/
theorem list_new_eq_ok {listVersion : Fin (2 ^ 32)} {publishedAtMs : Fin (2 ^ 64)}
    {groups : List EquivalenceGroup} {list : EquivalenceList}
    (h : EquivalenceList.new listVersion publishedAtMs groups = .ok list) :
    list.formatVersion = formatVersion ∧ list.groups.Perm groups ∧
      list.groups.length ≤ maxGroups ∧
      list.groups.Pairwise fun a b => a.id.bytes < b.id.bytes := by
  simp only [EquivalenceList.new] at h
  split_ifs at h with hcount hne
  cases h
  have hperm := List.perm_insertionSort
    (fun a b : EquivalenceGroup => a.id.bytes ≤ b.id.bytes) groups
  refine ⟨rfl, hperm, hperm.length_eq ▸ not_lt.mp hcount, ?_⟩
  refine pairwise_lt_of_neighbours (fun g : EquivalenceGroup => g.id.bytes)
    (pairwise_le_insertionSort _ _) ((isChain_of_zip_tail (Bool.eq_false_iff.mpr hne)).imp ?_)
  intro a b hab hid
  exact of_decide_eq_false hab (congrArg GroupId.mk hid)

namespace BuiltFrom

variable {source : GroupSource} {group : EquivalenceGroup}

/-- The stored domains are the forms of the given ones. -/
theorem mem_domains (h : BuiltFrom idna source group) {form : String} :
    form ∈ group.domains ↔ ∃ d ∈ source.domains, normalizeDomain idna d = .ok form := by
  obtain ⟨forms, hperm, hall⟩ := h.forms
  rw [hperm.mem_iff]
  generalize source.domains = domains at hall ⊢
  clear hperm h
  induction hall with
  | nil => simp
  | @cons d form' domains forms hd hall ih =>
    rw [List.mem_cons, ih, List.exists_mem_cons_iff, hd, Except.ok.injEq, eq_comm]

theorem fits (h : BuiltFrom idna source group) : group.Fits := by
  refine ⟨h.count.2, fun form hform => ?_⟩
  obtain ⟨d, -, hd⟩ := h.mem_domains.mp hform
  exact (normalizeDomain_eq_ok hd).2.2

/-- A client accepts the group exactly if no stored domain ends in a dot. -/
theorem wellFormed_iff (h : BuiltFrom idna source group) :
    group.WellFormed idna ↔ source.Dotless idna := by
  constructor
  · intro hwf d hd form hform
    exact (normalizeDomain_self_iff hform).mp (hwf.normal form (h.mem_domains.mpr ⟨d, hd, hform⟩))
  · intro hdot
    refine ⟨h.count, h.ascending, fun form hform => ?_⟩
    obtain ⟨d, hd, hform⟩ := h.mem_domains.mp hform
    exact (normalizeDomain_self_iff hform).mpr (hdot d hd form hform)

theorem length_putGroup (h : BuiltFrom idna source group) :
    (putGroup group).length = source.wireLen idna := by
  obtain ⟨forms, hperm, hall⟩ := h.forms
  have hlen : ∀ form : String, (putBytes (utf8 form)).length = 4 + form.utf8ByteSize := by
    intro form
    rw [putBytes, List.length_append, length_beBytes, length_utf8]
  have hsum : (group.domains.map fun form => 4 + form.utf8ByteSize).sum =
      (source.domains.map (GroupSource.domainLen idna)).sum := by
    rw [(hperm.map _).sum_eq]
    generalize source.domains = domains at hall ⊢
    clear hperm h
    induction hall with
    | nil => rfl
    | @cons d form domains forms hd _ ih =>
      have hd' : GroupSource.domainLen idna d = 4 + form.utf8ByteSize := by
        rw [GroupSource.domainLen, hd]
      rw [List.map_cons, List.map_cons, List.sum_cons, List.sum_cons, ih, hd']
  simp only [putGroup, List.length_append, length_beBytes, List.length_flatMap, hlen,
    List.length_singleton, hsum, GroupSource.wireLen]
  omega

end BuiltFrom

/-- A client accepts what the tool writes for a list: the signed bytes are read back, the wire is
within the limit, and with a correct signature it is accepted over every lower version. -/
def EquivalenceList.Accepted (idna : Idna) (c : Crypto) (publicKey : Bytes)
    (list : EquivalenceList) : Prop :=
  ∃ ctx, list.encodeCtx = .ok ctx ∧ decodeCtx idna ctx = .ok list ∧
    ∀ signature : Bytes, signature.length = signatureLen →
      ∃ wire, list.encodeSigned signature = .ok wire ∧ wire.length ≤ maxListLen ∧
        (verifyDetached c sigEquivalenceList ctx publicKey signature = .ok () →
          ∀ highest < list.listVersion, verify idna c wire publicKey highest = .ok list)

theorem verify_eq_ok {c : Crypto} {ctx signature publicKey : Bytes} {list : EquivalenceList}
    {highest : Fin (2 ^ 32)} (hlen : ctx.length + signatureLen ≤ maxListLen)
    (hsig : signature.length = signatureLen) (hctx : EquivalenceList.decodeCtx idna ctx = .ok list)
    (hverify : verifyDetached c sigEquivalenceList ctx publicKey signature = .ok ())
    (hnew : highest < list.listVersion) :
    EquivalenceList.verify idna c (ctx ++ signature) publicKey highest = .ok list := by
  have hwire : (ctx ++ signature).length = ctx.length + signatureLen := by
    rw [List.length_append, hsig]
  have hsplit : (ctx ++ signature).length - signatureLen = ctx.length := by omega
  have hshort : ¬ (ctx ++ signature).length < signatureLen := by omega
  have hlong : ¬ maxListLen < (ctx ++ signature).length := by omega
  simp only [EquivalenceList.verify, if_neg hlong, if_neg hshort, hsplit, List.take_left,
    List.drop_left, hctx, hverify]
  simp [bind, Except.bind, pure, Except.pure, Except.mapError, not_le.mpr hnew]

/-- What `Accepted` says of a list that fits its layout. -/
theorem accepted_iff {c : Crypto} {publicKey : Bytes} {list : EquivalenceList}
    (hcount : list.groups.length ≤ maxGroups) (hfits : ∀ group ∈ list.groups, group.Fits) :
    list.Accepted idna c publicKey ↔
      list.WellFormed idna ∧ (putList list).length + signatureLen ≤ maxListLen := by
  have henc := encodeCtx_eq hcount hfits
  have hsigned : ∀ signature, list.encodeSigned signature = .ok (putList list ++ signature) := by
    intro signature
    rw [EquivalenceList.encodeSigned, henc]
    rfl
  constructor
  · rintro ⟨ctx, hctx, hdec, hwire⟩
    rw [henc] at hctx
    cases hctx
    obtain ⟨wire, hw, hlen, -⟩ := hwire (List.replicate signatureLen 0) List.length_replicate
    rw [hsigned] at hw
    cases hw
    rw [List.length_append, List.length_replicate] at hlen
    exact ⟨(decodeCtx_eq_ok_iff.mp hdec).1, hlen⟩
  · rintro ⟨hwf, hlen⟩
    have hdec : EquivalenceList.decodeCtx idna (putList list) = .ok list :=
      decodeCtx_eq_ok_iff.mpr ⟨hwf, rfl⟩
    refine ⟨putList list, henc, hdec, fun signature hsig => ⟨_, hsigned signature, ?_, ?_⟩⟩
    · rw [List.length_append, hsig]
      exact hlen
    · intro hverify highest hnew
      exact verify_eq_ok hlen hsig hdec hverify hnew

/-- What the tool's list has of its sources. -/
theorem accepted_iff_sources {c : Crypto} {publicKey : Bytes} {sources : List GroupSource}
    {groups : List EquivalenceGroup} {listVersion : Fin (2 ^ 32)} {publishedAtMs : Fin (2 ^ 64)}
    {list : EquivalenceList} (hgroups : sources.mapM (GroupSource.build idna) = .ok groups)
    (hlist : EquivalenceList.new listVersion publishedAtMs groups = .ok list) :
    list.Accepted idna c publicKey ↔ (∀ source ∈ sources, source.Dotless idna) ∧
      80 + (sources.map (GroupSource.wireLen idna)).sum ≤ maxListLen := by
  obtain ⟨hversion, hperm, hcount, hasc⟩ := list_new_eq_ok hlist
  have hall : List.Forall₂ (BuiltFrom idna) sources groups :=
    (mapM_eq_ok_forall₂ hgroups).imp fun _ _ => builtFrom_of_build
  have hfits : ∀ group ∈ list.groups, group.Fits := by
    intro group hg
    obtain ⟨source, -, hs⟩ := mapM_eq_ok_mem hgroups group (hperm.mem_iff.mp hg)
    exact (builtFrom_of_build hs).fits
  have hlen : (putList list).length + signatureLen =
      80 + (sources.map (GroupSource.wireLen idna)).sum := by
    have hsum : (groups.map fun g => (putGroup g).length) = sources.map (GroupSource.wireLen idna) := by
      clear hgroups hlist hperm
      induction hall with
      | nil => rfl
      | cons hb _ ih => rw [List.map_cons, List.map_cons, ih, hb.length_putGroup]
    simp only [putList, List.length_append, length_beBytes, List.length_flatMap,
      (hperm.map _).sum_eq, hsum, signatureLen]
    omega
  have hwf : list.WellFormed idna ↔ ∀ source ∈ sources, source.Dotless idna := by
    have hmem : (∀ group ∈ groups, group.WellFormed idna) ↔
        ∀ source ∈ sources, source.Dotless idna := by
      clear hgroups hlist hperm hlen
      induction hall with
      | nil => simp
      | cons hb _ ih => rw [List.forall_mem_cons, List.forall_mem_cons, ih, hb.wellFormed_iff]
    rw [← hmem]
    constructor
    · intro h group hg
      exact h.groups group (hperm.mem_iff.mpr hg)
    · intro h
      exact ⟨hversion, hcount, hasc, fun group hg => h group (hperm.mem_iff.mp hg)⟩
  rw [accepted_iff hcount hfits, hwf, hlen]

/-! ### Samples -/

/-- The conversion on lower-case ASCII. -/
def lowerIdna : Idna where
  toAscii raw := if raw.toList.all fun c => c.toNat < 128 ∧ ¬ c.isUpper then some raw else none
  idempotent raw ascii h := by
    split_ifs at h with hc
    cases h
    exact if_pos hc
  stripDot_self raw ascii h := by
    split_ifs at h with hc
    cases h
    refine if_pos ?_
    unfold stripDot
    split_ifs
    · rw [String.toList_ofList]
      exact List.all_eq_true.mpr fun c hmem =>
        List.all_eq_true.mp hc c (List.mem_of_mem_dropLast hmem)
    · exact hc

/-- No signature is asked for. -/
def openCrypto : Crypto where
  sha256 := id
  isVerifyingKey _ := true
  verifyStrict _ _ _ := true

def plainSource : GroupSource := ⟨⟨1⟩, ["example.org", "example.com."], false⟩

def plainGroup : EquivalenceGroup := ⟨⟨1⟩, ["example.com", "example.org"], false⟩

def dottedSource : GroupSource := ⟨⟨1⟩, ["example.org", "example.com.."], false⟩

def dottedGroup : EquivalenceGroup := ⟨⟨1⟩, ["example.com.", "example.org"], false⟩

theorem plainSource_build : plainSource.build lowerIdna = .ok plainGroup := by decide

theorem dottedSource_build : dottedSource.build lowerIdna = .ok dottedGroup := by decide

theorem mapM_singleton {ε α γ : Type} {f : α → Except ε γ} {x : α} {y : γ} (h : f x = .ok y) :
    [x].mapM f = .ok [y] := by
  rw [List.mapM_cons, h]
  rfl

/-- The list of one group. -/
def listOf (group : EquivalenceGroup) : EquivalenceList := ⟨formatVersion, 1, 0, [group]⟩

/-! ### The list of the tool -/

/-- The list the tool builds is accepted exactly if no form of a given domain ends in a dot and the
groups fit the limit; what a client accepts is what the tool writes for it. -/
theorem built_list_accepted_iff (idna : Idna) (c : Crypto) (publicKey : Bytes)
    {sources : List GroupSource} {groups : List EquivalenceGroup} {listVersion : Fin (2 ^ 32)}
    {publishedAtMs : Fin (2 ^ 64)} {list : EquivalenceList}
    (hgroups : sources.mapM (GroupSource.build idna) = .ok groups)
    (hlist : EquivalenceList.new listVersion publishedAtMs groups = .ok list) :
    (list.Accepted idna c publicKey ↔ (∀ source ∈ sources, source.Dotless idna) ∧
      80 + (sources.map (GroupSource.wireLen idna)).sum ≤ maxListLen) ∧
    ∀ ctx accepted, EquivalenceList.decodeCtx idna ctx = .ok accepted →
      accepted.encodeCtx = .ok ctx := by
  refine ⟨accepted_iff_sources hgroups hlist, fun ctx accepted h => ?_⟩
  obtain ⟨hwf, rfl⟩ := decodeCtx_eq_ok_iff.mp h
  exact hwf.encodeCtx

theorem built_list_accepted_plain : (listOf plainGroup).Accepted lowerIdna openCrypto [] := by
  have hbuilt : [plainSource].mapM (GroupSource.build lowerIdna) = .ok [plainGroup] :=
    mapM_singleton plainSource_build
  have hnew : EquivalenceList.new 1 0 [plainGroup] = .ok (listOf plainGroup) := rfl
  refine (built_list_accepted_iff lowerIdna openCrypto [] hbuilt hnew).1.mpr ⟨?_, ?_⟩
  · have hcom : normalizeDomain lowerIdna "example.com." = .ok "example.com" := by decide
    have horg : normalizeDomain lowerIdna "example.org" = .ok "example.org" := by decide
    intro source hs d hd form hform
    rw [List.mem_singleton.mp hs] at hd
    rcases List.mem_pair.mp hd with rfl | rfl
    · rw [horg] at hform
      cases hform
      decide
    · rw [hcom] at hform
      cases hform
      decide
  · decide

/-- A domain that ends in two dots is stored with one, and no client accepts the list. -/
theorem dotted_list_refused : ¬ ∀ (idna : Idna) (c : Crypto) (publicKey : Bytes)
    (sources : List GroupSource) (groups : List EquivalenceGroup) (listVersion : Fin (2 ^ 32))
    (publishedAtMs : Fin (2 ^ 64)) (list : EquivalenceList),
    sources.mapM (GroupSource.build idna) = .ok groups →
      EquivalenceList.new listVersion publishedAtMs groups = .ok list →
        list.Accepted idna c publicKey := by
  intro h
  have hbuilt : [dottedSource].mapM (GroupSource.build lowerIdna) = .ok [dottedGroup] :=
    mapM_singleton dottedSource_build
  have hnew : EquivalenceList.new 1 0 [dottedGroup] = .ok (listOf dottedGroup) := rfl
  have haccepted := h lowerIdna openCrypto [] _ _ _ _ _ hbuilt hnew
  have hdot := ((accepted_iff_sources hbuilt hnew).mp haccepted).1 dottedSource
    (List.mem_singleton.mpr rfl)
  have hform : normalizeDomain lowerIdna "example.com.." = .ok "example.com." := by decide
  have hmem : "example.com.." ∈ dottedSource.domains := by decide
  have hlast : ("example.com." : String).toList.getLast? = some '.' := by decide
  exact hdot _ hmem _ hform hlast

end RizzyVault.Match
