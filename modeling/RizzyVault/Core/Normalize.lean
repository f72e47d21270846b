import RizzyVault.Core.FieldKey
import RizzyVault.Lib.Decimal
import RizzyVault.Lib.Result
import RizzyVault.Lib.Split

/-!
# Server origins

An origin names a server by its scheme, host and port. Many texts spell one server; the parser
writes all of them as one canonical text, which is bound into the login transcript.

## Main definitions

* `IpText`: IP addresses and their texts.
* `ServerOrigin`, `ServerOrigin.parse`.
* `Target`: a scheme, a host and a port; `Target.origin`: its canonical text.
* `Spells`: a text spells a target.

## Main results

* `parse_eq_ok_iff`: the parser accepts exactly the spellings, and writes the canonical text.
* `origin_injective`: a canonical text has one target.
* `origins_canonical`.

## References

* `crates/rizzy-core/src/normalize.rs`.
-/

open RizzyVault.Lib

namespace RizzyVault.Core

/-- IP addresses as the standard library reads and writes them. What it writes it reads back, and an
IPv6 address is written in hex digits, colons and dots, 45 of them at most. -/
structure IpText where
  V4 : Type
  V6 : Type
  parse4 : Bytes → Option V4
  display4 : V4 → Bytes
  parse6 : Bytes → Option V6
  display6 : V6 → Bytes
  isIpv4Mapped : V6 → Bool
  parse_display6 : ∀ a, parse6 (display6 a) = some a
  display6_letters : ∀ a, ∀ b ∈ display6 a, isLowerHex b ∨ b = ascii ':' ∨ b = ascii '.'
  display6_length : ∀ a, (display6 a).length ≤ 45

inductive Scheme
  | https
  | http
  deriving DecidableEq

namespace Scheme

def asStr : Scheme → Bytes
  | https => asciiBytes ['h', 't', 't', 'p', 's']
  | http => asciiBytes ['h', 't', 't', 'p']

def defaultPort : Scheme → ℕ
  | https => 443
  | http => 80

end Scheme

def hostMaxLen : ℕ := 253

def originInputMaxLen : ℕ := 512

/-- Why an origin was rejected. -/
inductive NormalizeError
  | originSyntax
  | originScheme
  | originComponent
  | originHost
  | originPort
  deriving DecidableEq

def lowercaseByte (b : Byte) : Byte :=
  if ascii 'A' ≤ b ∧ b ≤ ascii 'Z' then Fin.ofNat 256 (b.val + 32) else b

def toAsciiLowercase (text : Bytes) : Bytes := text.map lowercaseByte

/-- Whether a label is decimal digits, or `0x` followed by hex digits. -/
def isNumericLabel (label : Bytes) : Bool :=
  (!label.isEmpty && label.all isDigit) ||
    match label with
    | b :: c :: hex =>
      b = ascii '0' && c = ascii 'x' &&
        hex.all fun b => isLowerHex b || (ascii 'A' ≤ b ∧ b ≤ ascii 'F' : Bool)
    | _ => false

/-- A lowercase label of 1 to 63 letters, digits and hyphens, without a hyphen at either end. -/
def isDnsLabel (label : Bytes) : Bool :=
  (1 ≤ label.length ∧ label.length ≤ 63 : Bool) && label.head? ≠ some (ascii '-') &&
    label.getLast? ≠ some (ascii '-') &&
    label.all fun b => isAsciiLowercase b || isDigit b || b = ascii '-'

/-- Splits `host[:port]` or `[v6][:port]`; the host keeps its brackets. -/
def splitHostPort (authority : Bytes) : Except NormalizeError (Bytes × Option Bytes) :=
  if authority.head? = some (ascii '[') then
    match splitOnce [ascii ']'] authority with
    | none => .error .originHost
    | some (inner, after) =>
      match after with
      | [] => .ok (inner ++ [ascii ']'], none)
      | b :: port => if b = ascii ':' then .ok (inner ++ [ascii ']'], some port) else .error .originHost
  else
    match splitOnce [ascii ':'] authority with
    | some (host, port) => if ascii ':' ∈ port then .error .originHost else .ok (host, some port)
    | none => .ok (authority, none)

def parsePort (text : Bytes) : Except NormalizeError ℕ :=
  let digitsOnly := !text.isEmpty && text.all isDigit
  if !digitsOnly || text.head? = some (ascii '0') || 5 < text.length then .error .originPort
  else if ofDecimal text < 2 ^ 16 then .ok (ofDecimal text)
  else .error .originPort

/-- A host that is not bracketed, in lowercase: a dotted quad or a DNS name. -/
def canonicalName (ip : IpText) (host : Bytes) : Except NormalizeError Bytes :=
  let host := toAsciiLowercase host
  if host.isEmpty || hostMaxLen < host.length then .error .originHost
  else
    let labels := host.splitOn (ascii '.')
    if isNumericLabel (labels.getLast?.getD []) then
      match ip.parse4 host with
      | none => .error .originHost
      | some addr => if ip.display4 addr = host then .ok host else .error .originHost
    else if labels.all isDnsLabel then .ok host
    else .error .originHost

/-- The address of the text between the brackets, as it is written. -/
def canonicalV6 (ip : IpText) (inner : Bytes) : Except NormalizeError Bytes :=
  match ip.parse6 inner with
  | none => .error .originHost
  | some addr =>
    if ip.isIpv4Mapped addr then .error .originHost
    else .ok (ascii '[' :: ip.display6 addr ++ [ascii ']'])

/-- The canonical host. -/
def canonicalHost (ip : IpText) (host : Bytes) : Except NormalizeError Bytes :=
  if host.head? = some (ascii '[') then
    if host.tail.getLast? = some (ascii ']') then canonicalV6 ip host.tail.dropLast
    else .error .originHost
  else canonicalName ip host

/-- A canonical origin, with its scheme. -/
structure ServerOrigin where
  text : Bytes
  scheme : Scheme
  deriving DecidableEq

def schemeSeparator : Bytes := asciiBytes [':', '/', '/']

/-- Whether a byte ends the authority. -/
def endsAuthority (b : Byte) : Bool := b = ascii '/' || b = ascii '?' || b = ascii '#'

def parseScheme (text : Bytes) : Except NormalizeError Scheme :=
  if toAsciiLowercase text = Scheme.https.asStr then .ok .https
  else if toAsciiLowercase text = Scheme.http.asStr then .ok .http
  else .error .originScheme

/-- A port as it is written: the default one is dropped. -/
def writtenPort (scheme : Scheme) (port : Option ℕ) : Bytes :=
  match port.filter (· ≠ scheme.defaultPort) with
  | some port => ascii ':' :: decimal port
  | none => []

/-- Parses and canonicalises an origin. -/
def ServerOrigin.parse (ip : IpText) (input : Bytes) : Except NormalizeError ServerOrigin :=
  if originInputMaxLen < input.length || !input.all fun b => b.val < 128 then .error .originSyntax
  else
    match splitOnce schemeSeparator input with
    | none => .error .originSyntax
    | some (schemeText, rest) => do
      let scheme ← parseScheme schemeText
      let authority := rest.takeWhile fun b => !endsAuthority b
      let tail := rest.dropWhile fun b => !endsAuthority b
      if tail ≠ [] ∧ tail ≠ [ascii '/'] then .error .originComponent
      else if ascii '@' ∈ authority then .error .originComponent
      else
        let (host, port) ← splitHostPort authority
        let host ← canonicalHost ip host
        let port ← port.mapM parsePort
        return ⟨scheme.asStr ++ schemeSeparator ++ host ++ writtenPort scheme port, scheme⟩

/-! ### Letter case -/

theorem val_lowercaseByte (b : Byte) :
    (lowercaseByte b).val = if 65 ≤ b.val ∧ b.val ≤ 90 then b.val + 32 else b.val := by
  have hiff : ascii 'A' ≤ b ∧ b ≤ ascii 'Z' ↔ 65 ≤ b.val ∧ b.val ≤ 90 := Iff.rfl
  unfold lowercaseByte
  simp only [hiff]
  split_ifs with hb
  · exact Nat.mod_eq_of_lt (by omega)
  · rfl

/-- Letters without case, by their number. -/
def Caseless (c : Byte) : Prop := c.val < 65 ∨ 90 < c.val ∧ c.val < 97 ∨ 122 < c.val

instance : DecidablePred Caseless := fun c => by unfold Caseless; infer_instance

theorem lowercaseByte_eq_iff {b c : Byte} (hc : Caseless c) : lowercaseByte b = c ↔ b = c := by
  unfold Caseless at hc
  rw [Fin.ext_iff, val_lowercaseByte, Fin.ext_iff]
  split_ifs <;> omega

theorem lowercaseByte_idem (b : Byte) : lowercaseByte (lowercaseByte b) = lowercaseByte b := by
  rw [Fin.ext_iff, val_lowercaseByte, val_lowercaseByte]
  split_ifs <;> omega

theorem lowercaseByte_lt {b : Byte} (hb : b.val < 128) : (lowercaseByte b).val < 128 := by
  rw [val_lowercaseByte]
  split_ifs <;> omega

theorem toAsciiLowercase_idem (text : Bytes) :
    toAsciiLowercase (toAsciiLowercase text) = toAsciiLowercase text := by
  unfold toAsciiLowercase
  rw [List.map_map]
  exact List.map_congr_left fun b _ => lowercaseByte_idem b

/-- A letter without case occurs in a text if and only if it does in lowercase. -/
theorem mem_toAsciiLowercase_iff {text : Bytes} {c : Byte} (hc : Caseless c) :
    c ∈ toAsciiLowercase text ↔ c ∈ text := by
  unfold toAsciiLowercase
  rw [List.mem_map]
  constructor
  · rintro ⟨b, hb, hbc⟩
    rwa [← (lowercaseByte_eq_iff hc).mp hbc]
  · exact fun h => ⟨c, h, (lowercaseByte_eq_iff hc).mpr rfl⟩

/-! ### Targets and their spellings -/

/-- A host: a name in lowercase (or a dotted quad), or an IPv6 address. -/
inductive Host (ip : IpText)
  | name (text : Bytes)
  | v6 (addr : ip.V6)

def Host.text {ip : IpText} : Host ip → Bytes
  | name text => text
  | v6 addr => ascii '[' :: ip.display6 addr ++ [ascii ']']

/-- What an origin names. -/
structure Target (ip : IpText) where
  scheme : Scheme
  host : Host ip
  port : ℕ

/-- The canonical text of a port. -/
def portText (scheme : Scheme) (port : ℕ) : Bytes :=
  if port = scheme.defaultPort then [] else ascii ':' :: decimal port

def Target.origin {ip : IpText} (t : Target ip) : ServerOrigin :=
  ⟨t.scheme.asStr ++ schemeSeparator ++ t.host.text ++ portText t.scheme t.port, t.scheme⟩

variable {ip : IpText}

/-- A host name in lowercase that is a canonical dotted quad if its last label is numeric, and a DNS
name otherwise. -/
def ValidName (ip : IpText) (name : Bytes) : Prop :=
  name ≠ [] ∧ name.length ≤ hostMaxLen ∧
    if isNumericLabel ((name.splitOn (ascii '.')).getLast?.getD []) then
      ∃ addr, ip.parse4 name = some addr ∧ ip.display4 addr = name
    else ∀ label ∈ name.splitOn (ascii '.'), isDnsLabel label = true

/-- The texts of a host: a name in any case, or a bracketed IPv6 address. -/
inductive SpellsHost (ip : IpText) : Bytes → Host ip → Prop
  | name (text : Bytes) : ValidName ip (toAsciiLowercase text) → ascii ':' ∉ text →
    text.head? ≠ some (ascii '[') → SpellsHost ip text (.name (toAsciiLowercase text))
  | v6 (inner : Bytes) (addr : ip.V6) : ip.parse6 inner = some addr → ip.isIpv4Mapped addr = false →
    ascii ']' ∉ inner → SpellsHost ip (ascii '[' :: inner ++ [ascii ']']) (.v6 addr)

/-- The texts of a port: none for the default one, or a colon and plain digits. -/
inductive SpellsPort : Bytes → Option ℕ → Prop
  | absent : SpellsPort [] none
  | explicit (port : ℕ) : 1 ≤ port → port < 2 ^ 16 → SpellsPort (ascii ':' :: decimal port) (some port)

/-- The texts of a target: its scheme in any case, its host and port, and one slash or none. -/
def Spells (ip : IpText) (input : Bytes) (t : Target ip) : Prop :=
  ∃ s host port slash, input = s ++ schemeSeparator ++ (host ++ port) ++ slash ∧
    toAsciiLowercase s = t.scheme.asStr ∧ SpellsHost ip host t.host ∧
    (∃ p, SpellsPort port p ∧ t.port = p.getD t.scheme.defaultPort) ∧
    (slash = [] ∨ slash = [ascii '/']) ∧
    ∀ b ∈ host ++ port, endsAuthority b = false ∧ b ≠ ascii '@'

theorem parsePort_eq_ok_iff {text : Bytes} {port : ℕ} :
    parsePort text = .ok port ↔ text = decimal port ∧ 1 ≤ port ∧ port < 2 ^ 16 := by
  unfold parsePort
  constructor
  · intro h
    dsimp only at h
    split_ifs at h with hbad hlt
    cases h
    simp only [Bool.or_eq_true, not_or, Bool.not_eq_true', Bool.not_eq_false, Bool.and_eq_true,
      List.isEmpty_eq_false_iff, decide_eq_true_eq] at hbad
    obtain ⟨⟨⟨hne, hdigits⟩, hzero⟩, -⟩ := hbad
    have hplain : IsDecimal text :=
      ⟨hne, List.all_eq_true.mp hdigits, fun h => absurd h hzero⟩
    have htext := decimal_ofDecimal hplain
    refine ⟨htext.symm, Nat.one_le_iff_ne_zero.mpr fun hz => ?_, hlt⟩
    rw [hz] at htext
    exact hzero (htext ▸ rfl)
  · rintro ⟨rfl, hpos, hlt⟩
    have hne : (decimal port).isEmpty = false := by
      rw [List.isEmpty_eq_false_iff]
      exact decimal_ne_nil port
    have hall : (decimal port).all isDigit = true := List.all_eq_true.mpr (isDigit_of_mem_decimal port)
    have hhead : (decimal port).head? ≠ some (ascii '0') := head?_decimal hpos
    have hlen : ¬ 5 < (decimal port).length :=
      Nat.not_lt.mpr (length_decimal_le (by decide) (by omega))
    rw [ofDecimal_decimal, if_neg, if_pos hlt]
    simp only [hne, hall, hhead, hlen]
    decide

theorem canonicalName_eq_ok_iff {host name : Bytes} :
    canonicalName ip host = .ok name ↔ name = toAsciiLowercase host ∧ ValidName ip name := by
  unfold canonicalName ValidName
  generalize toAsciiLowercase host = lower
  dsimp only
  constructor
  · intro h
    split_ifs at h with hlen hnumeric hall
    all_goals
      simp only [Bool.or_eq_true, not_or, Bool.not_eq_true, List.isEmpty_eq_false_iff,
        decide_eq_true_eq, Nat.not_lt] at hlen
    · split at h
      · cases h
      · rename_i addr haddr
        split_ifs at h with hdisplay
        cases h
        rw [if_pos hnumeric]
        exact ⟨rfl, hlen.1, hlen.2, addr, haddr, hdisplay⟩
    · cases h
      rw [if_neg hnumeric]
      exact ⟨rfl, hlen.1, hlen.2, List.all_eq_true.mp hall⟩
  · rintro ⟨rfl, hne, hlen, hvalid⟩
    rw [if_neg]
    · split_ifs at hvalid ⊢ with hnumeric hall
      · obtain ⟨addr, haddr, hdisplay⟩ := hvalid
        rw [haddr]
        exact if_pos hdisplay
      · rfl
      · exact absurd (List.all_eq_true.mpr hvalid) hall
    · simp only [Bool.or_eq_true, not_or, Bool.not_eq_true, List.isEmpty_eq_false_iff,
        decide_eq_true_eq, Nat.not_lt]
      exact ⟨hne, hlen⟩

theorem canonicalV6_eq_ok_iff {inner text : Bytes} : canonicalV6 ip inner = .ok text ↔
    ∃ addr, ip.parse6 inner = some addr ∧ ip.isIpv4Mapped addr = false ∧
      text = (Host.v6 addr : Host ip).text := by
  unfold canonicalV6
  constructor
  · intro h
    split at h
    · cases h
    · rename_i addr haddr
      split_ifs at h with hmapped
      cases h
      exact ⟨addr, haddr, Bool.eq_false_of_not_eq_true hmapped, rfl⟩
  · rintro ⟨addr, haddr, hmapped, rfl⟩
    rw [haddr]
    exact if_neg (by rw [hmapped]; exact Bool.false_ne_true)

/-- A port as it follows the host. -/
def portSuffix : Option Bytes → Bytes
  | none => []
  | some text => ascii ':' :: text

theorem mapM_parsePort_eq_ok_iff {port : Option Bytes} {p : Option ℕ} :
    port.mapM parsePort = .ok p ↔ SpellsPort (portSuffix port) p := by
  cases port with
  | none =>
    constructor
    · intro h
      cases h
      exact .absent
    · intro h
      cases h
      rfl
  | some text =>
    have hmap : (some text).mapM parsePort = (parsePort text).map some := rfl
    rw [hmap, except_map_eq_ok]
    constructor
    · rintro ⟨q, hq, rfl⟩
      obtain ⟨rfl, hpos, hlt⟩ := parsePort_eq_ok_iff.mp hq
      exact .explicit q hpos hlt
    · intro h
      cases h with
      | explicit q hpos hlt => exact ⟨q, parsePort_eq_ok_iff.mpr ⟨rfl, hpos, hlt⟩, rfl⟩

/-- The two shapes of an authority. -/
theorem splitHostPort_eq_ok_iff {authority host : Bytes} {port : Option Bytes} :
    splitHostPort authority = .ok (host, port) ↔ authority = host ++ portSuffix port ∧
      ((∃ inner, host = ascii '[' :: inner ++ [ascii ']'] ∧ ascii ']' ∉ inner) ∨
        (host.head? ≠ some (ascii '[') ∧ ascii ':' ∉ host ∧ ∀ text ∈ port, ascii ':' ∉ text)) := by
  unfold splitHostPort
  constructor
  · intro h
    split_ifs at h with hbracket
    · split at h
      · cases h
      · rename_i inner after hsplit
        obtain ⟨hauthority, hinner⟩ := splitOnce_singleton_iff.mp hsplit
        have hshape : ∃ inner', inner ++ [ascii ']'] = ascii '[' :: inner' ++ [ascii ']'] ∧
            ascii ']' ∉ inner' := by
          cases inner with
          | nil =>
            rw [hauthority] at hbracket
            exact absurd (Option.some.inj hbracket) (by decide)
          | cons c inner =>
            rw [hauthority] at hbracket
            rw [Option.some.inj hbracket]
            exact ⟨inner, rfl, (List.ne_and_not_mem_of_not_mem_cons hinner).2⟩
        split at h
        · cases h
          exact ⟨by rw [hauthority]; simp [portSuffix], .inl hshape⟩
        · split_ifs at h with hcolon
          cases h
          exact ⟨by rw [hauthority, hcolon]; simp [portSuffix], .inl hshape⟩
    · split at h
      · rename_i host' port' hsplit
        obtain ⟨hauthority, hhost⟩ := splitOnce_singleton_iff.mp hsplit
        split_ifs at h with hcolon
        cases h
        refine ⟨hauthority, .inr ⟨fun hhead => hbracket ?_, hhost, fun text ht => ?_⟩⟩
        · rw [hauthority, List.head?_append_of_ne_nil _ (by rintro rfl; cases hhead), hhead]
        · cases ht
          exact hcolon
      · rename_i hsplit
        cases h
        exact ⟨(List.append_nil _).symm, .inr ⟨hbracket, splitOnce_singleton_none.mp hsplit,
          fun text ht => by cases ht⟩⟩
  · rintro ⟨rfl, ⟨inner, rfl, hinner⟩ | ⟨hhead, hhost, hport⟩⟩
    · have hmem : ascii ']' ∉ ascii '[' :: inner := by
        rw [List.mem_cons, not_or]
        exact ⟨by decide, hinner⟩
      have hsplit : splitOnce [ascii ']'] (ascii '[' :: inner ++ [ascii ']'] ++ portSuffix port) =
          some (ascii '[' :: inner, portSuffix port) := splitOnce_append hmem
      have hbracket : (ascii '[' :: inner ++ [ascii ']'] ++ portSuffix port).head? =
          some (ascii '[') := rfl
      rw [if_pos hbracket, hsplit]
      cases port with
      | none => rfl
      | some text => exact if_pos rfl
    · cases port with
      | none =>
        rw [portSuffix, List.append_nil, if_neg hhead, splitOnce_singleton_none.mpr hhost]
      | some text =>
        have hbracket : (host ++ portSuffix (some text)).head? ≠ some (ascii '[') := by
          cases host with
          | nil => exact fun h => absurd (Option.some.inj h) (by decide)
          | cons c host => exact hhead
        rw [if_neg hbracket, portSuffix, splitOnce_singleton_iff.mpr ⟨rfl, hhost⟩]
        exact if_neg (hport text rfl)

theorem canonicalHost_bracket {inner text : Bytes} :
    canonicalHost ip (ascii '[' :: inner ++ [ascii ']']) = .ok text ↔
      ∃ addr, ip.parse6 inner = some addr ∧ ip.isIpv4Mapped addr = false ∧
        text = (Host.v6 addr : Host ip).text := by
  rw [← canonicalV6_eq_ok_iff, canonicalHost]
  have hhead : (ascii '[' :: inner ++ [ascii ']']).head? = some (ascii '[') := rfl
  have htail : (ascii '[' :: inner ++ [ascii ']']).tail = inner ++ [ascii ']'] := rfl
  rw [if_pos hhead, htail, if_pos List.getLast?_concat, List.dropLast_concat]

/-- The host and the port of an authority, together. -/
theorem hostPort_eq_ok_iff {authority text : Bytes} {p : Option ℕ} :
    (∃ host port, splitHostPort authority = .ok (host, port) ∧ canonicalHost ip host = .ok text ∧
      port.mapM parsePort = .ok p) ↔
    ∃ host port, ∃ h : Host ip, authority = host ++ port ∧ SpellsHost ip host h ∧ text = h.text ∧
      SpellsPort port p := by
  constructor
  · rintro ⟨host, port, hsplit, hhost, hport⟩
    obtain ⟨rfl, ⟨inner, rfl, hinner⟩ | ⟨hhead, hcolon, -⟩⟩ := splitHostPort_eq_ok_iff.mp hsplit
    · obtain ⟨addr, haddr, hmapped, rfl⟩ := canonicalHost_bracket.mp hhost
      exact ⟨_, _, .v6 addr, rfl, .v6 inner addr haddr hmapped hinner, rfl,
        mapM_parsePort_eq_ok_iff.mp hport⟩
    · rw [canonicalHost, if_neg hhead, canonicalName_eq_ok_iff] at hhost
      obtain ⟨rfl, hvalid⟩ := hhost
      exact ⟨_, _, .name _, rfl, .name host hvalid hcolon hhead, rfl,
        mapM_parsePort_eq_ok_iff.mp hport⟩
  · rintro ⟨host, port, h, rfl, hhost, rfl, hport⟩
    obtain ⟨port', rfl, hcolon⟩ : ∃ port', port = portSuffix port' ∧
        ∀ text ∈ port', ascii ':' ∉ text := by
      cases hport with
      | absent => exact ⟨none, rfl, fun text ht => by cases ht⟩
      | explicit q hpos hlt =>
        refine ⟨some (decimal q), rfl, fun text ht hmem => ?_⟩
        cases ht
        exact absurd (isDigit_of_mem_decimal q _ hmem) (by decide)
    refine ⟨host, port', ?_, ?_, mapM_parsePort_eq_ok_iff.mpr hport⟩
    · rw [splitHostPort_eq_ok_iff]
      cases hhost with
      | name _ hvalid hhost hhead => exact ⟨rfl, .inr ⟨hhead, hhost, hcolon⟩⟩
      | v6 inner addr haddr hmapped hinner => exact ⟨rfl, .inl ⟨inner, rfl, hinner⟩⟩
    · cases hhost with
      | name _ hvalid hhost hhead =>
        rw [canonicalHost, if_neg hhead, canonicalName_eq_ok_iff]
        exact ⟨rfl, hvalid⟩
      | v6 inner addr haddr hmapped hinner =>
        exact canonicalHost_bracket.mpr ⟨addr, haddr, hmapped, rfl⟩

theorem parseScheme_eq_ok_iff {text : Bytes} {scheme : Scheme} :
    parseScheme text = .ok scheme ↔ toAsciiLowercase text = scheme.asStr := by
  unfold parseScheme
  constructor
  · intro h
    split_ifs at h with hhttps hhttp
    · cases h
      exact hhttps
    · cases h
      exact hhttp
  · intro h
    rw [h]
    cases scheme <;> rfl

theorem colon_notMem_of_scheme {text : Bytes} {scheme : Scheme}
    (h : toAsciiLowercase text = scheme.asStr) : ascii ':' ∉ text := by
  rw [← mem_toAsciiLowercase_iff (by decide), h]
  cases scheme <;> decide

theorem writtenPort_eq (scheme : Scheme) (p : Option ℕ) :
    writtenPort scheme p = portText scheme (p.getD scheme.defaultPort) := by
  unfold writtenPort portText
  cases p with
  | none => exact (if_pos rfl).symm
  | some port =>
    rw [Option.filter_some, Option.getD_some]
    split_ifs <;> simp_all

/-- The parser accepts exactly the spellings of a target, and writes its canonical text. -/
theorem parse_eq_ok_iff {input : Bytes} {o : ServerOrigin} :
    ServerOrigin.parse ip input = .ok o ↔ input.length ≤ originInputMaxLen ∧
      (∀ b ∈ input, b.val < 128) ∧ ∃ t : Target ip, Spells ip input t ∧ o = t.origin := by
  have hlimits : (originInputMaxLen < input.length || !input.all fun b => b.val < 128) = false ↔
      input.length ≤ originInputMaxLen ∧ ∀ b ∈ input, b.val < 128 := by
    simp
  unfold ServerOrigin.parse
  constructor
  · intro h
    split_ifs at h with hlen
    obtain ⟨hshort, hascii⟩ := hlimits.mp (Bool.eq_false_of_not_eq_true hlen)
    refine ⟨hshort, hascii, ?_⟩
    split at h
    · cases h
    · rename_i s rest hsplit
      obtain ⟨scheme, hscheme, h₁⟩ := except_bind_eq_ok.mp h
      dsimp only at h₁
      split_ifs at h₁ with htail huser
      obtain ⟨⟨host, port⟩, hhost, h₂⟩ := except_bind_eq_ok.mp h₁
      obtain ⟨text, htext, h₃⟩ := except_bind_eq_ok.mp h₂
      obtain ⟨p, hp, h₄⟩ := except_bind_eq_ok.mp h₃
      obtain ⟨hostText, portText, th, hauthority, hspells, rfl, hport⟩ :=
        hostPort_eq_ok_iff.mp ⟨host, port, hhost, htext, hp⟩
      cases h₄
      refine ⟨⟨scheme, th, p.getD scheme.defaultPort⟩,
        ⟨s, hostText, portText, rest.dropWhile fun b => !endsAuthority b, ?_,
          parseScheme_eq_ok_iff.mp hscheme, hspells, ⟨p, hport, rfl⟩, ?_, fun b hb => ?_⟩, ?_⟩
      · rw [← hauthority, List.append_assoc, List.takeWhile_append_dropWhile]
        exact splitOnce_eq_some hsplit
      · rwa [not_and_or, not_not, not_not] at htail
      · rw [← hauthority] at hb
        have hkeep := List.all_eq_true.mp (List.all_takeWhile (p := fun b => !endsAuthority b)) b hb
        exact ⟨(Bool.not_eq_true' _).mp hkeep, fun heq => huser (heq ▸ hb)⟩
      · rw [writtenPort_eq]
        rfl
  · rintro ⟨hshort, hascii, t, ⟨s, host, port, slash, rfl, hs, hhost, ⟨p, hport, ht⟩, hslash, hclean⟩, rfl⟩
    rw [if_neg (by rw [hlimits.mpr ⟨hshort, hascii⟩]; exact Bool.false_ne_true)]
    have hsplit : splitOnce schemeSeparator (s ++ schemeSeparator ++ (host ++ port) ++ slash) =
        some (s, host ++ port ++ slash) := by
      rw [List.append_assoc]
      exact splitOnce_append (colon_notMem_of_scheme hs)
    have hall : ∀ b ∈ host ++ port, (!endsAuthority b) = true := fun b hb => by
      rw [(hclean b hb).1]
      rfl
    have hstop : ∀ b ∈ slash.head?, (!endsAuthority b) = false := by
      rcases hslash with rfl | rfl
      · exact fun b hb => by cases hb
      · exact fun b hb => by cases hb; rfl
    have htail : ¬ (slash ≠ [] ∧ slash ≠ [ascii '/']) := by
      rw [not_and_or, not_not, not_not]
      exact hslash
    obtain ⟨hostText, portText', hsplit', hcanonical, hp⟩ :=
      hostPort_eq_ok_iff.mpr ⟨host, port, t.host, rfl, hhost, rfl, hport⟩
    rw [hsplit]
    dsimp only
    rw [takeWhile_append_of_stop hall hstop, dropWhile_append_of_stop hall hstop]
    refine except_bind_eq_ok.mpr ⟨t.scheme, parseScheme_eq_ok_iff.mpr hs, ?_⟩
    rw [if_neg htail, if_neg fun hmem => (hclean _ hmem).2 rfl]
    refine except_bind_eq_ok.mpr ⟨_, hsplit', except_bind_eq_ok.mpr ⟨_, hcanonical,
      except_bind_eq_ok.mpr ⟨_, hp, ?_⟩⟩⟩
    rw [writtenPort_eq, ← ht]
    rfl

/-! ### Canonical texts -/

/-- A letter that can stand in the host and port of an origin. -/
def Plain (b : Byte) : Prop := b.val < 128 ∧ endsAuthority b = false ∧ b ≠ ascii '@'

instance : DecidablePred Plain := fun b => by unfold Plain; infer_instance

theorem plain_iff {b : Byte} : Plain b ↔
    b.val < 128 ∧ b.val ≠ 47 ∧ b.val ≠ 63 ∧ b.val ≠ 35 ∧ b.val ≠ 64 := by
  have hslash : b = ascii '/' ↔ b.val = 47 := Fin.ext_iff
  have hquery : b = ascii '?' ↔ b.val = 63 := Fin.ext_iff
  have hhash : b = ascii '#' ↔ b.val = 35 := Fin.ext_iff
  have hat : b = ascii '@' ↔ b.val = 64 := Fin.ext_iff
  unfold Plain endsAuthority
  simp only [hslash, hquery, hhash, hat, ne_eq, Bool.or_eq_false_iff, decide_eq_false_iff_not,
    and_assoc]

theorem plain_lowercaseByte {b : Byte} (h : Plain b) : Plain (lowercaseByte b) := by
  rw [plain_iff] at h ⊢
  rw [val_lowercaseByte]
  split_ifs <;> omega

theorem plain_of_isDigit {b : Byte} (h : isDigit b = true) : Plain b := by
  rw [isDigit_iff] at h
  rw [plain_iff]
  omega

theorem plain_display6 (addr : ip.V6) : ∀ b ∈ ip.display6 addr, Plain b ∧ b ≠ ascii ']' := by
  intro b hb
  have hbracket : b ≠ ascii ']' ↔ b.val ≠ 93 := not_congr Fin.ext_iff
  rw [plain_iff, hbracket]
  rcases ip.display6_letters addr b hb with hhex | rfl | rfl
  · have hhex' : (48 ≤ b.val ∧ b.val ≤ 57) ∨ 97 ≤ b.val ∧ b.val ≤ 102 := by
      rw [isLowerHex, isAsciiDigit, Bool.or_eq_true, decide_eq_true_eq, decide_eq_true_eq] at hhex
      exact hhex
    omega
  · decide
  · decide

theorem plain_portText (scheme : Scheme) (port : ℕ) : ∀ b ∈ portText scheme port, Plain b := by
  intro b hb
  unfold portText at hb
  split_ifs at hb
  · cases hb
  · rcases List.mem_cons.mp hb with rfl | hb
    · decide
    · exact plain_of_isDigit (isDigit_of_mem_decimal port b hb)

variable {host : Bytes} {h : Host ip}

theorem head?_toAsciiLowercase {c : Byte} (hc : Caseless c) (hhead : host.head? ≠ some c) :
    (toAsciiLowercase host).head? ≠ some c := by
  intro hlower
  cases host with
  | nil => cases hlower
  | cons b host =>
    have hb : lowercaseByte b = c := Option.some.inj hlower
    exact hhead (congrArg some ((lowercaseByte_eq_iff hc).mp hb))

theorem SpellsHost.canonical (hs : SpellsHost ip host h) : SpellsHost ip h.text h := by
  cases hs with
  | name _ hvalid hcolon hhead =>
    have hname := @SpellsHost.name ip (toAsciiLowercase host)
    rw [toAsciiLowercase_idem] at hname
    refine hname hvalid ?_ (head?_toAsciiLowercase (by decide) hhead)
    rwa [mem_toAsciiLowercase_iff (by decide)]
  | v6 inner addr haddr hmapped hinner =>
    exact .v6 (ip.display6 addr) addr (ip.parse_display6 addr) hmapped fun hmem =>
      (plain_display6 addr _ hmem).2 rfl

theorem SpellsHost.plain (hs : SpellsHost ip host h) (hhost : ∀ b ∈ host, Plain b) :
    ∀ b ∈ h.text, Plain b := by
  cases hs with
  | name _ hvalid hcolon hhead =>
    intro b hb
    obtain ⟨c, hc, rfl⟩ := List.mem_map.mp hb
    exact plain_lowercaseByte (hhost c hc)
  | v6 inner addr haddr hmapped hinner =>
    intro b hb
    rcases List.mem_append.mp hb with hb | hb
    · rcases List.mem_cons.mp hb with rfl | hb
      · decide
      · exact (plain_display6 addr b hb).1
    · rw [List.mem_singleton.mp hb]
      decide

theorem SpellsHost.shape (hs : SpellsHost ip host h) :
    (∃ inner, host = ascii '[' :: inner ++ [ascii ']'] ∧ ascii ']' ∉ inner) ∨
      host.head? ≠ some (ascii '[') ∧ ascii ':' ∉ host := by
  cases hs with
  | name _ hvalid hcolon hhead => exact .inr ⟨hhead, hcolon⟩
  | v6 inner addr haddr hmapped hinner => exact .inl ⟨inner, rfl, hinner⟩

theorem SpellsHost.length_text_le (hs : SpellsHost ip host h) : h.text.length ≤ 253 := by
  cases hs with
  | name _ hvalid hcolon hhead => exact hvalid.2.1
  | v6 inner addr haddr hmapped hinner =>
    have hlen := ip.display6_length addr
    show (ascii '[' :: ip.display6 addr ++ [ascii ']']).length ≤ 253
    rw [List.length_append, List.length_cons, List.length_singleton]
    omega

theorem length_portText_le {scheme : Scheme} {port : ℕ} (hport : port < 2 ^ 16) :
    (portText scheme port).length ≤ 6 := by
  unfold portText
  split_ifs
  · exact Nat.zero_le _
  · have hlen : (decimal port).length ≤ 5 := length_decimal_le (by decide) (by omega)
    rw [List.length_cons]
    omega

theorem port_lt {scheme : Scheme} {text : Bytes} {p : Option ℕ} (h : SpellsPort text p) :
    1 ≤ p.getD scheme.defaultPort ∧ p.getD scheme.defaultPort < 2 ^ 16 := by
  cases h with
  | absent => cases scheme <;> decide
  | explicit port hpos hlt => exact ⟨hpos, hlt⟩

/-- The canonical text of a spelled target spells it. -/
theorem Spells.canonical {input : Bytes} {t : Target ip} (h : Spells ip input t)
    (hascii : ∀ b ∈ input, b.val < 128) : ServerOrigin.parse ip t.origin.text = .ok t.origin := by
  obtain ⟨s, host, port, slash, rfl, hs, hhost, ⟨p, hport, ht⟩, -, hclean⟩ := h
  have hbound : 1 ≤ t.port ∧ t.port < 2 ^ 16 := ht ▸ port_lt hport
  have hplain : ∀ b ∈ t.host.text ++ portText t.scheme t.port, Plain b := by
    intro b hb
    rcases List.mem_append.mp hb with hb | hb
    · refine hhost.plain (fun c hc => ⟨hascii c ?_, hclean c (List.mem_append_left _ hc)⟩) b hb
      simp only [List.mem_append]
      exact .inl (.inr (.inl hc))
    · exact plain_portText _ _ b hb
  have htext : t.origin.text = t.scheme.asStr ++ schemeSeparator ++
      (t.host.text ++ portText t.scheme t.port) ++ [] := by
    rw [List.append_nil]
    exact List.append_assoc _ _ _
  refine parse_eq_ok_iff.mpr ⟨?_, fun b hb => ?_, t, ⟨t.scheme.asStr, t.host.text,
    portText t.scheme t.port, [], htext, ?_, hhost.canonical, ?_, .inl rfl,
    fun b hb => (hplain b hb).2⟩, rfl⟩
  · have hlen := hhost.length_text_le
    have hlen' : (portText t.scheme t.port).length ≤ 6 := length_portText_le hbound.2
    have hscheme : (t.scheme.asStr ++ schemeSeparator).length ≤ 8 := by
      cases t.scheme <;> decide
    rw [htext, List.append_nil]
    simp only [List.length_append] at hscheme ⊢
    unfold originInputMaxLen
    omega
  · rw [htext, List.append_nil] at hb
    rcases List.mem_append.mp hb with hb | hb
    · have hscheme : ((t.scheme.asStr ++ schemeSeparator).all fun b => b.val < 128) = true := by
        cases t.scheme <;> rfl
      exact of_decide_eq_true (List.all_eq_true.mp hscheme b hb)
    · exact (hplain b hb).1
  · cases t.scheme <;> rfl
  · by_cases hdefault : t.port = t.scheme.defaultPort
    · refine ⟨none, ?_, hdefault⟩
      rw [portText, if_pos hdefault]
      exact .absent
    · refine ⟨some t.port, ?_, rfl⟩
      rw [portText, if_neg hdefault]
      exact .explicit t.port hbound.1 hbound.2

/-- A canonical authority splits into the host and port it was made of. -/
theorem splitHostPort_canonical (hs : SpellsHost ip host h) (scheme : Scheme) (port : ℕ) :
    splitHostPort (h.text ++ portText scheme port) =
      .ok (h.text, if port = scheme.defaultPort then none else some (decimal port)) := by
  rw [splitHostPort_eq_ok_iff]
  refine ⟨?_, ?_⟩
  · unfold portText
    split_ifs <;> rfl
  · refine hs.canonical.shape.imp_right fun ⟨hhead, hcolon⟩ => ⟨hhead, hcolon, ?_⟩
    intro text ht hmem
    split_ifs at ht
    · cases ht
    · cases ht
      exact absurd (isDigit_of_mem_decimal port _ hmem) (by decide)

theorem display6_inj {a a' : ip.V6} (h : ip.display6 a = ip.display6 a') : a = a' := by
  have heq := ip.parse_display6 a
  rw [h, ip.parse_display6] at heq
  exact (Option.some.inj heq).symm

/-- One canonical host text is the text of one host. -/
theorem SpellsHost.text_inj {host' : Bytes} {h' : Host ip} (hs : SpellsHost ip host h)
    (hs' : SpellsHost ip host' h') (heq : h.text = h'.text) : h = h' := by
  have hbracket : ∀ addr : ip.V6, (Host.v6 addr : Host ip).text.head? = some (ascii '[') :=
    fun _ => rfl
  cases hs with
  | name _ hvalid hcolon hhead =>
    cases hs' with
    | name _ => exact congrArg Host.name heq
    | v6 inner addr =>
      exact absurd ((congrArg List.head? heq).trans (hbracket addr))
        (head?_toAsciiLowercase (by decide) hhead)
  | v6 inner addr =>
    cases hs' with
    | name _ hvalid hcolon hhead =>
      exact absurd ((congrArg List.head? heq).symm.trans (hbracket addr))
        (head?_toAsciiLowercase (by decide) hhead)
    | v6 inner' addr' =>
      have hcons := List.append_cancel_right heq
      rw [display6_inj (List.cons.inj hcons).2]

/-- A canonical text has one target. -/
theorem Spells.origin_inj {input input' : Bytes} {t t' : Target ip} (hs : Spells ip input t)
    (hs' : Spells ip input' t') (heq : t.origin = t'.origin) : t = t' := by
  obtain ⟨-, host, -, -, -, -, hhost, -⟩ := hs
  obtain ⟨-, host', -, -, -, -, hhost', -⟩ := hs'
  obtain ⟨scheme, h, port⟩ := t
  obtain ⟨scheme', h', port'⟩ := t'
  have hscheme : scheme = scheme' := congrArg ServerOrigin.scheme heq
  subst hscheme
  have htext : scheme.asStr ++ schemeSeparator ++ (h.text ++ portText scheme port) =
      scheme.asStr ++ schemeSeparator ++ (h'.text ++ portText scheme port') := by
    rw [← List.append_assoc, ← List.append_assoc]
    exact congrArg ServerOrigin.text heq
  have hauthority := List.append_cancel_left htext
  have hsplit := splitHostPort_canonical hhost scheme port
  rw [hauthority, splitHostPort_canonical hhost' scheme port'] at hsplit
  obtain ⟨hhostText, hportText⟩ := Prod.mk.inj (Except.ok.inj hsplit)
  obtain rfl := hhost'.text_inj hhost hhostText
  have hport : port = port' := by
    split_ifs at hportText with hp' hp hp
    · exact hp.trans hp'.symm
    · exact (decimal_inj.mp (Option.some.inj hportText)).symm
  rw [hport]

/-- A parsed origin parses to itself, two texts parse to one origin if and only if they name the same
scheme, host and port, and an accepted text holds nothing else but one final slash. -/
theorem origins_canonical (ip : IpText) :
    (∀ input o, ServerOrigin.parse ip input = .ok o → ServerOrigin.parse ip o.text = .ok o) ∧
    (∀ input o, ServerOrigin.parse ip input = .ok o → ∃ t, Spells ip input t) ∧
    (∀ input input' o o' t t', ServerOrigin.parse ip input = .ok o →
      ServerOrigin.parse ip input' = .ok o' → Spells ip input t → Spells ip input' t' →
      (o = o' ↔ t.scheme = t'.scheme ∧ t.host = t'.host ∧ t.port = t'.port)) ∧
    ∀ input o, ServerOrigin.parse ip input = .ok o → ∃ s authority slash,
      input = s ++ schemeSeparator ++ authority ++ slash ∧ toAsciiLowercase s = o.scheme.asStr ∧
      (slash = [] ∨ slash = [ascii '/']) ∧
      ascii '@' ∉ authority ∧ ascii '/' ∉ authority ∧ ascii '?' ∉ authority ∧
      ascii '#' ∉ authority := by
  refine ⟨fun input o h => ?_, fun input o h => ?_, fun input input' o o' t t' h h' hs hs' => ?_,
    fun input o h => ?_⟩
  · obtain ⟨-, hascii, t, hs, rfl⟩ := parse_eq_ok_iff.mp h
    exact hs.canonical hascii
  · obtain ⟨-, -, t, hs, -⟩ := parse_eq_ok_iff.mp h
    exact ⟨t, hs⟩
  · have horigin : ∀ {input o} {t : Target ip}, ServerOrigin.parse ip input = .ok o →
        Spells ip input t → o = t.origin := by
      intro input o t h hs
      obtain ⟨hlen, hascii, -⟩ := parse_eq_ok_iff.mp h
      have heq := h.symm.trans (parse_eq_ok_iff.mpr ⟨hlen, hascii, t, hs, rfl⟩)
      exact Except.ok.inj heq
    rw [horigin h hs, horigin h' hs']
    constructor
    · intro heq
      rw [hs.origin_inj hs' heq]
      exact ⟨rfl, rfl, rfl⟩
    · rintro ⟨hscheme, hhost, hport⟩
      obtain ⟨scheme, host, port⟩ := t
      cases hscheme
      cases hhost
      cases hport
      rfl
  · obtain ⟨-, -, t, ⟨s, host, port, slash, hinput, hs, -, -, hslash, hclean⟩, rfl⟩ :=
      parse_eq_ok_iff.mp h
    refine ⟨s, host ++ port, slash, hinput, hs, hslash, fun hmem => (hclean _ hmem).2 rfl, ?_⟩
    refine ⟨fun hmem => ?_, fun hmem => ?_, fun hmem => ?_⟩
    all_goals exact absurd (hclean _ hmem).1 (by decide)

/-- The loopback addresses with their texts. -/
def loopback : IpText where
  V4 := Unit
  V6 := Unit
  parse4 text :=
    if text = asciiBytes ['1', '2', '7', '.', '0', '.', '0', '.', '1'] then some () else none
  display4 _ := asciiBytes ['1', '2', '7', '.', '0', '.', '0', '.', '1']
  parse6 text :=
    if text = asciiBytes [':', ':', '1'] ∨ text = asciiBytes ['0', ':', ':', '1'] then some ()
    else none
  display6 _ := asciiBytes [':', ':', '1']
  isIpv4Mapped _ := false
  parse_display6 _ := rfl
  display6_letters := by decide +kernel
  display6_length := by decide

/-- `http://[::1]`. -/
def loopbackText : Bytes := Scheme.http.asStr ++ schemeSeparator ++ asciiBytes ['[', ':', ':', '1', ']']

/-- `Http://[0::1]:80/`. -/
def loopbackSpelled : Bytes :=
  asciiBytes ['H', 't', 't', 'p', ':', '/', '/', '[', '0', ':', ':', '1', ']', ':', '8', '0', '/']

theorem spells_loopback : Spells loopback loopbackText ⟨.http, .v6 (), 80⟩ := by
  have hhost : SpellsHost loopback (ascii '[' :: asciiBytes [':', ':', '1'] ++ [ascii ']'])
      (.v6 ()) := .v6 _ _ rfl rfl (by decide)
  exact ⟨Scheme.http.asStr, _, [], [], rfl, rfl, hhost, ⟨none, .absent, rfl⟩, .inl rfl,
    by decide +kernel⟩

theorem spells_loopback_spelled : Spells loopback loopbackSpelled ⟨.http, .v6 (), 80⟩ := by
  have hhost : SpellsHost loopback (ascii '[' :: asciiBytes ['0', ':', ':', '1'] ++ [ascii ']'])
      (.v6 ()) := .v6 _ _ rfl rfl (by decide)
  have hport : SpellsPort (ascii ':' :: decimal 80) (some 80) :=
    .explicit 80 (by decide) (by decide)
  exact ⟨asciiBytes ['H', 't', 't', 'p'], _, _, [ascii '/'], rfl, rfl, hhost, ⟨_, hport, rfl⟩,
    .inr rfl, by decide +kernel⟩

theorem origins_canonical_loopback :
    ServerOrigin.parse loopback loopbackText = .ok ⟨loopbackText, .http⟩ ∧
    ((⟨loopbackText, .http⟩ : ServerOrigin) = ⟨loopbackText, .http⟩ ↔
      Scheme.http = .http ∧ (Host.v6 () : Host loopback) = .v6 () ∧ 80 = 80) :=
  have h := origins_canonical loopback
  have hspelled : ServerOrigin.parse loopback loopbackSpelled = .ok ⟨loopbackText, .http⟩ := by
    decide +kernel
  ⟨h.1 loopbackSpelled _ hspelled,
    h.2.2.1 loopbackText loopbackSpelled _ _ _ _ (h.1 loopbackSpelled _ hspelled) hspelled
      spells_loopback spells_loopback_spelled⟩

end RizzyVault.Core
