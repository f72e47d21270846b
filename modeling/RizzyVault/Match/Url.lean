import RizzyVault.Lib.Words

/-!
# Normalised URLs

The form in which a page and a saved URI are compared: scheme, host, non-default port, registrable
domain and path. The parts are read off the URL parser of a library, and the registrable domain off
a public suffix list. The full normalised URL is the text `scheme://host[:port]path`, and none of
the parts can be read out of it in two ways.

## Main definitions

* `UrlCrate`: the URL parser, with what it documents of its hosts and paths.
* `NormalizedUrl`, `NormalizedUrl.parse`, `NormalizedUrl.normalizedString`.

## Main results

* `NormalizedUrl.normalizedString_prefix_iff`: a normalised URL is a prefix of another exactly when
  scheme, host and port are equal and the path is a prefix of the path.

## References

* `crates/rizzy-match/src/normalize.rs`, `crates/rizzy-match/src/suffix.rs`,
  `crates/rizzy-match/src/error.rs`.
-/

namespace RizzyVault.Match

inductive Scheme
  | http
  | https
  deriving DecidableEq

namespace Scheme

def asStr : Scheme → String
  | http => "http"
  | https => "https"

def defaultPort : Scheme → ℕ
  | http => 80
  | https => 443

/-- The scheme of its name; no other scheme is matched. -/
def ofStr (name : String) : Option Scheme :=
  if name = "http" then some .http else if name = "https" then some .https else none

end Scheme

/-- Why a URL did not normalise. -/
inductive NormalizeError
  | tooLong
  | parse
  | unsupportedScheme
  | hostTooLong
  | noHost
  deriving DecidableEq

/-- The kind of host a URL names. -/
inductive Host
  | domain
  | ipv4
  | ipv6
  deriving DecidableEq

/-- A URL as the library's parser returns it. The port is none where it is the scheme's own. -/
structure ParsedUrl where
  scheme : String
  hostStr : Option String
  host : Option Host
  port : Option (Fin (2 ^ 16))
  path : String

/-- Whether the host is an address rather than a name. -/
def ParsedUrl.isIpLiteral (url : ParsedUrl) : Bool := url.host = some .ipv4 ∨ url.host = some .ipv6

/-- The text without one dot at its end. -/
def stripDot (host : String) : String :=
  if host.toList.getLast? = some '.' then .ofList host.toList.dropLast else host

/-- The URL parser of the library. The text of a host has no slash, and a colon only between
brackets; the path of a web URL starts with a slash; and an address is told from a name by its
text. -/
structure UrlCrate where
  parse : String → Option ParsedUrl
  slash_notMem : ∀ raw url host, parse raw = some url → url.hostStr = some host → '/' ∉ host.toList
  colon_bracketed : ∀ raw url host a b, parse raw = some url → url.hostStr = some host →
    host.toList = a ++ ':' :: b → '[' ∈ a ∧ ']' ∈ b
  path_rooted : ∀ raw url, parse raw = some url → url.scheme = "http" ∨ url.scheme = "https" →
    url.path = "" ∨ ∃ rest, url.path.toList = '/' :: rest
  isIpLiteral_congr : ∀ raw raw' url url' host host', parse raw = some url →
    parse raw' = some url' → url.hostStr = some host → url'.hostStr = some host' →
      stripDot host = stripDot host' → url.isIpLiteral = url'.isIpLiteral

/-- A normalised URL. -/
structure NormalizedUrl where
  scheme : Scheme
  host : String
  port : Option (Fin (2 ^ 16))
  registrableDomain : Option String
  path : String
  deriving DecidableEq

namespace NormalizedUrl

def maxUrlLen : ℕ := 4096

def maxHostLen : ℕ := 253

/-- The registrable domain of a host: of an address and of a name without a dot that is no domain
under a suffix, the host itself. -/
def registrableDomainOf (domainStr : String → Option String) (isIpLiteral : Bool) (host : String) :
    Option String :=
  if isIpLiteral then some host
  else (domainStr host).or (if '.' ∈ host.toList then none else some host)

/-- Parses and normalises a URL, where `domainStr` is the suffix list. -/
def parse (crate : UrlCrate) (domainStr : String → Option String) (raw : String) :
    Except NormalizeError NormalizedUrl :=
  if maxUrlLen < raw.utf8ByteSize then .error .tooLong
  else match crate.parse raw with
    | none => .error .parse
    | some parsed =>
      match Scheme.ofStr parsed.scheme with
      | none => .error .unsupportedScheme
      | some scheme =>
        match parsed.hostStr with
        | none => .error .noHost
        | some rawHost =>
          let host := stripDot rawHost
          if host = "" ∨ maxHostLen < host.utf8ByteSize then .error .hostTooLong
          else .ok ⟨scheme, host, parsed.port.filter fun p => p.val ≠ scheme.defaultPort,
            registrableDomainOf domainStr parsed.isIpLiteral host,
            if parsed.path = "" then "/" else parsed.path⟩

/-- The full normalised URL. -/
def normalizedString (url : NormalizedUrl) : String :=
  match url.port with
  | some port => url.scheme.asStr ++ "://" ++ url.host ++ ":" ++ toString port.val ++ url.path
  | none => url.scheme.asStr ++ "://" ++ url.host ++ url.path

end NormalizedUrl

/-! ### Texts with a separator -/

/-- A text cut at the first separator is a prefix of another exactly when the heads are equal and
the tails are prefixes. -/
theorem append_cons_prefix_iff {α : Type*} {sep : α} {a b x y : List α} (ha : sep ∉ a)
    (hb : sep ∉ b) : a ++ sep :: x <+: b ++ sep :: y ↔ a = b ∧ x <+: y := by
  induction a generalizing b with
  | nil =>
    cases b with
    | nil => simp [List.cons_prefix_cons]
    | cons d b =>
      have hd : sep ≠ d := fun h => hb (h ▸ List.mem_cons_self)
      simp [List.cons_prefix_cons, hd]
  | cons c a ih =>
    have hc : c ≠ sep := fun h => ha (h ▸ List.mem_cons_self)
    cases b with
    | nil => simp [List.cons_prefix_cons, hc]
    | cons d b =>
      rw [List.cons_append, List.cons_append, List.cons_prefix_cons,
        ih (fun h => ha (List.mem_cons_of_mem _ h)) fun h => hb (List.mem_cons_of_mem _ h),
        List.cons.injEq, and_assoc]

/-- Two texts cut at the last separator. -/
theorem append_cons_inj {α : Type*} {sep : α} {a b x y : List α} (hx : sep ∉ x) (hy : sep ∉ y) :
    a ++ sep :: x = b ++ sep :: y ↔ a = b ∧ x = y := by
  constructor
  · intro h
    obtain ⟨c, hb, hc⟩ | ⟨c, ha, hc⟩ := List.append_eq_append_iff.mp h
    · cases c with
      | nil =>
        rw [List.append_nil] at hb
        exact ⟨hb.symm, (List.cons.inj hc).2⟩
      | cons d c =>
        exact absurd ((List.cons.inj hc).2 ▸ List.mem_append_right c List.mem_cons_self) hx
    · cases c with
      | nil =>
        rw [List.append_nil] at ha
        exact ⟨ha, (List.cons.inj hc).2.symm⟩
      | cons d c =>
        exact absurd ((List.cons.inj hc).2 ▸ List.mem_append_right c List.mem_cons_self) hy
  · rintro ⟨rfl, rfl⟩
    rfl

/-! ### What is parsed -/

theorem toList_stripDot (host : String) :
    (stripDot host).toList = host.toList ∨ host.toList = (stripDot host).toList ++ ['.'] := by
  rw [stripDot]
  split_ifs with hdot
  · right
    rw [String.toList_ofList]
    exact (List.dropLast_append_getLast? '.' hdot).symm
  · exact .inl rfl

/-- The part of the normalised URL between the scheme and the path. -/
def NormalizedUrl.authority (url : NormalizedUrl) : List Char :=
  url.host.toList ++ match url.port with
    | some port => ':' :: Nat.toDigits 10 port.val
    | none => []

/-- What the parts of a normalised URL are, as far as its text can be read. -/
structure NormalizedUrl.Readable (url : NormalizedUrl) : Prop where
  slash_notMem : '/' ∉ url.host.toList
  colon_bracketed : ∀ a b, url.host.toList = a ++ ':' :: b → ']' ∈ b
  path_rooted : ∃ rest, url.path.toList = '/' :: rest

section Parse

variable {crate : UrlCrate} {domainStr : String → Option String} {raw raw' : String}
  {url url' : NormalizedUrl}

theorem NormalizedUrl.parse_eq_ok (h : parse crate domainStr raw = .ok url) :
    ∃ parsed rawHost, crate.parse raw = some parsed ∧
      Scheme.ofStr parsed.scheme = some url.scheme ∧ parsed.hostStr = some rawHost ∧
      url.host = stripDot rawHost ∧
      url.registrableDomain = registrableDomainOf domainStr parsed.isIpLiteral url.host ∧
      url.path = if parsed.path = "" then "/" else parsed.path := by
  rw [parse] at h
  split_ifs at h with hlen
  split at h
  · cases h
  · rename_i parsed hparsed
    split at h
    · cases h
    · rename_i scheme hscheme
      split at h
      · cases h
      · rename_i rawHost hhost
        by_cases hhostlen : stripDot rawHost = "" ∨ maxHostLen < (stripDot rawHost).utf8ByteSize
        · rw [if_pos hhostlen] at h
          cases h
        · rw [if_neg hhostlen] at h
          cases h
          exact ⟨parsed, rawHost, hparsed, hscheme, hhost, rfl, rfl, rfl⟩

theorem Scheme.ofStr_eq_some {name : String} {scheme : Scheme}
    (h : Scheme.ofStr name = some scheme) : name = "http" ∨ name = "https" := by
  rw [Scheme.ofStr] at h
  split_ifs at h with hhttp hhttps
  · exact .inl hhttp
  · exact .inr hhttps

theorem NormalizedUrl.parse_readable (h : parse crate domainStr raw = .ok url) :
    url.Readable := by
  obtain ⟨parsed, rawHost, hparsed, hscheme, hhost, hstrip, -, hpath⟩ := parse_eq_ok h
  have hslash := crate.slash_notMem raw parsed rawHost hparsed hhost
  have htext := toList_stripDot rawHost
  rw [← hstrip] at htext
  refine ⟨?_, fun a b hab => ?_, ?_⟩
  · obtain heq | heq := htext
    · rwa [heq]
    · exact fun hmem => hslash (heq ▸ List.mem_append_left _ hmem)
  · obtain heq | heq := htext
    · exact (crate.colon_bracketed raw parsed rawHost a b hparsed hhost (heq ▸ hab)).2
    · -- The dot that was cut off is no bracket.
      have hmem := (crate.colon_bracketed raw parsed rawHost a (b ++ ['.']) hparsed hhost
        (by rw [heq, hab, List.append_assoc, List.cons_append])).2
      simpa using hmem
  · rw [hpath]
    split_ifs with hempty
    · exact ⟨[], rfl⟩
    · exact (crate.path_rooted raw parsed hparsed (Scheme.ofStr_eq_some hscheme)).resolve_left hempty

/-- The registrable domain is a function of the host. -/
theorem NormalizedUrl.registrableDomain_congr (h : parse crate domainStr raw = .ok url)
    (h' : parse crate domainStr raw' = .ok url') (hhost : url.host = url'.host) :
    url.registrableDomain = url'.registrableDomain := by
  obtain ⟨parsed, rawHost, hparsed, -, hraw, hstrip, hdomain, -⟩ := parse_eq_ok h
  obtain ⟨parsed', rawHost', hparsed', -, hraw', hstrip', hdomain', -⟩ := parse_eq_ok h'
  rw [hdomain, hdomain', hhost, crate.isIpLiteral_congr raw raw' parsed parsed' rawHost rawHost'
    hparsed hparsed' hraw hraw' (by rw [← hstrip, ← hstrip', hhost])]

end Parse

/-! ### The full normalised URL -/

theorem toDigits_inj {m n : ℕ} : Nat.toDigits 10 m = Nat.toDigits 10 n ↔ m = n := by
  constructor
  · intro h
    rw [← Nat.ofDigitChars_ten_toDigits (n := m), h, Nat.ofDigitChars_ten_toDigits]
  · rintro rfl
    rfl

theorem notMem_toDigits {c : Char} (hc : c.isDigit = false) (n : ℕ) : c ∉ Nat.toDigits 10 n := by
  intro hmem
  rw [Nat.isDigit_of_mem_toDigits (by decide) (by decide) hmem] at hc
  cases hc

namespace NormalizedUrl

variable {page uri : NormalizedUrl}

theorem toList_normalizedString (url : NormalizedUrl) :
    url.normalizedString.toList =
      url.scheme.asStr.toList ++ (':' :: '/' :: '/' :: (url.authority ++ url.path.toList)) := by
  obtain ⟨scheme, host, port, domain, path⟩ := url
  cases port with
  | none => simp [normalizedString, authority]
  | some port => simp [normalizedString, authority, Nat.toList_repr]

theorem Readable.slash_notMem_authority (h : uri.Readable) : '/' ∉ uri.authority := by
  rw [authority, List.mem_append, not_or]
  refine ⟨h.slash_notMem, ?_⟩
  cases uri.port with
  | none => exact List.not_mem_nil
  | some port =>
    rw [List.mem_cons, not_or]
    exact ⟨by decide, notMem_toDigits (by decide) _⟩

/-- Host and port can be read out of their text. -/
theorem Readable.authority_inj (hpage : page.Readable) (huri : uri.Readable) :
    uri.authority = page.authority ↔ uri.host = page.host ∧ uri.port = page.port := by
  have hcolon (n : ℕ) : ':' ∉ Nat.toDigits 10 n := notMem_toDigits (by decide) n
  have hbracket (n : ℕ) : ']' ∉ Nat.toDigits 10 n := notMem_toDigits (by decide) n
  constructor
  · intro h
    rw [authority, authority] at h
    cases hu : uri.port with
    | none =>
      cases hp : page.port with
      | none =>
        rw [hu, hp, List.append_nil, List.append_nil] at h
        exact ⟨String.toList_inj.mp h, rfl⟩
      | some port =>
        rw [hu, hp, List.append_nil] at h
        exact absurd (huri.colon_bracketed _ _ h) (hbracket _)
    | some port =>
      cases hp : page.port with
      | none =>
        rw [hu, hp, List.append_nil] at h
        exact absurd (hpage.colon_bracketed _ _ h.symm) (hbracket _)
      | some port' =>
        rw [hu, hp] at h
        obtain ⟨hhost, hport⟩ := (append_cons_inj (hcolon _) (hcolon _)).mp h
        exact ⟨String.toList_inj.mp hhost, congrArg some (Fin.ext (toDigits_inj.mp hport))⟩
  · rintro ⟨hhost, hport⟩
    rw [authority, authority, hhost, hport]

/-- A normalised URL is a prefix of another exactly when scheme, host and port are equal and the
path is a prefix of the path. -/
theorem normalizedString_prefix_iff (hpage : page.Readable) (huri : uri.Readable) :
    uri.normalizedString.toList <+: page.normalizedString.toList ↔
      uri.scheme = page.scheme ∧ uri.host = page.host ∧ uri.port = page.port ∧
        uri.path.toList <+: page.path.toList := by
  obtain ⟨restUri, hpathUri⟩ := huri.path_rooted
  obtain ⟨restPage, hpathPage⟩ := hpage.path_rooted
  have hscheme (a b : Scheme) : a.asStr = b.asStr ↔ a = b := by
    cases a <;> cases b <;> decide
  have hname (a : Scheme) : ':' ∉ a.asStr.toList := by
    cases a <;> decide
  rw [toList_normalizedString, toList_normalizedString, append_cons_prefix_iff (hname _) (hname _),
    String.toList_inj, hscheme, List.cons_prefix_cons, List.cons_prefix_cons, hpathUri, hpathPage,
    append_cons_prefix_iff huri.slash_notMem_authority hpage.slash_notMem_authority,
    hpage.authority_inj huri, List.cons_prefix_cons]
  tauto

end NormalizedUrl

end RizzyVault.Match
