import RizzyVault.Match.Url

/-!
# The match decision

A saved URI is offered on a page by its match mode. Every mode but *Never* and *Regex* stands behind
two rules: an `https` URI is never offered on an `http` page, and both sides have registrable domains
that are equal or that one active group of the account names together. Behind them the modes narrow
the decision: what *Exact* matches, *Starts with* matches, then *Host*, then *Base domain*.

## Main definitions

* `MatchMode`, `EffectiveMode`, `EquivalenceView`, `decide`.

## Main results

* `decide_eq_matched_iff`: a match, mode by mode.
* `match_modes_narrow`.

## References

* `crates/rizzy-match/src/modes.rs`, `crates/rizzy-match/src/equivalence.rs`,
  `crates/rizzy-match/src/security.rs`.
-/

namespace RizzyVault.Match

/-- The mode of a saved URI. -/
inductive MatchMode
  | accountDefault
  | baseDomain
  | host
  | startsWith
  | exact
  | regex
  | never
  deriving DecidableEq

/-- A mode with the account default resolved. -/
inductive EffectiveMode
  | baseDomain
  | host
  | startsWith
  | exact
  | regex
  | never
  deriving DecidableEq

/-- Resolves the account default; an account default that is itself unset is *Base domain*. -/
def MatchMode.resolve (mode default : MatchMode) : EffectiveMode :=
  match (match mode with
    | .accountDefault => default
    | other => other) with
  | .accountDefault => .baseDomain
  | .baseDomain => .baseDomain
  | .host => .host
  | .startsWith => .startsWith
  | .exact => .exact
  | .regex => .regex
  | .never => .never

/-- The identifier of a group: 16 bytes. -/
structure GroupId where
  bytes : Fin (2 ^ 128)
  deriving DecidableEq

/-- Registrable domains that are the same login. -/
structure EquivalenceGroup where
  id : GroupId
  domains : List String
  thirdPartyHostable : Bool
  deriving DecidableEq

def EquivalenceGroup.contains (group : EquivalenceGroup) (domain : String) : Bool :=
  group.domains.any fun d => d = domain

/-- The groups of a decision: the global ones the account has not disabled, and its own. -/
structure EquivalenceView where
  global : List EquivalenceGroup
  disabledGlobal : Finset GroupId
  userDefined : List EquivalenceGroup

namespace EquivalenceView

def activeGroups (view : EquivalenceView) : List EquivalenceGroup :=
  (view.global.filter fun group => group.id ∉ view.disabledGlobal) ++ view.userDefined

/-- The first active group that names both domains. -/
def sameGroup (view : EquivalenceView) (a b : String) : Option GroupId :=
  (view.activeGroups.find? fun group => group.contains a && group.contains b).map
    EquivalenceGroup.id

end EquivalenceView

/-- Why a candidate matched. -/
inductive MatchedVia
  | registrableDomain
  | equivalence (group : GroupId)
  deriving DecidableEq

inductive MatchOutcome
  | matched (via : MatchedVia)
  | noMatch
  | notSupported
  deriving DecidableEq

/-- Whether the fill is refused because an `https` URI would be filled on an `http` page. -/
def httpsDowngradeBlocks : Scheme → Scheme → Bool
  | .https, .http => true
  | _, _ => false

/-- The registrable-domain gate. -/
def registrableGate (page uri : NormalizedUrl) (equivalence : EquivalenceView) :
    Option MatchedVia := do
  let pageDomain ← page.registrableDomain
  let uriDomain ← uri.registrableDomain
  if pageDomain = uriDomain then some .registrableDomain
  else (equivalence.sameGroup pageDomain uriDomain).map .equivalence

/-- The rule of a mode that stands behind the gate. -/
def EffectiveMode.passes (mode : EffectiveMode) (page uri : NormalizedUrl) : Bool :=
  match mode with
  | .baseDomain => true
  | .host => page.host = uri.host
  | .startsWith => uri.normalizedString.toList.isPrefixOf page.normalizedString.toList
  | .exact => page.normalizedString = uri.normalizedString
  | .regex => false
  | .never => false

/-- Whether a URI is a candidate for a page. -/
def decide (page uri : NormalizedUrl) (mode default : MatchMode)
    (equivalence : EquivalenceView) : MatchOutcome :=
  let effective := mode.resolve default
  if effective = .regex then .notSupported
  else if effective = .never then .noMatch
  else if httpsDowngradeBlocks uri.scheme page.scheme then .noMatch
  else match registrableGate page uri equivalence with
    | none => .noMatch
    | some matchedVia => if effective.passes page uri then .matched matchedVia else .noMatch

/-! ### What a match says -/

variable {page uri : NormalizedUrl} {mode default : MatchMode} {view : EquivalenceView}
  {via : MatchedVia}

/-- Both sides have registrable domains, equal or named together by an active group. -/
def Gate (page uri : NormalizedUrl) (view : EquivalenceView) : Prop :=
  ∃ a b, page.registrableDomain = some a ∧ uri.registrableDomain = some b ∧
    (a = b ∨ ∃ group ∈ view.activeGroups, group.contains a ∧ group.contains b)

theorem registrableGate_isSome : (∃ via, registrableGate page uri view = some via) ↔
    Gate page uri view := by
  simp only [registrableGate, Gate, Option.bind_eq_bind, Option.bind_eq_some_iff]
  constructor
  · rintro ⟨via, a, ha, b, hb, hvia⟩
    refine ⟨a, b, ha, hb, ?_⟩
    split_ifs at hvia with hab
    · exact .inl hab
    · obtain ⟨_, hid, -⟩ := Option.map_eq_some_iff.mp hvia
      obtain ⟨group, hfind, -⟩ := Option.map_eq_some_iff.mp hid
      have hboth := List.find?_some hfind
      exact .inr ⟨group, List.mem_of_find?_eq_some hfind, by simpa using hboth⟩
  · rintro ⟨a, b, ha, hb, hab⟩
    by_cases heq : a = b
    · exact ⟨_, a, ha, b, hb, if_pos heq⟩
    · obtain ⟨group, hgroup, hboth⟩ := hab.resolve_left heq
      have hsome : (view.activeGroups.find? fun g => g.contains a && g.contains b).isSome :=
        List.find?_isSome.mpr ⟨group, hgroup, by simpa using hboth⟩
      obtain ⟨found, hfound⟩ := Option.isSome_iff_exists.mp hsome
      refine ⟨.equivalence found.id, a, ha, b, hb, ?_⟩
      rw [if_neg heq, EquivalenceView.sameGroup, hfound]
      rfl

/-- A match by equivalence is one of two different registrable domains. -/
theorem registrableGate_equivalence {group : GroupId}
    (h : registrableGate page uri view = some (.equivalence group)) :
    page.registrableDomain ≠ uri.registrableDomain := by
  simp only [registrableGate, Option.bind_eq_bind, Option.bind_eq_some_iff] at h
  obtain ⟨a, ha, b, hb, hvia⟩ := h
  rw [ha, hb]
  split_ifs at hvia with hab
  · cases hvia
  · exact fun h => hab (Option.some.inj h)

/-- A match is what the rules outside the mode and the rule of the mode say. -/
theorem decide_eq_matched_iff :
    decide page uri mode default view = .matched via ↔
      ¬ (uri.scheme = .https ∧ page.scheme = .http) ∧
        registrableGate page uri view = some via ∧
          (mode.resolve default).passes page uri = true := by
  have hblocks : httpsDowngradeBlocks uri.scheme page.scheme = true ↔
      uri.scheme = .https ∧ page.scheme = .http := by
    cases uri.scheme <;> cases page.scheme <;> simp [httpsDowngradeBlocks]
  rw [decide, ← hblocks]
  by_cases hregex : mode.resolve default = .regex
  · simp [hregex, EffectiveMode.passes]
  · by_cases hnever : mode.resolve default = .never
    · simp [hnever, EffectiveMode.passes]
    · by_cases hdown : httpsDowngradeBlocks uri.scheme page.scheme
      · simp [hregex, hnever, hdown]
      · cases hgate : registrableGate page uri view with
        | none => simp [hregex, hnever, hdown]
        | some found =>
          by_cases hpass : (mode.resolve default).passes page uri
          · simp [hregex, hnever, hdown, hpass]
          · simp [hregex, hnever, hdown, hpass]

/-! ### The chain of modes -/

section Chain

variable {crate : UrlCrate} {domainStr : String → Option String} {rawPage rawUri : String}
  (hpage : NormalizedUrl.parse crate domainStr rawPage = .ok page)
  (huri : NormalizedUrl.parse crate domainStr rawUri = .ok uri)

include hpage huri

theorem passes_startsWith :
    EffectiveMode.startsWith.passes page uri = true ↔ uri.scheme = page.scheme ∧
      uri.host = page.host ∧ uri.port = page.port ∧ uri.path.toList <+: page.path.toList := by
  rw [EffectiveMode.passes, List.isPrefixOf_iff_prefix]
  exact NormalizedUrl.normalizedString_prefix_iff (NormalizedUrl.parse_readable hpage)
    (NormalizedUrl.parse_readable huri)

/-- Every mode but *Base domain* passes equal hosts only. -/
theorem host_eq_of_passes {effective : EffectiveMode} (hbase : effective ≠ .baseDomain)
    (h : effective.passes page uri = true) : page.host = uri.host := by
  cases effective with
  | baseDomain => exact absurd rfl hbase
  | host => simpa [EffectiveMode.passes] using h
  | startsWith => exact ((passes_startsWith hpage huri).mp h).2.1.symm
  | exact =>
    have hequal : page.normalizedString = uri.normalizedString := by
      simpa [EffectiveMode.passes] using h
    have hprefix : EffectiveMode.startsWith.passes page uri = true := by
      rw [EffectiveMode.passes, List.isPrefixOf_iff_prefix, hequal]
    exact ((passes_startsWith hpage huri).mp hprefix).2.1.symm
  | regex => cases h
  | never => cases h

/-- A narrower mode passes only what the next one passes. -/
theorem passes_of_narrower {narrow wide : EffectiveMode}
    (hnext : (narrow, wide) ∈ [(.exact, .startsWith), (.startsWith, .host),
      (EffectiveMode.host, EffectiveMode.baseDomain)])
    (h : narrow.passes page uri = true) : wide.passes page uri = true := by
  simp only [List.mem_cons, Prod.mk.injEq, List.not_mem_nil, or_false] at hnext
  obtain ⟨rfl, rfl⟩ | ⟨rfl, rfl⟩ | ⟨rfl, rfl⟩ := hnext
  · have hequal : page.normalizedString = uri.normalizedString := by
      simpa [EffectiveMode.passes] using h
    rw [EffectiveMode.passes, List.isPrefixOf_iff_prefix, hequal]
  · have hhost := host_eq_of_passes hpage huri (by decide) h
    simpa [EffectiveMode.passes] using hhost
  · rfl

end Chain

/-- A match is never of an `https` URI on an `http` page and stands behind the gate; *Starts with*
matches exactly when, in addition, scheme, host and port are equal and the URI's path is a prefix of
the page's; each mode of the chain matches only what the next one matches, for the same reason; and
a match by equivalence is one of *Base domain*. -/
theorem match_modes_narrow (crate : UrlCrate) (domainStr : String → Option String)
    {rawPage rawUri : String} {page uri : NormalizedUrl}
    (hpage : NormalizedUrl.parse crate domainStr rawPage = .ok page)
    (huri : NormalizedUrl.parse crate domainStr rawUri = .ok uri) (view : EquivalenceView) :
    (∀ mode default via, decide page uri mode default view = .matched via →
        ¬ (uri.scheme = .https ∧ page.scheme = .http) ∧ Gate page uri view) ∧
      (∀ mode default, MatchMode.resolve mode default = .startsWith →
        ((∃ via, decide page uri mode default view = .matched via) ↔
          (¬ (uri.scheme = .https ∧ page.scheme = .http) ∧ Gate page uri view) ∧
            uri.scheme = page.scheme ∧ uri.host = page.host ∧ uri.port = page.port ∧
              uri.path.toList <+: page.path.toList)) ∧
      (∀ mode default mode' default', (MatchMode.resolve mode default, mode'.resolve default') ∈
          [(.exact, .startsWith), (.startsWith, .host),
            (EffectiveMode.host, EffectiveMode.baseDomain)] →
        ∀ via, decide page uri mode default view = .matched via →
          decide page uri mode' default' view = .matched via) ∧
      ∀ mode default group, decide page uri mode default view = .matched (.equivalence group) →
        MatchMode.resolve mode default = .baseDomain := by
  simp only [decide_eq_matched_iff]
  refine ⟨fun mode default via h => ⟨h.1, registrableGate_isSome.mp ⟨via, h.2.1⟩⟩,
    fun mode default hmode => ?_, fun mode default mode' default' hnext via h =>
      ⟨h.1, h.2.1, passes_of_narrower hpage huri hnext h.2.2⟩, fun mode default group h => ?_⟩
  · rw [hmode, passes_startsWith hpage huri, ← registrableGate_isSome]
    constructor
    · rintro ⟨via, hdown, hgate, hparts⟩
      exact ⟨⟨hdown, via, hgate⟩, hparts⟩
    · rintro ⟨⟨hdown, via, hgate⟩, hparts⟩
      exact ⟨via, hdown, hgate, hparts⟩
  · -- Equal hosts have equal registrable domains.
    by_contra hbase
    exact registrableGate_equivalence h.2.1 (NormalizedUrl.registrableDomain_congr hpage huri
      (host_eq_of_passes hpage huri hbase h.2.2))

/-- A parser that knows the URLs of one host. -/
def sampleParse (raw : String) : Option ParsedUrl :=
  if raw = "https://example.com/login?next=1" then
    some ⟨"https", some "example.com", some .domain, none, "/login"⟩
  else if raw = "https://example.com" then
    some ⟨"https", some "example.com", some .domain, none, "/"⟩
  else none

theorem sampleParse_eq_some {raw : String} {url : ParsedUrl} (h : sampleParse raw = some url) :
    url.hostStr = some "example.com" ∧ url.host = some .domain ∧
      ∃ rest, url.path.toList = '/' :: rest := by
  rw [sampleParse] at h
  split_ifs at h with hlogin hroot
  · cases h
    exact ⟨rfl, rfl, _, rfl⟩
  · cases h
    exact ⟨rfl, rfl, _, rfl⟩

def sampleCrate : UrlCrate where
  parse := sampleParse
  slash_notMem raw url host h hhost := by
    cases (sampleParse_eq_some h).1.symm.trans hhost
    decide +kernel
  colon_bracketed raw url host a b h hhost hab := by
    cases (sampleParse_eq_some h).1.symm.trans hhost
    have hmem : ':' ∈ "example.com".toList := hab ▸ List.mem_append_right a List.mem_cons_self
    exact absurd hmem (by decide +kernel)
  path_rooted raw url h _ := .inr (sampleParse_eq_some h).2.2
  isIpLiteral_congr raw raw' url url' host host' h h' _ _ _ := by
    rw [ParsedUrl.isIpLiteral, ParsedUrl.isIpLiteral, (sampleParse_eq_some h).2.1,
      (sampleParse_eq_some h').2.1]

/-- A URI saved for the whole of a site is offered on its login page by *Starts with*, and so by
*Host*. -/
theorem match_modes_narrow_login :
    let page : NormalizedUrl := ⟨.https, "example.com", none, some "example.com", "/login"⟩
    let uri : NormalizedUrl := ⟨.https, "example.com", none, some "example.com", "/"⟩
    let view : EquivalenceView := ⟨[], ∅, []⟩
    decide page uri .startsWith .accountDefault view = .matched .registrableDomain ∧
      decide page uri .host .accountDefault view = .matched .registrableDomain := by
  intro page uri view
  have hpage : NormalizedUrl.parse sampleCrate (fun host => some host)
      "https://example.com/login?next=1" = .ok page := by decide +kernel
  have huri : NormalizedUrl.parse sampleCrate (fun host => some host) "https://example.com" =
      .ok uri := by decide +kernel
  have hmatch : decide page uri .startsWith .accountDefault view =
      .matched .registrableDomain := by decide +kernel
  exact ⟨hmatch, (match_modes_narrow sampleCrate _ hpage huri view).2.2.1 .startsWith
    .accountDefault .host .accountDefault (by decide +kernel) _ hmatch⟩

/-! ### Ports -/

/-- The port of a normalised URL, its scheme's own where none is written. -/
def NormalizedUrl.effectivePort (url : NormalizedUrl) : ℕ :=
  match url.port with
  | some port => port.val
  | none => url.scheme.defaultPort

section Ports

variable {crate : UrlCrate} {domainStr : String → Option String} {rawPage rawUri : String}
  (hpage : NormalizedUrl.parse crate domainStr rawPage = .ok page)
  (huri : NormalizedUrl.parse crate domainStr rawUri = .ok uri)

include hpage huri

/-- *Starts with* and *Exact* pass equal schemes and ports only. -/
theorem port_eq_of_passes {effective : EffectiveMode}
    (hmode : effective = .startsWith ∨ effective = .exact)
    (h : effective.passes page uri = true) : page.scheme = uri.scheme ∧ page.port = uri.port := by
  have hprefix : EffectiveMode.startsWith.passes page uri = true := by
    obtain rfl | rfl := hmode
    · exact h
    · exact passes_of_narrower hpage huri (by decide) h
  obtain ⟨hscheme, -, hport, -⟩ := (passes_startsWith hpage huri).mp hprefix
  exact ⟨hscheme.symm, hport.symm⟩

/-- Equal hosts pass the gate exactly when they have a registrable domain. -/
theorem registrableGate_of_host_eq (hhost : page.host = uri.host) :
    (∃ via, registrableGate page uri view = some via) ↔ page.registrableDomain ≠ none := by
  have hdomain := NormalizedUrl.registrableDomain_congr hpage huri hhost
  rw [registrableGate_isSome, Gate, ← hdomain]
  constructor
  · rintro ⟨a, b, ha, -⟩
    simp [ha]
  · intro hne
    obtain ⟨a, ha⟩ := Option.ne_none_iff_exists'.mp hne
    exact ⟨a, a, ha, ha, .inl rfl⟩

/-- *Host* matches equal hosts that have a registrable domain, at whatever ports. -/
theorem exists_host_match_iff {default : MatchMode} {mode : MatchMode}
    (hmode : mode.resolve default = .host) :
    (∃ via, decide page uri mode default view = .matched via) ↔
      page.host = uri.host ∧ page.registrableDomain ≠ none ∧
        ¬ (uri.scheme = .https ∧ page.scheme = .http) := by
  simp only [decide_eq_matched_iff, hmode, EffectiveMode.passes, decide_eq_true_eq]
  constructor
  · rintro ⟨via, hdown, hgate, hhost⟩
    exact ⟨hhost, (registrableGate_of_host_eq hpage huri hhost).mp ⟨via, hgate⟩, hdown⟩
  · rintro ⟨hhost, hdomain, hdown⟩
    have hgate : ∃ via, registrableGate page uri view = some via :=
      (registrableGate_of_host_eq hpage huri hhost).mpr hdomain
    obtain ⟨via, hgate⟩ := hgate
    exact ⟨via, hdown, hgate, hhost⟩

/-- What *Starts with* and *Exact* keep of a port, *Host* keeps exactly when it never matches
equal hosts at different ones. -/
theorem narrow_match_iff {α : Type} {port : NormalizedUrl → α}
    (hport : page.scheme = uri.scheme → page.port = uri.port → port page = port uri)
    (view : EquivalenceView) (mode default : MatchMode) :
    (mode.resolve default ∈ [.host, .startsWith, EffectiveMode.exact] →
        ∀ via, decide page uri mode default view = .matched via →
          page.host = uri.host ∧ port page = port uri) ↔
      (mode.resolve default = .host → page.host = uri.host → port page ≠ port uri →
        page.registrableDomain = none ∨ (uri.scheme = .https ∧ page.scheme = .http)) := by
  constructor
  · intro h hmode hhost hne
    by_contra hcon
    obtain ⟨hdomain, hdown⟩ := not_or.mp hcon
    have hmatch : ∃ via, decide page uri mode default view = .matched via :=
      (exists_host_match_iff hpage huri hmode).mpr ⟨hhost, hdomain, hdown⟩
    obtain ⟨via, hvia⟩ := hmatch
    exact hne (h (by simp [hmode]) via hvia).2
  · intro h hmode via hvia
    have hpass := (decide_eq_matched_iff.mp hvia).2.2
    simp only [List.mem_cons, List.not_mem_nil, or_false] at hmode
    have hhost : page.host = uri.host := by
      refine host_eq_of_passes hpage huri ?_ hpass
      obtain hm | hm | hm := hmode <;> rw [hm] <;> exact EffectiveMode.noConfusion
    refine ⟨hhost, ?_⟩
    obtain hm | hm := hmode
    · by_contra hne
      obtain ⟨-, hdomain, hdown⟩ := (exists_host_match_iff hpage huri hm).mp ⟨via, hvia⟩
      exact (h hm hhost hne).elim hdomain hdown
    · obtain ⟨hscheme, heq⟩ := port_eq_of_passes hpage huri hm hpass
      exact hport hscheme heq

end Ports

/-- A match by *Host*, *Starts with* or *Exact* is one of equal hosts and ports exactly when it is
not a *Host* match of a page and a URI at different ports: such a match is refused only for want of
a registrable domain, or of an `https` URI on an `http` page. The ports are the effective ones, or
those that normalisation keeps. -/
theorem narrow_match_port_iff (crate : UrlCrate) (domainStr : String → Option String)
    {rawPage rawUri : String} {page uri : NormalizedUrl}
    (hpage : NormalizedUrl.parse crate domainStr rawPage = .ok page)
    (huri : NormalizedUrl.parse crate domainStr rawUri = .ok uri) (view : EquivalenceView)
    (mode default : MatchMode) :
    ((mode.resolve default ∈ [.host, .startsWith, EffectiveMode.exact] →
        ∀ via, decide page uri mode default view = .matched via →
          page.host = uri.host ∧ page.effectivePort = uri.effectivePort) ↔
      (mode.resolve default = .host → page.host = uri.host →
        page.effectivePort ≠ uri.effectivePort →
          page.registrableDomain = none ∨ (uri.scheme = .https ∧ page.scheme = .http))) ∧
    ((mode.resolve default ∈ [.host, .startsWith, EffectiveMode.exact] →
        ∀ via, decide page uri mode default view = .matched via →
          page.host = uri.host ∧ page.port = uri.port) ↔
      (mode.resolve default = .host → page.host = uri.host → page.port ≠ uri.port →
        page.registrableDomain = none ∨ (uri.scheme = .https ∧ page.scheme = .http))) :=
  ⟨narrow_match_iff hpage huri (fun hscheme hport => by
      rw [NormalizedUrl.effectivePort, NormalizedUrl.effectivePort, hscheme, hport]) view mode default,
    narrow_match_iff hpage huri (fun _ hport => hport) view mode default⟩

/-- What the parser documents of a URL whose host is a name. -/
structure PlainUrl (url : ParsedUrl) : Prop where
  host : ∀ host ∈ url.hostStr, '/' ∉ host.toList ∧ ':' ∉ host.toList
  domain : url.host = some .domain
  path : url.path.toList.head? = some '/'

/-- A parser that knows the URLs of a table. -/
def tableCrate (table : List (String × ParsedUrl)) (h : ∀ e ∈ table, PlainUrl e.2) : UrlCrate :=
  have hplain : ∀ {raw url}, (table.lookup raw) = some url → PlainUrl url := by
    intro raw url hurl
    obtain ⟨before, after, rfl, -⟩ := List.lookup_eq_some_iff.mp hurl
    exact h (raw, url) (by simp)
  { parse := fun raw => table.lookup raw
    slash_notMem := fun raw url host hurl hhost => ((hplain hurl).host host hhost).1
    colon_bracketed := fun raw url host a b hurl hhost hab =>
      absurd (hab ▸ List.mem_append_right a List.mem_cons_self) ((hplain hurl).host host hhost).2
    path_rooted := fun raw url hurl _ => by
      right
      obtain ⟨rest, hrest⟩ := List.head?_eq_some_iff.mp (hplain hurl).path
      exact ⟨rest, hrest⟩
    isIpLiteral_congr := fun raw raw' url url' host host' hurl hurl' _ _ _ => by
      rw [ParsedUrl.isIpLiteral, ParsedUrl.isIpLiteral, (hplain hurl).domain,
        (hplain hurl').domain] }

def portTable : List (String × ParsedUrl) :=
  [("https://example.com:8443/login", ⟨"https", some "example.com", some .domain, some 8443,
      "/login"⟩),
    ("https://example.com:8443", ⟨"https", some "example.com", some .domain, some 8443, "/"⟩),
    ("https://example.com", ⟨"https", some "example.com", some .domain, none, "/"⟩)]

theorem portTable_plain : ∀ e ∈ portTable, PlainUrl e.2 := by
  intro e he
  simp only [portTable, List.mem_cons, List.not_mem_nil, or_false] at he
  obtain rfl | rfl | rfl := he
  all_goals exact ⟨by decide +kernel, rfl, by decide +kernel⟩

def portPage : NormalizedUrl := ⟨.https, "example.com", some 8443, some "example.com", "/login"⟩

def portUri : NormalizedUrl := ⟨.https, "example.com", none, some "example.com", "/"⟩

/-- A URI saved without a port is offered by *Host* at another port. -/
theorem host_matches_other_port :
    NormalizedUrl.parse (tableCrate portTable portTable_plain) (fun host => some host)
        "https://example.com:8443/login" = .ok portPage ∧
      NormalizedUrl.parse (tableCrate portTable portTable_plain) (fun host => some host)
        "https://example.com" = .ok portUri ∧
      decide portPage portUri .host .accountDefault ⟨[], ∅, []⟩ = .matched .registrableDomain ∧
        portPage.effectivePort ≠ portUri.effectivePort ∧ portPage.port ≠ portUri.port := by
  decide +kernel

/-- A URI saved with the port is offered by *Starts with* at that port. -/
theorem narrow_match_port_iff_login :
    let uri : NormalizedUrl := ⟨.https, "example.com", some 8443, some "example.com", "/"⟩
    decide portPage uri .startsWith .accountDefault ⟨[], ∅, []⟩ = .matched .registrableDomain ∧
      portPage.host = uri.host ∧ portPage.effectivePort = uri.effectivePort := by
  intro uri
  have hpage : NormalizedUrl.parse (tableCrate portTable portTable_plain) (fun host => some host)
      "https://example.com:8443/login" = .ok portPage := by decide +kernel
  have huri : NormalizedUrl.parse (tableCrate portTable portTable_plain) (fun host => some host)
      "https://example.com:8443" = .ok uri := by decide +kernel
  have hmatch : decide portPage uri .startsWith .accountDefault ⟨[], ∅, []⟩ =
      .matched .registrableDomain := by decide +kernel
  exact ⟨hmatch, (narrow_match_port_iff _ _ hpage huri ⟨[], ∅, []⟩ .startsWith
    .accountDefault).1.mpr (fun h => by cases h) (by decide) _ hmatch⟩

end RizzyVault.Match
