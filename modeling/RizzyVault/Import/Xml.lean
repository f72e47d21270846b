import RizzyVault.Import.Text
import RizzyVault.Import.Time
import RizzyVault.Lib.Result

/-!
# The XML reader

A bounded, non-validating reader of XML into a tree. It keeps a stack of the open elements, takes
one comment, section, tag or run of text at a time, and knows no entity but the predefined ones. A
document type declaration is refused wherever one could stand.

## Main definitions

* `Element`, `Node`: the tree.
* `decode`, `startTag`, `step`, `parse`.

## References

* `crates/rizzy-import/src/xml.rs`.
-/

open RizzyVault.Lib

namespace RizzyVault.Import.Xml

def maxDepth : ℕ := 64
def maxNodes : ℕ := 4000000
def maxXmlAttributes : ℕ := 64

mutual

/-- An element: its name, its attributes and its children. -/
inductive Element
  | mk (name : List Char) (attributes : List (List Char × List Char)) (children : List Node)

/-- A child of an element. -/
inductive Node
  | element (e : Element)
  | text (t : List Char)

end

def Element.name : Element → List Char
  | .mk name _ _ => name

def Element.attributes : Element → List (List Char × List Char)
  | .mk _ attributes _ => attributes

def Element.children : Element → List Node
  | .mk _ _ children => children

/-- The element with one more child. -/
def Element.push : Element → Node → Element
  | .mk name attributes children, node => .mk name attributes (children ++ [node])

/-! ### Characters and texts -/

/-- White space. -/
def isWs (c : Char) : Bool := c ∈ [' ', '\t', '\n', '\r']

/-- The characters that end a name. -/
def endsName (c : Char) : Bool :=
  isWs c || c ∈ ['/', '>', '=', '<', '"', '\'', '&', '?', '!']

def skipWs (src : List Char) : List Char := src.dropWhile isWs

/-- The text before the next terminator, and what follows the terminator. -/
def find (terminator : List Char) : List Char → Option (List Char × List Char)
  | [] => none
  | c :: rest =>
    if terminator <+: c :: rest then some ([], (c :: rest).drop terminator.length)
    else (find terminator rest).map fun (body, rest) => (c :: body, rest)

def readUntil (terminator src : List Char) : Result (List Char × List Char) :=
  match find terminator src with
  | some found => .ok found
  | none => .error .malformed

/-- A line break becomes LF; in an attribute value all white space becomes spaces. -/
def normalizedChar (inAttribute : Bool) (c : Char) : Char :=
  if c = '\r' then if inAttribute then ' ' else '\n'
  else if inAttribute ∧ (c = '\n' ∨ c = '\t') then ' '
  else c

/-- A text with its line breaks normalised; CR LF is one line break. -/
def pushNormalized (inAttribute : Bool) : List Char → List Char
  | [] => []
  | [c] => [normalizedChar inAttribute c]
  | c :: d :: rest =>
    if c = '\r' ∧ d = '\n' then normalizedChar inAttribute c :: pushNormalized inAttribute rest
    else normalizedChar inAttribute c :: pushNormalized inAttribute (d :: rest)

/-- The value of a digit in a radix. -/
def toDigit (radix : ℕ) (c : Char) : Option ℕ :=
  let value :=
    if '0' ≤ c ∧ c ≤ '9' then some (c.toNat - '0'.toNat)
    else if 'a' ≤ c ∧ c ≤ 'z' then some (c.toNat - 'a'.toNat + 10)
    else if 'A' ≤ c ∧ c ≤ 'Z' then some (c.toNat - 'A'.toNat + 10)
    else none
  value.filter (· < radix)

/-- A character reference's number, of at most 8 digits. -/
def number (digits : List Char) (radix : ℕ) : Result ℕ :=
  if digits = [] ∨ 8 < digits.length then .error .malformed
  else
    digits.foldlM (fun value c =>
      match toDigit radix c with
      | none => .error .malformed
      | some d => if value * radix + d < 2 ^ 32 then .ok (value * radix + d) else .error .malformed) 0

/-- The character of a code, which is not zero. -/
def charOf (code : ℕ) : Result Char := if code = 0 then .error .malformed else fromU32 code

/-- The character a reference stands for. -/
def resolve (reference : List Char) : Result Char :=
  match [("lt".toList, '<'), ("gt".toList, '>'), ("amp".toList, '&'), ("quot".toList, '"'),
    ("apos".toList, '\'')].lookup reference with
  | some c => .ok c
  | none =>
    if "#x".toList <+: reference then do charOf (← number (reference.drop 2) 16)
    else if "#".toList <+: reference then do charOf (← number (reference.drop 1) 10)
    else .error .malformed

/-- Replaces the references of a text; every one of them takes fuel. -/
def decodeLoop (inAttribute : Bool) : ℕ → List Char → Result (List Char)
  | 0, _ => .error .malformed
  | fuel + 1, rest =>
    match find ['&'] rest with
    | none => .ok (pushNormalized inAttribute rest)
    | some (before, after) => do
      let (reference, rest) ← readUntil [';'] after
      let c ← resolve reference
      return pushNormalized inAttribute before ++ c :: (← decodeLoop inAttribute fuel rest)

/-- Text or an attribute value: references replaced, line breaks normalised. -/
def decode (raw : List Char) (inAttribute : Bool) : Result (List Char) :=
  if inAttribute = false ∧ "]]>".toList <:+: raw then .error .malformed
  else decodeLoop inAttribute (raw.length + 1) raw

/-! ### Tags -/

/-- The reader's state: what is left of the source, and the nodes so far. -/
structure State where
  src : List Char
  nodes : ℕ

/-- Counts one node. -/
def count (s : State) : Result State :=
  if maxNodes < s.nodes + 1 then .error .tooMany else .ok { s with nodes := s.nodes + 1 }

def startsName (c : Char) : Bool := !endsName c && !c.isDigit && c ≠ '-' && c ≠ '.'

/-- Reads a name. -/
def readName (src : List Char) : Result (List Char × List Char) :=
  if src.head?.any startsName then
    .ok (src.takeWhile fun c => !endsName c, src.dropWhile fun c => !endsName c)
  else .error .malformed

/-- Reads a name, an equals sign and a quoted value. -/
def readAttribute (src : List Char) : Result ((List Char × List Char) × List Char) := do
  let (name, src) ← readName src
  if (skipWs src).head? = some '=' then
    match skipWs (skipWs src).tail with
    | [] => .error .malformed
    | quote :: src =>
      if quote = '"' ∨ quote = '\'' then
        let (raw, rest) ← readUntil [quote] src
        if '<' ∈ raw then .error .malformed else return ((name, ← decode raw true), rest)
      else .error .malformed
  else .error .malformed

/-- Reads the attributes of a start tag, at most `room` more of them, and its end. -/
def tagRest : ℕ → List (List Char × List Char) → State →
    Result ((List (List Char × List Char) × Bool) × State)
  | room, attributes, s =>
    let src := skipWs s.src
    match src with
    | [] => .error .malformed
    | c :: rest =>
      if c = '>' then .ok ((attributes, false), { s with src := rest })
      else if c = '/' then
        if rest.head? = some '>' then .ok ((attributes, true), { s with src := rest.tail })
        else .error .malformed
      -- An attribute must follow white space.
      else if src.length < s.src.length then do
        let s ← count s
        match room with
        | 0 => .error .tooMany
        | room + 1 =>
          let ((name, value), rest) ← readAttribute src
          if (attributes.map Prod.fst).contains name then .error .malformed
          else tagRest room (attributes ++ [(name, value)]) { s with src := rest }
      else .error .malformed

/-- Reads a start tag after its opening bracket, and whether it was empty. -/
def startTag (s : State) : Result ((Element × Bool) × State) := do
  let s ← count s
  let (name, src) ← readName s.src
  let ((attributes, empty), s) ← tagRest maxXmlAttributes [] { s with src := src }
  return ((.mk name attributes [], empty), s)

/-! ### Documents -/

/-- The encoding that an XML declaration gives must be UTF-8. -/
def checkEncoding (body : List Char) : Result Unit :=
  match find "encoding".toList body with
  | none => .ok ()
  | some (_, after) =>
    let after := after.dropWhile Time.isWhitespace
    if after.head? = some '=' then
      match after.tail.dropWhile Time.isWhitespace with
      | [] => .error .malformed
      | quote :: value =>
        if quote = '"' ∨ quote = '\'' then
          match find [quote] value with
          | none => .error .malformed
          | some (name, _) =>
            if name.map Char.toLower ∈ ["utf-8".toList, "utf8".toList] then .ok ()
            else .error .encoding
        else .error .malformed
    else .error .malformed

/-- Skips the optional XML declaration. -/
def declaration (src : List Char) : Result (List Char) :=
  if "<?xml".toList <+: src ∧ (src.drop 5).head?.any isWs then do
    let (body, rest) ← readUntil "?>".toList (src.drop 5)
    checkEncoding body
    return rest
  else return src

def atDoctype (src : List Char) : Bool :=
  "<!DOCTYPE".toList <+: src ∨ "<!doctype".toList <+: src

/-- Skips comments, processing instructions and white space outside the root element. -/
def misc : ℕ → List Char → Result (List Char)
  | 0, _ => .error .malformed
  | fuel + 1, src => do
    let src := skipWs src
    if "<!--".toList <+: src then
      let (_, rest) ← readUntil "-->".toList (src.drop 4)
      misc fuel rest
    else if "<?".toList <+: src then
      let (_, rest) ← readUntil "?>".toList (src.drop 2)
      misc fuel rest
    else if atDoctype src then .error .doctype
    else return src

/-- Drops the white space between child elements. -/
def finish : Element → Element
  | .mk name attributes children =>
    .mk name attributes <|
      if children.any fun | .element _ => true | .text _ => false then
        children.filter fun | .element _ => true | .text t => !t.all isWs
      else children

/-- What one round of the reader leads to: more to read, or the root element. -/
inductive Outcome
  | next (stack : List Element) (s : State)
  | root (e : Element) (s : State)

/-- A text becomes a child of the innermost open element. -/
def addText (t : List Char) : List Element → Result (List Element)
  | [] => .error .malformed
  | parent :: stack => .ok (parent.push (.text t) :: stack)

/-- An element that is closed becomes a child of the one around it, or the root. -/
def closed (e : Element) (stack : List Element) (s : State) : Outcome :=
  match stack with
  | [] => .root e s
  | parent :: stack => .next (parent.push (.element e) :: stack) s

/-- One round of the reader. The open elements are on the stack, the innermost first. -/
def step (stack : List Element) (s : State) : Result Outcome := do
  if "<!--".toList <+: s.src then
    let (_, rest) ← readUntil "-->".toList (s.src.drop 4)
    return .next stack { s with src := rest }
  else if "<![CDATA[".toList <+: s.src then
    let (raw, rest) ← readUntil "]]>".toList (s.src.drop 9)
    let s ← count { s with src := rest }
    return .next (← addText (pushNormalized false raw) stack) s
  else if "<!".toList <+: s.src then
    if atDoctype s.src then .error .doctype else .error .malformed
  else if "<?".toList <+: s.src then
    let (_, rest) ← readUntil "?>".toList (s.src.drop 2)
    return .next stack { s with src := rest }
  else if "</".toList <+: s.src then
    let (name, src) ← readName (s.src.drop 2)
    if (skipWs src).head? = some '>' then
      match stack with
      | [] => .error .malformed
      | done :: stack =>
        if done.name = name then
          return closed (finish done) stack { s with src := (skipWs src).tail }
        else .error .malformed
    else .error .malformed
  else if s.src.head? = some '<' then
    let ((element, empty), s) ← startTag { s with src := s.src.tail }
    if empty then return closed element stack s
    else if maxDepth ≤ stack.length then .error .tooDeep
    else return .next (element :: stack) s
  else if s.src = [] then .error .malformed
  else
    let text ← decode (s.src.takeWhile (· ≠ '<')) false
    let s ← count { s with src := s.src.dropWhile (· ≠ '<') }
    return .next (← addText text stack) s

/-- Rounds of the reader, up to the end of the root element. -/
def run : ℕ → List Element → State → Result (Element × State)
  | 0, _, _ => .error .malformed
  | fuel + 1, stack, s => do
    match ← step stack s with
    | .next stack s => run fuel stack s
    | .root e s => return (e, s)

/-- The whole document after the declaration. -/
def document (src : List Char) : Result Element := do
  let src ← misc (src.length + 1) src
  if src.head? = some '<' then
    let (root, s) ← run (src.length + 1) [] ⟨src, 0⟩
    let rest ← misc (s.src.length + 1) s.src
    if rest = [] then return root else .error .malformed
  else .error .malformed

/-- Parses one XML document and returns its root element. -/
def parse (input : List Byte) (maxLen : ℕ) : Result Element := do
  document (← declaration (← utf8Input input maxLen))

end RizzyVault.Import.Xml
