import SchemaEnums.Data.Yaml.Tokens

/-!
# Data — Yaml — Node

The tree that a document's tokens form.  A text holds at most one document here; `Node.read`
refuses more.

Anchors are numbered: an anchor gets the number of different names known so far, and an alias
the number that its name has last been given.  `Node.resolve` looks a number up among all nodes
of the document, where the last node that bears it counts.
-/

namespace SchemaEnums.Data.Yaml

/-- What stands before the content of a node. -/
structure Properties where
  anchor : Option Nat
  tag    : Option String
deriving Repr, DecidableEq

/-- A node of a document. -/
inductive Node where
  | alias    (number : Nat)
  | scalar   (properties : Properties) (style : Style) (text : String)
  | sequence (properties : Properties) (items : List Node)
  | mapping  (properties : Properties) (pairs : List (Node × Node))

namespace Node

/-- The node that stands where nothing is written. -/
def empty : Node := .scalar ⟨none, none⟩ .plain ""

/-! ### Reading -/

/-- The tokens still to be read, the numbers of the anchors, and the handles of tags. -/
structure State where
  tokens  : List Token
  anchors : List (String × Nat)
  handles : List (String × String)

/-- Reads part of a document. -/
abbrev Parse (α : Type) := State → Option (α × State)

namespace State

/-- The next token. -/
def next (s : State) : Option Token := s.tokens.head?

/-- The state after the next token. -/
def drop (s : State) : State := { s with tokens := s.tokens.tail }

/-- The next token is one of these. -/
def nextIn (s : State) (ts : List Token) : Bool :=
  s.next.any ts.contains

/-- Numbers a new anchor. -/
def addAnchor (s : State) (name : String) : Nat × State :=
  let n := s.anchors.length
  let known := s.anchors.any (·.1 == name)
  let anchors :=
    if known then s.anchors.map fun a => if a.1 == name then (name, n) else a
    else s.anchors ++ [(name, n)]
  (n, { s with anchors })

/-- A tag in full; its handle must be known. -/
def expand (s : State) (handle suffix : String) : Option String :=
  if handle.isEmpty then some suffix
  else (s.handles.find? (·.1 == handle)).map fun h => h.2 ++ suffix

end State

/-- An anchor and a tag in either order, each as it is written. -/
def properties (s : State) : (Option String × Option (String × String)) × State :=
  match s.tokens with
  | .anchor a :: .tag h x :: ts  => ((some a, some (h, x)), { s with tokens := ts })
  | .tag h x :: .anchor a :: ts  => ((some a, some (h, x)), { s with tokens := ts })
  | .anchor a :: ts              => ((some a, none), { s with tokens := ts })
  | .tag h x :: ts               => ((none, some (h, x)), { s with tokens := ts })
  | _                            => ((none, none), s)

/-- The kinds of content that may stand where a node is expected. -/
structure Context where
  /-- Block collections may begin here. -/
  inBlock    : Bool
  /-- Items of a sequence may follow without being indented. -/
  indentless : Bool

mutual

/-- A node, with at most `n` steps. -/
def nodeWithin : (n : Nat) → Context → Parse Node
  | 0,     _, _ => none
  | n + 1, x, s =>
    match s.next with
    | some (.alias name) => do
      let a ← s.anchors.find? (·.1 == name)
      some (.alias a.2, s.drop)
    | _ => do
      let ((anchor, tag), s) := properties s
      let tag ← match tag with
        | some (h, t) => (s.expand h t).map some
        | none        => some none
      let (number, s) := match anchor with
        | some name => let (k, s) := s.addAnchor name; (some k, s)
        | none      => (none, s)
      contentWithin n x ⟨number, tag⟩ s

/-- The content of a node behind its properties. -/
def contentWithin : (n : Nat) → Context → Properties → Parse Node
  | 0,     _, _, _ => none
  | n + 1, x, p, s =>
    match s.next with
    | some (.scalar style text) => some (.scalar p style text, s.drop)
    | some .flowSequenceStart   =>
      (flowSequenceWithin n true s.drop).map fun (items, s) => (.sequence p items, s)
    | some .flowMappingStart    =>
      (flowMappingWithin n true s.drop).map fun (pairs, s) => (.mapping p pairs, s)
    | some t =>
      if x.indentless && t == .blockEntry then
        (indentlessWithin n s).map fun (items, s) => (.sequence p items, s)
      else if x.inBlock && t == .blockSequenceStart then
        (blockSequenceWithin n s.drop).map fun (items, s) => (.sequence p items, s)
      else if x.inBlock && t == .blockMappingStart then
        (blockMappingWithin n s.drop).map fun (pairs, s) => (.mapping p pairs, s)
      else if p.anchor.isSome || p.tag.isSome then some (.scalar p .plain "", s)
      else none
    | none => if p.anchor.isSome || p.tag.isSome then some (.scalar p .plain "", s) else none

/-- A node, or nothing before one of the given tokens. -/
def optionalWithin : (n : Nat) → Context → (before : List Token) → Parse Node
  | 0,     _, _,      _ => none
  | n + 1, x, before, s => if s.nextIn before then some (empty, s) else nodeWithin n x s

/-- The items of a sequence that is indented, and its end. -/
def blockSequenceWithin : (n : Nat) → Parse (List Node)
  | 0,     _ => none
  | n + 1, s =>
    match s.next with
    | some .blockEntry => do
      let (item, s) ← optionalWithin n ⟨true, false⟩ [.blockEntry, .blockEnd] s.drop
      let (items, s) ← blockSequenceWithin n s
      some (item :: items, s)
    | some .blockEnd => some ([], s.drop)
    | _              => none

/-- The items of a sequence that is not indented. -/
def indentlessWithin : (n : Nat) → Parse (List Node)
  | 0,     _ => none
  | n + 1, s =>
    match s.next with
    | some .blockEntry => do
      let (item, s) ←
        optionalWithin n ⟨true, false⟩ [.blockEntry, .key, .value, .blockEnd] s.drop
      let (items, s) ← indentlessWithin n s
      some (item :: items, s)
    | _ => some ([], s)

/-- The value behind a key of a block mapping. -/
def blockValueWithin : (n : Nat) → Parse Node
  | 0,     _ => none
  | n + 1, s =>
    match s.next with
    | some .value => optionalWithin n ⟨true, true⟩ [.key, .value, .blockEnd] s.drop
    | _           => some (empty, s)

/-- The pairs of a block mapping and its end. -/
def blockMappingWithin : (n : Nat) → Parse (List (Node × Node))
  | 0,     _ => none
  | n + 1, s =>
    match s.next with
    | some .key => do
      let (key, s) ← optionalWithin n ⟨true, true⟩ [.key, .value, .blockEnd] s.drop
      let (value, s) ← blockValueWithin n s
      let (pairs, s) ← blockMappingWithin n s
      some ((key, value) :: pairs, s)
    | some .blockEnd => some ([], s.drop)
    | _              => none

/-- The value behind a key in a flow collection that `closing` ends. -/
def flowValueWithin : (n : Nat) → (closing : Token) → Parse Node
  | 0,     _,       _ => none
  | n + 1, closing, s =>
    match s.next with
    | some .value => optionalWithin n ⟨false, false⟩ [.flowEntry, closing] s.drop
    | _           => some (empty, s)

/-- The items of a flow sequence and its end.  A key that is marked begins a mapping of one
pair. -/
def flowSequenceWithin : (n : Nat) → (first : Bool) → Parse (List Node)
  | 0,     _,     _ => none
  | n + 1, first, s =>
    if s.next == some .flowSequenceEnd then some ([], s.drop)
    else do
      let s ← if first then some s else if s.next == some .flowEntry then some s.drop else none
      match s.next with
      | some .flowSequenceEnd => some ([], s.drop)
      | some .key             => do
        let s := s.drop
        let (key, s) ←
          if s.nextIn [.value, .flowEntry, .flowSequenceEnd] then some (empty, s.drop)
          else nodeWithin n ⟨false, false⟩ s
        let (value, s) ← flowValueWithin n .flowSequenceEnd s
        let (items, s) ← flowSequenceWithin n false s
        some (.mapping ⟨none, none⟩ [(key, value)] :: items, s)
      | _ => do
        let (item, s) ← nodeWithin n ⟨false, false⟩ s
        let (items, s) ← flowSequenceWithin n false s
        some (item :: items, s)

/-- The pairs of a flow mapping and its end.  A node that is not marked as a key has no value. -/
def flowMappingWithin : (n : Nat) → (first : Bool) → Parse (List (Node × Node))
  | 0,     _,     _ => none
  | n + 1, first, s =>
    if s.next == some .flowMappingEnd then some ([], s.drop)
    else do
      let s ← if first then some s else if s.next == some .flowEntry then some s.drop else none
      match s.next with
      | some .flowMappingEnd => some ([], s.drop)
      | some .key            => do
        let (key, s) ←
          optionalWithin n ⟨false, false⟩ [.value, .flowEntry, .flowMappingEnd] s.drop
        let (value, s) ← flowValueWithin n .flowMappingEnd s
        let (pairs, s) ← flowMappingWithin n false s
        some ((key, value) :: pairs, s)
      | _ => do
        let (key, s) ← nodeWithin n ⟨false, false⟩ s
        let (pairs, s) ← flowMappingWithin n false s
        some ((key, empty) :: pairs, s)

end

/-! ### Documents -/

/-- The handles that need no directive. -/
def defaultHandles : List (String × String) :=
  [("!", "!"), ("!!", "tag:yaml.org,2002:")]

/-- The directives at the front of the tokens, at most one version and one for each handle, and
the tokens after them. -/
def directives (versioned : Bool) (handles : List (String × String)) :
    List Token → Option (List (String × String) × List Token)
  | .version major minor :: ts =>
    if versioned || major != 1 || !(minor == 1 || minor == 2) then none
    else directives true handles ts
  | .tagDirective h x :: ts =>
    if handles.any (·.1 == h) then none else directives versioned (handles ++ [(h, x)]) ts
  | ts => some (handles ++ defaultHandles.filter fun d => !handles.any (·.1 == d.1), ts)

/-- A directive or the beginning of a document. -/
def opensDocument : Token → Bool
  | .version ..      => true
  | .tagDirective .. => true
  | .documentStart   => true
  | _                => false

/-- The root of the next document, which begins with a node or, if `explicit`, with three dashes
and perhaps directives before them. -/
def document (explicit : Bool) (tokens : List Token) : Option (Node × List Token) := do
  let parse (handles : List (String × String)) (ts : List Token) : Option (Node × List Token) :=
    (nodeWithin (4 * ts.length + 4) ⟨true, false⟩ ⟨ts, [], handles⟩).map
      fun (root, s) => (root, s.tokens)
  if explicit then
    let (handles, ts) ← directives false [] tokens
    match ts with
    | .documentStart :: ts =>
      match ts.head? with
      | none   => some (empty, ts)
      | some t => if opensDocument t || t == .documentEnd then some (empty, ts) else parse handles ts
    | _ => none
  else parse defaultHandles tokens

/-- The root of the only document of a text, or `some none` if it holds none. -/
def read (text : String) : Option (Option Node) := do
  match ← Tokens.ofText? text with
  | []      => some none
  | t :: ts => do
    let (root, rest) ← document (opensDocument t) (t :: ts)
    if rest.all (· == .documentEnd) then some (some root) else none

/-! ### Aliases -/

mutual

/-- The nodes that bear a number, in the order in which they begin. -/
def numbered : Node → List (Nat × Node)
  | .alias _         => []
  | .scalar p s t    => p.anchor.toList.map (·, .scalar p s t)
  | .sequence p is   => p.anchor.toList.map (·, .sequence p is) ++ numberedItems is
  | .mapping p pairs => p.anchor.toList.map (·, .mapping p pairs) ++ numberedPairs pairs

/-- The nodes of a list that bear a number. -/
def numberedItems : List Node → List (Nat × Node)
  | []      => []
  | i :: is => numbered i ++ numberedItems is

/-- The keys and values that bear a number. -/
def numberedPairs : List (Node × Node) → List (Nat × Node)
  | []              => []
  | (k, v) :: pairs => numbered k ++ numbered v ++ numberedPairs pairs

end

/-- The node that `node` stands for in the document under `root`. -/
def resolve (root node : Node) : Node :=
  match node with
  | .alias k => (((numbered root).reverse.find? (·.1 == k)).map (·.2)).getD node
  | node     => node

end Node

end SchemaEnums.Data.Yaml
