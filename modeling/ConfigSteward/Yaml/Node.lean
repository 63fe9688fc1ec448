import ConfigSteward.Yaml.Resolution
import ConfigSteward.Yaml.TokenStream

/-! # The nodes of a document

A document is a tree of nodes, each with the meaning that its tag or its form calls for. An alias
stands for the node that has its anchor; within that node itself it stands for an empty one.
-/
namespace ConfigSteward.Yaml

inductive Node where
  | scalar (meaning : Meaning) (text : String)
  | sequence (meaning : Meaning) (items : List Node)
  | mapping (meaning : Meaning) (entries : List (Node × Node))
  deriving Repr

namespace Node

/-- What the tokens of a document are read with. -/
structure Context where
  version : Version
  /-- What the handles of tags stand for. -/
  handles : List (String × String)

/-- The tokens that are left and the anchored nodes so far, latest first. -/
structure State where
  tokens : List Token
  anchors : List (String × Node) := []

/-- A node and the state after it. -/
abbrev Reading := Except Fault (Node × State)

namespace Context

/-- The full form of a tag. A single exclamation mark asks for no meaning of its own. -/
def fullTag (x : Context) (t : Tag) : Except Fault (Option String) :=
  match t.handle with
  | none => .ok (if t.suffix = "!" then none else some t.suffix)
  | some handle =>
    match x.handles.find? (·.1 = handle) with
    | some e => .ok (some (e.2 ++ t.suffix))
    | none => .error .malformed

end Context

/-- The anchor and the tag before a node. -/
structure Properties where
  anchor : Option String := none
  tag : Option Tag := none

/-- Take anchor and tag, in either order. -/
def properties : List Token → Properties × List Token
  | .anchor a :: .tag t :: r => (⟨some a, some t⟩, r)
  | .anchor a :: r => (⟨some a, none⟩, r)
  | .tag t :: .anchor a :: r => (⟨some a, some t⟩, r)
  | .tag t :: r => (⟨none, some t⟩, r)
  | r => ({}, r)

/-- Remember a node under its anchor. -/
def State.keep (s : State) (anchor : Option String) (n : Node) : State :=
  match anchor with
  | some a => { s with anchors := (a, n) :: s.anchors }
  | none => s

/-- A scalar's meaning: that of its tag, else that of its form. A scalar in quotes is a text, unless
a bare exclamation mark is put before it. -/
def scalarMeaning (x : Context) (tag : Option Tag) (full : Option String) (plain : Bool)
    (text : String) : Meaning :=
  match full with
  | some t => Meaning.ofTag t
  | none => if plain || tag.isSome then plainMeaning x.version text else .text

/-- A collection's meaning: that of its tag, else the usual one. -/
def collectionMeaning (full : Option String) (usual : Meaning) : Meaning :=
  match full with
  | some t => Meaning.ofTag t
  | none => usual

/-- The node where nothing is written. -/
def empty : Node := .scalar .null ""

/-- Where a node stands. -/
inductive Position where
  | block
  /-- The key or value of a block mapping, whose entries may be indented no further. -/
  | entry
  | flow
  deriving DecidableEq, Repr

def isBlockEntryEnd : List Token → Bool
  | .blockEntry :: _ => true
  | .blockEnd :: _ => true
  | _ => false

def isIndentlessEntryEnd : List Token → Bool
  | .blockEntry :: _ => true
  | .key :: _ => true
  | .value :: _ => true
  | .blockEnd :: _ => true
  | _ => false

def isBlockPartEnd : List Token → Bool
  | .key :: _ => true
  | .value :: _ => true
  | .blockEnd :: _ => true
  | _ => false

def isFlowKeyEnd (close : Token) : List Token → Bool
  | t :: _ => t = .value || t = .flowEntry || t = close
  | [] => false

def isFlowValueEnd (close : Token) : List Token → Bool
  | t :: _ => t = .flowEntry || t = close
  | [] => false

mutual

/-- Read a node. -/
def read (x : Context) (pos : Position) (s : State) : Nat → Reading
  | 0 => .error .malformed
  | fuel + 1 =>
    match s.tokens with
    | .alias name :: r =>
      match s.anchors.find? (·.1 = name) with
      | some e => .ok (e.2, { s with tokens := r })
      | none => .error .malformed
    | tokens => do
      let (p, tokens) := properties tokens
      let full ← match p.tag with
        | some t => x.fullTag t
        | none => pure none
      let collect := fun (n : Node) (s : State) (read : State → Reading) =>
        (read (s.keep p.anchor n)).map fun r => (r.1, r.2.keep p.anchor r.1)
      let items := collectionMeaning full .sequence
      let entries := collectionMeaning full .mapping
      match tokens with
      | .blockEntry :: r =>
        if pos = .entry then
          collect (.sequence items []) { s with tokens := .blockEntry :: r } fun s =>
            readIndentless x items [] s fuel
        else nothing x p full { s with tokens := tokens }
      | .scalar text plain :: r =>
        let n := Node.scalar (scalarMeaning x p.tag full plain text) text
        return (n, { s with tokens := r }.keep p.anchor n)
      | .flowSequenceStart :: r =>
        collect (.sequence items []) { s with tokens := r } fun s =>
          readFlowItems x items [] s fuel
      | .flowMappingStart :: r =>
        collect (.mapping entries []) { s with tokens := r } fun s =>
          readFlowEntries x entries [] s fuel
      | .blockSequenceStart :: r =>
        if pos = .flow then nothing x p full { s with tokens := tokens }
        else
          collect (.sequence items []) { s with tokens := r } fun s =>
            readBlockItems x items [] s fuel
      | .blockMappingStart :: r =>
        if pos = .flow then nothing x p full { s with tokens := tokens }
        else
          collect (.mapping entries []) { s with tokens := r } fun s =>
            readBlockEntries x entries [] s fuel
      | _ => nothing x p full { s with tokens := tokens }

/-- A node of which only anchor or tag is written. -/
def nothing (x : Context) (p : Properties) (full : Option String) (s : State) : Reading :=
  if p.anchor.isNone && p.tag.isNone then .error .malformed
  else
    let n := Node.scalar (scalarMeaning x p.tag full true "") ""
    .ok (n, s.keep p.anchor n)

/-- Read a node unless it is left out. -/
def readUnless (x : Context) (pos : Position) (left : List Token → Bool) (s : State) :
    Nat → Reading
  | 0 => .error .malformed
  | fuel + 1 => if left s.tokens then .ok (empty, s) else read x pos s fuel

def readBlockItems (x : Context) (m : Meaning) (done : List Node) (s : State) : Nat → Reading
  | 0 => .error .malformed
  | fuel + 1 =>
    match s.tokens with
    | .blockEntry :: r => do
      let (n, s) ← readUnless x .block isBlockEntryEnd { s with tokens := r } fuel
      readBlockItems x m (n :: done) s fuel
    | .blockEnd :: r => .ok (.sequence m done.reverse, { s with tokens := r })
    | _ => .error .malformed

def readIndentless (x : Context) (m : Meaning) (done : List Node) (s : State) : Nat → Reading
  | 0 => .error .malformed
  | fuel + 1 =>
    match s.tokens with
    | .blockEntry :: r => do
      let (n, s) ← readUnless x .block isIndentlessEntryEnd { s with tokens := r } fuel
      readIndentless x m (n :: done) s fuel
    | _ => .ok (.sequence m done.reverse, s)

def readBlockEntries (x : Context) (m : Meaning) (done : List (Node × Node)) (s : State) :
    Nat → Reading
  | 0 => .error .malformed
  | fuel + 1 =>
    match s.tokens with
    | .key :: r => do
      let (k, s) ← readUnless x .entry isBlockPartEnd { s with tokens := r } fuel
      readBlockValue x m done k s fuel
    | .value :: _ =>
      if x.version = .current then readBlockValue x m done empty s fuel else .error .malformed
    | .blockEnd :: r => .ok (.mapping m done.reverse, { s with tokens := r })
    | _ => .error .malformed

/-- Read the value of an entry, if it is written. -/
def readBlockValue (x : Context) (m : Meaning) (done : List (Node × Node)) (k : Node)
    (s : State) : Nat → Reading
  | 0 => .error .malformed
  | fuel + 1 =>
    match s.tokens with
    | .value :: r => do
      let (v, s) ← readUnless x .entry isBlockPartEnd { s with tokens := r } fuel
      readBlockEntries x m ((k, v) :: done) s fuel
    | _ => readBlockEntries x m ((k, empty) :: done) s fuel

/-- Read the items of a flow sequence. An item may be a mapping of one entry without brackets. -/
def readFlowItems (x : Context) (m : Meaning) (done : List Node) (s : State) : Nat → Reading
  | 0 => .error .malformed
  | fuel + 1 => do
    let s ← match done, s.tokens with
      | [], _ => pure s
      | _, .flowEntry :: r => pure { s with tokens := r }
      | _, .flowSequenceEnd :: _ => pure s
      | _, _ => throw .malformed
    match s.tokens with
    | .flowSequenceEnd :: r => return (.sequence m done.reverse, { s with tokens := r })
    | .key :: r =>
      let (k, s) ← readUnless x .flow (isFlowKeyEnd .flowSequenceEnd) { s with tokens := r } fuel
      let (v, s) ← readFlowValue x .flowSequenceEnd s fuel
      readFlowItems x m (.mapping .mapping [(k, v)] :: done) s fuel
    | _ =>
      let (n, s) ← read x .flow s fuel
      readFlowItems x m (n :: done) s fuel

/-- Read the value of an entry of a flow collection, if it is written. -/
def readFlowValue (x : Context) (close : Token) (s : State) : Nat → Reading
  | 0 => .error .malformed
  | fuel + 1 =>
    match s.tokens with
    | .value :: r => readUnless x .flow (isFlowValueEnd close) { s with tokens := r } fuel
    | _ => .ok (empty, s)

def readFlowEntries (x : Context) (m : Meaning) (done : List (Node × Node)) (s : State) :
    Nat → Reading
  | 0 => .error .malformed
  | fuel + 1 => do
    let s ← match done, s.tokens with
      | [], _ => pure s
      | _, .flowEntry :: r => pure { s with tokens := r }
      | _, .flowMappingEnd :: _ => pure s
      | _, _ => throw .malformed
    match s.tokens with
    | .flowMappingEnd :: r => return (.mapping m done.reverse, { s with tokens := r })
    | .key :: r =>
      let (k, s) ← readUnless x .flow (isFlowKeyEnd .flowMappingEnd) { s with tokens := r } fuel
      let (v, s) ← readFlowValue x .flowMappingEnd s fuel
      readFlowEntries x m ((k, v) :: done) s fuel
    | .value :: _ =>
      if x.version = .current then
        let (v, s) ← readFlowValue x .flowMappingEnd s fuel
        readFlowEntries x m ((empty, v) :: done) s fuel
      else throw .malformed
    | _ =>
      let (n, s) ← read x .flow s fuel
      readFlowEntries x m ((n, empty) :: done) s fuel

end

/-! ## Documents -/

def plainHandles : List (String × String) := [("!", "!"), ("!!", Meaning.core)]

/-- Read the directives before a document: whether a version is given and the handles of tags. -/
def directives (given : Bool) (handles : List (String × String)) :
    List Token → Except Fault (List (String × String) × List Token)
  | .versionDirective major _ :: r =>
    if given || major ≠ 1 then .error .malformed else directives true handles r
  | .tagDirective handle replacement :: r =>
    if handles.any (·.1 = handle) then .error .malformed
    else directives given (handles ++ [(handle, replacement)]) r
  | .otherDirective :: r => directives given handles r
  | r => .ok (handles ++ plainHandles, r)

def isDirective : Token → Bool
  | .versionDirective .. => true
  | .tagDirective .. => true
  | .otherDirective => true
  | _ => false

/-- Whether nothing is written between the start of a document and its end. -/
def isDocumentEmpty : List Token → Bool
  | t :: _ => isDirective t || t = .documentStart || t = .documentEnd || t = .streamEnd
  | [] => true

/-- Nothing may follow the only document but the mark of its end. -/
def checkEnd (version : Version) (tokens : List Token) : Except Fault Unit :=
  let tokens := match version, tokens with
    | .older, ts => ts.dropWhile (· = .documentEnd)
    | .current, .documentEnd :: r => r
    | .current, ts => ts
  if tokens = [.streamEnd] then .ok () else .error .malformed

/-- The root of a document whose start is marked. -/
def ofMarked (version : Version) (fuel : Nat) (tokens : List Token) :
    Except Fault (Option Node) := do
  let (handles, tokens) ← directives false [] tokens
  match tokens with
  | .documentStart :: r =>
    if isDocumentEmpty r then
      checkEnd version r
      return some empty
    else
      let (n, s) ← read ⟨version, handles⟩ .block { tokens := r } fuel
      checkEnd version s.tokens
      return some n
  | _ => throw .malformed

/-- The root of the only document, if there is one. -/
def ofTokens (version : Version) (tokens : List Token) : Except Fault (Option Node) := do
  let fuel := 4 * tokens.length + 8
  let tokens := tokens.drop 1
  match tokens with
  | [.streamEnd] => return none
  | .documentStart :: _ => ofMarked version fuel tokens
  | t :: _ =>
    if isDirective t then ofMarked version fuel tokens
    else
      let (n, s) ← read ⟨version, plainHandles⟩ .block { tokens } fuel
      checkEnd version s.tokens
      return some n
  | [] => throw .malformed

end Node
end ConfigSteward.Yaml
