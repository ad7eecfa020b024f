import XmlOxydizer.Library.Forest
import XmlOxydizer.View

/-!
# Events, object pools and the capture buffer

What quick-xml hands to the parser, `error.rs` for the reader, the pools of
`reader/context.rs`, and `reader/capture.rs`.
-/

namespace XmlOxydizer

/-- The bytes are not valid UTF-8. -/
structure Utf8Error where
  deriving DecidableEq

/-- `quick_xml::Error`, as far as the parser can tell its kinds apart. -/
inductive XmlError
  | invalidAttr (message : String)
  | encoding
  | other (message : String)
  deriving DecidableEq

/-- `ReaderError`. -/
inductive ReaderError
  | xmlParse (source : XmlError)
  | io (message : String)
  | captureOverflow (path : String) (limit : ℕ)
  | rootMismatch (expected found : String)
  | utf8 (source : Utf8Error)
  deriving DecidableEq

/-- `std::str::from_utf8`. -/
def fromUtf8 (bytes : ByteArray) : Except Utf8Error String :=
  match String.fromUTF8? bytes with
  | some s => .ok s
  | none => .error ⟨⟩

/-- A raw attribute: the key and the value as they stand in the document. -/
structure Attribute where
  key : ByteArray
  value : ByteArray
  deriving DecidableEq

/-- The tag of a start or empty-element event. Reading the attributes can fail at any of
them. -/
structure BytesStart where
  name : ByteArray
  attributes : List (Except String Attribute)

/-- The text between two markup events. -/
structure BytesText where
  content : ByteArray
  deriving DecidableEq

/-- `BytesText::decode`, with the error as the parser converts it. -/
def BytesText.decode (text : BytesText) : Except ReaderError String :=
  (fromUtf8 text.content).mapError (fun _ => .xmlParse .encoding)

/-- The events that neither open nor close an element. -/
inductive LeafEvent
  | text (content : BytesText)
  | cData (content : BytesText)
  | generalRef (content : BytesText)
  | comment
  | decl
  | pi
  | docType
  deriving DecidableEq

/-- The events of the reader. `close` is `Event::End`, whose name the parser ignores, and
the end of an event list is `Event::Eof`. -/
abbrev Event := Markup.Token BytesStart LeafEvent

/-- `parse_attributes_into`: decodes the attributes of a tag behind those already in
`out`. -/
def parseAttributesInto : List (Except String Attribute) → List (String × String) →
    Except ReaderError (List (String × String))
  | [], out => .ok out
  | attr :: rest, out => do
    let attr ← attr.mapError (fun message => ReaderError.xmlParse (.invalidAttr message))
    let key ← (fromUtf8 attr.key).mapError ReaderError.utf8
    let value ← (fromUtf8 attr.value).mapError ReaderError.utf8
    parseAttributesInto rest (out ++ [(key, value)])

/-- The pool of recycled stack frames. -/
structure ContextPool where
  free : List NodeContext

namespace ContextPool

def new : ContextPool := ⟨[]⟩

/-- A recycled or new frame with the given values. -/
def acquire (self : ContextPool) (descriptorId : NodeId) (attrs : List (String × String))
    (index : UInt32) : NodeContext × ContextPool :=
  match self.free.getLast? with
  | some ctx =>
    ({ ctx with descriptorId, attrs, text := "", children := [], index }, ⟨self.free.dropLast⟩)
  | none => ({ descriptorId, attrs, text := "", children := [], index }, self)

def release (self : ContextPool) (ctx : NodeContext) : ContextPool :=
  ⟨self.free ++ [{ ctx with attrs := [], text := "", children := [] }]⟩

end ContextPool

/-- The pool of recycled attribute vectors. -/
structure AttrPool where
  free : List (List (String × String))

namespace AttrPool

def new : AttrPool := ⟨[]⟩

def acquire (self : AttrPool) : List (String × String) × AttrPool :=
  match self.free.getLast? with
  | some attrs => (attrs, ⟨self.free.dropLast⟩)
  | none => ([], self)

end AttrPool

/-- A node of a subtree under construction. -/
structure BuildNode where
  tag : String
  attrs : List (String × String)
  text : String
  children : List BuildNode

/-- `size_of::<BuildNode>()`: four fields of three words each. -/
def BuildNode.size : ℕ := 96

mutual

/-- `CaptureBuilder::build_arena_node`. -/
def buildArenaNode : BuildNode → SubtreeNode
  | ⟨tag, attrs, text, children⟩ => ⟨tag, attrs, text, buildArenaNodes children⟩

/-- The loop of `build_arena_node` over the children. -/
def buildArenaNodes : List BuildNode → List SubtreeNode
  | [] => []
  | child :: children => buildArenaNode child :: buildArenaNodes children

end

/-- The memory-limited buffer of a subtree capture. -/
structure CaptureBuilder where
  stack : List BuildNode
  memoryUsage : ℕ
  memoryLimit : ℕ
  pathForError : String

namespace CaptureBuilder

def new (limit : ℕ) (pathForError : String) : CaptureBuilder :=
  { stack := [], memoryUsage := 0, memoryLimit := limit, pathForError }

def checkLimit (self : CaptureBuilder) : Except ReaderError Unit :=
  if self.memoryUsage > self.memoryLimit then
    .error (.captureOverflow self.pathForError self.memoryLimit)
  else .ok ()

/-- The bytes that an element with this tag and these attributes is charged. -/
def elementSize (tag : String) (attrs : List (String × String)) : ℕ :=
  BuildNode.size + tag.utf8ByteSize +
    (attrs.map (fun (k, v) => k.utf8ByteSize + v.utf8ByteSize + 64)).sum

def startElement (self : CaptureBuilder) (tag : String) (attrs : List (String × String)) :
    Except ReaderError CaptureBuilder := do
  let self := { self with memoryUsage := self.memoryUsage + elementSize tag attrs }
  self.checkLimit
  return { self with stack := self.stack ++ [⟨tag, attrs, "", []⟩] }

/-- Pops the top node and hands it to its parent. The last node stays on the stack. -/
def endElement (self : CaptureBuilder) : Except Panic CaptureBuilder := do
  let node ← expect "unbalanced capture events" self.stack.getLast?
  let stack := self.stack.dropLast
  match stack.getLast? with
  | some parent =>
    return { self with
      stack := stack.dropLast ++ [{ parent with children := parent.children ++ [node] }] }
  | none => return { self with stack := stack ++ [node] }

def text (self : CaptureBuilder) (text : String) : Except ReaderError CaptureBuilder := do
  if text.isEmpty then return self
  let self := { self with memoryUsage := self.memoryUsage + text.utf8ByteSize }
  self.checkLimit
  match self.stack.getLast? with
  | some top =>
    let text := if top.text.isEmpty then text else top.text ++ text
    return { self with stack := self.stack.dropLast ++ [{ top with text }] }
  | none => return self

def finalize (self : CaptureBuilder) : Except Panic SubtreeNode := do
  let root ← expect "empty capture" self.stack.head?
  return buildArenaNode root

end CaptureBuilder

end XmlOxydizer
