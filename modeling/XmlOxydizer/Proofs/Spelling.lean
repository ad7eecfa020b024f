import XmlOxydizer.Proofs.Readings

/-!
# The spelling of character data

One text can be spelled as plain characters, as a CDATA section or with references, and an
attribute value with references. The parser reads the plain characters of the text and the raw
attribute values, so that its rules can tell two spellings apart.
-/

namespace XmlOxydizer

open Markup

variable {R : Type}

/-! ### References -/

/-- The value of a digit in this base. -/
def digit (base : ℕ) (c : Char) : Option ℕ :=
  let d :=
    if c.isDigit then c.toNat - '0'.toNat
    else if 'a' ≤ c ∧ c ≤ 'f' then c.toNat - 'a'.toNat + 10
    else if 'A' ≤ c ∧ c ≤ 'F' then c.toNat - 'A'.toNat + 10
    else base
  if d < base then some d else none

/-- The character with this number. -/
def numbered (base : ℕ) (digits : List Char) : Option Char := do
  if digits.isEmpty then none
  let n ← digits.foldlM (fun n c => (digit base c).map (base * n + ·)) 0
  if n ≠ 0 ∧ n.isValidChar then some (Char.ofNat n) else none

/-- The character that a reference of this name stands for. -/
def resolveReference (name : String) : Option Char :=
  if name = "lt" then some '<'
  else if name = "gt" then some '>'
  else if name = "amp" then some '&'
  else if name = "apos" then some (Char.ofNat 0x27)
  else if name = "quot" then some (Char.ofNat 0x22)
  else
    match name.toList with
    | '#' :: 'x' :: digits => numbered 16 digits
    | '#' :: digits => numbered 10 digits
    | _ => none

/-- The characters that an attribute value stands for, behind the `&` of a reference whose name has
begun or outside references. -/
def unescapeFrom : Option (List Char) → List Char → Option (List Char)
  | none, [] => some []
  | some _, [] => none
  | none, c :: cs =>
    if c = '&' then unescapeFrom (some []) cs else (unescapeFrom none cs).map (c :: ·)
  | some name, c :: cs =>
    if c = ';' then do
      let char ← resolveReference (String.ofList name)
      let rest ← unescapeFrom none cs
      return char :: rest
    else unescapeFrom (some (name ++ [c])) cs

/-- The attribute value that is escaped in this way. -/
def unescape (raw : String) : Option String := (unescapeFrom none raw.toList).map String.ofList

/-! ### Two spellings of one document -/

/-- A piece of character data as a document spells it. -/
inductive Piece
  | chars (data : String)
  | cData (data : String)
  | reference (name : String)

/-- The characters that a piece stands for. -/
def Piece.data : Piece → Option String
  | .chars data => some data
  | .cData data => some data
  | .reference name => (resolveReference name).map fun c => String.ofList [c]

/-- The characters that a run of pieces stands for. -/
def characters : List Piece → Option String
  | [] => some ""
  | piece :: run => do return (← piece.data) ++ (← characters run)

/-- The events that quick-xml hands out for a run of pieces. Of the plain characters it can cut white
space at both ends. -/
inductive Delivers : List Piece → List LeafEvent → Prop
  | nil : Delivers [] []
  | chars {run : List Piece} {leaves : List LeafEvent} (before data after : String)
      (hbefore : before.all Char.isWhitespace = true) (hafter : after.all Char.isWhitespace = true)
      (rest : Delivers run leaves) :
      Delivers (.chars (before ++ data ++ after) :: run) (.text ⟨data.toUTF8⟩ :: leaves)
  | white {run : List Piece} {leaves : List LeafEvent} (data : String)
      (hdata : data.all Char.isWhitespace = true) (rest : Delivers run leaves) :
      Delivers (.chars data :: run) leaves
  | cData {run : List Piece} {leaves : List LeafEvent} (data : String) (rest : Delivers run leaves) :
      Delivers (.cData data :: run) (.cData ⟨data.toUTF8⟩ :: leaves)
  | reference {run : List Piece} {leaves : List LeafEvent} (name : String) (rest : Delivers run leaves) :
      Delivers (.reference name :: run) (.generalRef ⟨name.toUTF8⟩ :: leaves)

/-- Two attributes that are the same, or have values that are escaped differently. -/
inductive SameAttribute : Except String Attribute → Except String Attribute → Prop
  | same (attr : Except String Attribute) : SameAttribute attr attr
  | escaped (key : ByteArray) {raw raw' value : String} (h : unescape raw = some value)
      (h' : unescape raw' = some value) :
      SameAttribute (.ok ⟨key, raw.toUTF8⟩) (.ok ⟨key, raw'.toUTF8⟩)

/-- Two tags that differ only in how attribute values are escaped. -/
structure SameTag (tag tag' : BytesStart) : Prop where
  name_eq : tag.name = tag'.name
  attributes : List.Forall₂ SameAttribute tag.attributes tag'.attributes

/-- Two documents that differ only in how the same character data is spelled and the same attribute
values are escaped, as quick-xml hands them out. The first syntax error ends both. A comment or a processing
instruction ends a run, so that it stands in both documents or in neither. -/
inductive SameSpelling : List (Except XmlError Event) → List (Except XmlError Event) → Prop
  | nil : SameSpelling [] []
  | broken (e : XmlError) (events events' : List (Except XmlError Event)) :
      SameSpelling (.error e :: events) (.error e :: events')
  | start {tag tag' : BytesStart} {events events' : List (Except XmlError Event)} (h : SameTag tag tag')
      (rest : SameSpelling events events') :
      SameSpelling (.ok (.start tag) :: events) (.ok (.start tag') :: events')
  | empty {tag tag' : BytesStart} {events events' : List (Except XmlError Event)} (h : SameTag tag tag')
      (rest : SameSpelling events events') :
      SameSpelling (.ok (.empty tag) :: events) (.ok (.empty tag') :: events')
  | close {events events' : List (Except XmlError Event)} (rest : SameSpelling events events') :
      SameSpelling (.ok .close :: events) (.ok .close :: events')
  | leaf (leaf : LeafEvent) {events events' : List (Except XmlError Event)}
      (rest : SameSpelling events events') :
      SameSpelling (.ok (.leaf leaf) :: events) (.ok (.leaf leaf) :: events')
  | run {run run' : List Piece} {leaves leaves' : List LeafEvent} {data : String}
      {events events' : List (Except XmlError Event)} (h : characters run = some data)
      (h' : characters run' = some data) (hdelivers : Delivers run leaves)
      (hdelivers' : Delivers run' leaves') (rest : SameSpelling events events') :
      SameSpelling (leaves.map (fun leaf => .ok (.leaf leaf)) ++ events)
        (leaves'.map (fun leaf => .ok (.leaf leaf)) ++ events')

lemma SameTag.tagName_eq {tag tag' : BytesStart} (h : SameTag tag tag') : tag.tagName = tag'.tagName := by
  unfold BytesStart.tagName
  rw [h.name_eq]

lemma SameMarkup.leaves {events events' : List (Except XmlError Event)} (h : SameMarkup events events')
    (leaves leaves' : List LeafEvent) :
    SameMarkup (leaves.map (fun leaf => .ok (.leaf leaf)) ++ events)
      (leaves'.map (fun leaf => .ok (.leaf leaf)) ++ events') := by
  induction leaves with
  | cons leaf leaves ih => exact .leaf_left ih
  | nil =>
    induction leaves' with
    | cons leaf leaves' ih => exact .leaf_right ih
    | nil => exact h

/-- Two spellings of one document have the same tags. -/
lemma SameSpelling.sameMarkup {events events' : List (Except XmlError Event)}
    (h : SameSpelling events events') : SameMarkup events events' := by
  induction h with
  | nil => exact .nil
  | broken e events events' => exact .broken e e events events'
  | start h _ ih => exact .token (.start h.tagName_eq) ih
  | empty h _ ih => exact .token (.empty h.tagName_eq) ih
  | close _ ih => exact .token .close ih
  | leaf leaf _ ih => exact .leaf_left (.leaf_right ih)
  | run h h' hdelivers hdelivers' _ ih => exact ih.leaves _ _

/-! ### What the rules can tell apart -/

/-- The same rules are evaluated on equal views, and the same diagnostics are sent. A view is all that a rule
can read, the elements around included. -/
structure SeenAlike [Rule R] (checks : OverflowChecks) (tree : DescriptorTree R)
    (events events' : List (Except XmlError Event)) : Prop where
  evaluated_eq : (parseFile checks tree events).out.evaluated = (parseFile checks tree events').out.evaluated
  sent_eq : (parseFile checks tree events).out.sent = (parseFile checks tree events').out.sent

section

variable [Rule R] {checks : OverflowChecks} {tree : DescriptorTree R}
  {events events' : List (Except XmlError Event)}

/-- Two parses that have made the same evaluations have sent the same, unless an error keeps one of
them from sending its last diagnostics. -/
lemma sent_eq_iff_faults (hwf : tree.WellFormed)
    (hreturns : ∀ p, (parseFile checks tree events).result ≠ .error (.panic p))
    (hreturns' : ∀ p, (parseFile checks tree events').result ≠ .error (.panic p))
    (hevaluated : (parseFile checks tree events).out.evaluated =
      (parseFile checks tree events').out.evaluated) :
    (parseFile checks tree events).out.sent = (parseFile checks tree events').out.sent ↔
      (firstFault tree [] events = none ↔ firstFault tree [] events' = none) ∨
        diagBufferDefault ∣ (dueDiagnostics checks tree events).length := by
  rw [← evaluated_due hwf hreturns, ← returnedDiagnostics]
  have hdiags : returnedDiagnostics checks tree events' = returnedDiagnostics checks tree events := by
    unfold returnedDiagnostics
    rw [hevaluated]
  have hblocks := take_blocks_eq_iff (returnedDiagnostics checks tree events) diagBufferDefault
  have hsent := sent_cases hwf hreturns
  have hsent' := sent_cases hwf hreturns'
  rw [hdiags] at hsent'
  rcases hsent with ⟨hfault, hsent⟩ | ⟨hfault, hsent⟩ <;>
    rcases hsent' with ⟨hfault', hsent'⟩ | ⟨hfault', hsent'⟩
  · simp [hsent, hsent', hfault, hfault']
  · rw [hsent, hsent', eq_comm, hblocks]
    simp [hfault, hfault']
  · rw [hsent, hsent', hblocks]
    simp [hfault, hfault']
  · simp [hsent, hsent', hfault, hfault']

end

/-- Two spellings of one document are seen alike exactly when the elements with rules show the same plain
characters and raw attribute values until the first error, and an error in only one of them keeps no
diagnostics from being sent. -/
theorem spelling_blind_iff [Rule R] (t : BuiltTree R) (checks : OverflowChecks)
    (events events' : List (Except XmlError Event)) (h : SameSpelling events events')
    (hreturns : ∀ p, (parseFile checks t.tree events).result ≠ .error (.panic p))
    (hreturns' : ∀ p, (parseFile checks t.tree events').result ≠ .error (.panic p)) :
    SeenAlike checks t.tree events events' ↔
      readings t.tree [] events = readings t.tree [] events' ∧
        ((firstFault t.tree [] events = none ↔ firstFault t.tree [] events' = none) ∨
          diagBufferDefault ∣ (dueDiagnostics checks t.tree events).length) := by
  have hwf := t.wellFormed
  have hevaluated := h.sameMarkup.evaluated_iff hwf (returns_of_parseFile hreturns)
    (returns_of_parseFile hreturns')
  rw [← parseFile_evaluated, ← parseFile_evaluated] at hevaluated
  rw [← hevaluated]
  constructor
  · rintro ⟨heq, hsent⟩
    exact ⟨heq, (sent_eq_iff_faults hwf hreturns hreturns' heq).mp hsent⟩
  · rintro ⟨heq, hfaults⟩
    exact ⟨heq, (sent_eq_iff_faults hwf hreturns hreturns' heq).mpr hfaults⟩

/-- A list with one item that holds these leaves. -/
def itemHolding (leaves : List LeafEvent) : List (Except XmlError Event) :=
  [.ok (.start (tagNamed "list" [])), .ok (.start (tagNamed "item" []))] ++
    (leaves.map (fun leaf => .ok (.leaf leaf)) ++ [.ok .close, .ok .close])

/-- Two runs of pieces for the same characters inside an item. -/
lemma sameSpelling_item (data : String) {run run' : List Piece} {leaves leaves' : List LeafEvent}
    (h : characters run = some data) (h' : characters run' = some data) (hdelivers : Delivers run leaves)
    (hdelivers' : Delivers run' leaves') : SameSpelling (itemHolding leaves) (itemHolding leaves') := by
  have hrest : SameSpelling [.ok .close, .ok .close] [.ok .close, .ok .close] := .close (.close .nil)
  have htag : ∀ name, SameTag (tagNamed name []) (tagNamed name []) := fun name => ⟨rfl, .nil⟩
  exact .start (htag "list") (.start (htag "item") (.run h h' hdelivers hdelivers' hrest))

lemma delivers_chars (data : String) {run : List Piece} {leaves : List LeafEvent} (h : Delivers run leaves) :
    Delivers (.chars data :: run) (.text ⟨data.toUTF8⟩ :: leaves) := by
  have hplain := Delivers.chars "" data "" (by simp) (by simp) h
  rwa [String.empty_append, String.append_empty] at hplain

/-- The rules of the item see its plain characters and not those of a CDATA section. -/
theorem not_spelling_blind :
    SameSpelling (itemHolding [.text ⟨"a".toUTF8⟩]) (itemHolding [.cData ⟨"a".toUTF8⟩]) ∧
      ¬ SeenAlike .checked sampleTree.tree (itemHolding [.text ⟨"a".toUTF8⟩])
        (itemHolding [.cData ⟨"a".toUTF8⟩]) := by
  refine ⟨sameSpelling_item "a" (by decide) (by decide) (delivers_chars "a" .nil)
    (.cData "a" .nil), fun h => ?_⟩
  have hsent := congrArg (List.map Diagnostic.message) h.sent_eq
  revert hsent
  decide +kernel

/-- Two characters are seen alike in one piece and in two. -/
theorem spelling_blind_iff_sample :
    SeenAlike .checked sampleTree.tree (itemHolding [.text ⟨"ab".toUTF8⟩])
      (itemHolding [.text ⟨"a".toUTF8⟩, .text ⟨"b".toUTF8⟩]) := by
  have hsame := sameSpelling_item "ab" (by decide) (by decide) (delivers_chars "ab" .nil)
    (delivers_chars "a" (delivers_chars "b" .nil))
  have hok : ∀ events : List (Except XmlError Event),
      (parseFile .checked sampleTree.tree events).result = .ok () →
      ∀ p, (parseFile .checked sampleTree.tree events).result ≠ .error (.panic p) := by
    intro events hok p hp
    rw [hok] at hp
    cases hp
  exact (spelling_blind_iff sampleTree .checked _ _ hsame (hok _ rfl) (hok _ rfl)).mpr
    ⟨rfl, .inl (by decide +kernel)⟩

end XmlOxydizer
