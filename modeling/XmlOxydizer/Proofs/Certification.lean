import XmlOxydizer.Proofs.EvaluationTrace

/-!
# What `Ok` certifies

The loop ends with `Ok` whenever no event leads to an error. It compares no root element with
the root of the tree and does not ask at the end of the stream whether elements are open.
-/

namespace XmlOxydizer

open Markup

variable {R : Type}

/-- The tag of the root of a tree. -/
def DescriptorTree.rootTag (tree : DescriptorTree R) : String := (tree.desc ⟨0⟩).tag.str

/-- The first element of a stream of events. -/
def rootElement : List (Except XmlError Event) → Option BytesStart
  | .ok (.start tag) :: _ => some tag
  | .ok (.empty tag) :: _ => some tag
  | .ok _ :: events => rootElement events
  | _ => none

/-- Of a parse with this result, whose loop ended like this: `Ok` means that the root is the one declared
and that every element has been closed, with the evaluations that it is owed, and other streams are reported
as errors. -/
structure Certified [Rule R] (tree : DescriptorTree R) (events : List (Except XmlError Event))
    (loop : Flow R) (result : Except Stop Unit) : Prop where
  root : result = .ok () → ∃ tag, rootElement events = some tag ∧ tag.tagName = tree.rootTag
  closed : result = .ok () →
    ∃ ts s, events = ts.map .ok ∧ Spine.advanceAll [] ts = [] ∧ loop = .next s ∧ s.contextStack = [] ∧
      s.descriptorStack = [] ∧ s.skipDepth = 0 ∧ s.mode = .streaming ∧ s.out.evaluated.map Evaluation.call =
        (Spine.closings [] ts).flatMap (fun c => owedCalls tree (closingTags c))
  foreign : ∀ tag, rootElement events = some tag → tag.nameFault = none → tag.tagName ≠ tree.rootTag →
    result = .error (.error (.rootMismatch tree.rootTag tag.tagName))
  truncated : ∀ ts, events = ts.map .ok → Spine.advanceAll [] ts ≠ [] → ∃ e, result = .error (.error e)

/-- A parse of `parse_file` certifies its document. -/
def FileCertified [Rule R] (checks : OverflowChecks) (tree : DescriptorTree R)
    (events : List (Except XmlError Event)) : Prop :=
  Certified tree events (eventLoop checks tree events .init) (parseFile checks tree events).result

/-- A parse of `parse_slice` certifies the document that is read from the data. -/
def SliceCertified [Rule R] (checks : OverflowChecks) (tree : DescriptorTree R)
    (read : String → List (Except XmlError Event)) (data : ByteArray) (text : String) : Prop :=
  Certified tree (read text) (sliceLoop checks tree (read text) .init) (parseSlice checks tree read data).result

/-- The first element, if there is one and its name can be decoded, is the root of the tree. -/
def RootMatches (tree : DescriptorTree R) (events : List (Except XmlError Event)) : Prop :=
  ∀ tag, rootElement events = some tag → tag.nameFault = none → tag.tagName = tree.rootTag

/-- There is an element, and at the end of the stream every element is closed. -/
def RootCloses (events : List (Except XmlError Event)) : Prop :=
  (∃ tag, rootElement events = some tag) ∧ ∃ ts, events = ts.map .ok ∧ Spine.advanceAll [] ts = []

section Faults

variable {tree : DescriptorTree R}

lemma nameFault_ne (tag : BytesStart) (a b : String) : tag.nameFault ≠ some (.rootMismatch a b) := by
  unfold BytesStart.nameFault
  split <;> simp

lemma attrsFault_ne (tag : BytesStart) (a b : String) : tag.attrsFault ≠ some (.rootMismatch a b) := by
  intro h
  obtain ⟨attr, -, hattr⟩ := List.exists_of_findSome?_eq_some h
  unfold attributeFault at hattr
  repeat' split at hattr
  all_goals simp at hattr

variable (tree) in
lemma overflowFault_ne (id : NodeId) (cost : ℕ) (a b : String) :
    overflowFault tree id cost ≠ some (.rootMismatch a b) := by
  unfold overflowFault
  split <;> simp

lemma leafEventFault_ne (leaf : LeafEvent) (a b : String) : leaf.fault ≠ some (.rootMismatch a b) := by
  unfold LeafEvent.fault
  repeat' split
  all_goals simp

lemma orElse_ne {ε : Type} {x y : Option ε} {e : ε} (hx : x ≠ some e) (hy : y ≠ some e) :
    (x <|> y) ≠ some e := by
  cases x with
  | none => exact hy
  | some e' => exact hx

lemma startFault_ne (z : OpenElements) (tag : BytesStart) (a b : String) :
    startFault tree z tag ≠ some (.rootMismatch a b) := by
  have hname := nameFault_ne tag a b
  have hattrs := attrsFault_ne tag a b
  have hover := fun id cost => overflowFault_ne tree id cost a b
  have hnone : (none : Option ReaderError) ≠ some (.rootMismatch a b) := nofun
  unfold startFault
  split
  · exact orElse_ne hname (orElse_ne hattrs (hover _ _))
  · dsimp only
    split
    · exact hnone
    · refine orElse_ne hname ?_
      split
      · exact hnone
      · refine orElse_ne ?_ ?_
        · split
          · exact hattrs
          · exact hnone
        · split
          · exact hover _ _
          · exact hnone

lemma leafFault_ne (z : OpenElements) (leaf : LeafEvent) (a b : String) :
    leafFault tree z leaf ≠ some (.rootMismatch a b) := by
  have hleaf := leafEventFault_ne leaf a b
  unfold leafFault
  split
  · exact orElse_ne hleaf (overflowFault_ne tree _ _ a b)
  · dsimp only
    split
    · nofun
    · split
      · exact hleaf
      · nofun

lemma fault_ne (z : OpenElements) (tok : Event) (a b : String) :
    fault tree z tok ≠ some (.rootMismatch a b) := by
  cases tok with
  | start tag => exact startFault_ne z tag a b
  | empty tag => exact startFault_ne z tag a b
  | close => nofun
  | leaf leaf => exact leafFault_ne z leaf a b

/-- No event is reported as a foreign root. -/
lemma eventFault_ne (z : OpenElements) (event : Except XmlError Event) (a b : String) :
    eventFault tree z event ≠ some (.rootMismatch a b) := by
  cases event with
  | error e => simp [eventFault]
  | ok tok => exact fault_ne z tok a b

/-- The name of the root element is always decoded. -/
lemma rootElement_readable {events : List (Except XmlError Event)} {tag : BytesStart}
    (hroot : rootElement events = some tag) (hfault : firstFault tree [] events = none) :
    tag.nameFault = none := by
  have hstart : ∀ tag, startFault tree [] tag = none → tag.nameFault = none := by
    intro tag h
    simp only [startFault, DescriptorTree.openCapture] at h
    cases hname : tag.nameFault with
    | none => rfl
    | some e => rw [hname] at h; cases h
  induction events with
  | nil => cases hroot
  | cons event events ih =>
    cases event with
    | error e => cases hroot
    | ok tok =>
      simp only [firstFault, Option.orElse_eq_none] at hfault
      cases tok with
      | start tag' =>
        obtain rfl : tag' = tag := Option.some.inj hroot
        exact hstart _ hfault.1
      | empty tag' =>
        obtain rfl : tag' = tag := Option.some.inj hroot
        exact hstart _ hfault.1
      | close => exact ih hroot hfault.2
      | leaf leaf => exact ih hroot hfault.2

end Faults

lemma Follows.at_end {tree : DescriptorTree R} {s : ParserState R} (h : Follows tree [] s) :
    s.contextStack = [] ∧ s.descriptorStack = [] ∧ s.skipDepth = 0 ∧ s.mode = .streaming := by
  obtain ⟨levels, rest, hz, htracks⟩ := h
  obtain ⟨hlevels, rfl⟩ := List.append_eq_nil_iff.mp hz
  obtain rfl := List.map_eq_nil_iff.mp hlevels
  cases htracks.mode_ok with
  | streaming _ hmode hskip =>
    exact ⟨htracks.contextStack_eq, htracks.descriptorStack_eq, hskip, hmode⟩
  | capturing ls l _ hlevels => simp at hlevels

section

variable [Rule R] {checks : OverflowChecks} {tree : DescriptorTree R}
  {events : List (Except XmlError Event)}

lemma certified_of (hwf : tree.WellFormed)
    (hreturns : ∀ p, (parseFile checks tree events).result ≠ .error (.panic p))
    (hroot : RootMatches tree events) (hcloses : firstFault tree [] events ≠ none ∨ RootCloses events) :
    FileCertified checks tree events := by
  have hforeign : ∀ tag, rootElement events = some tag → tag.nameFault = none →
      tag.tagName ≠ tree.rootTag → False := fun tag htag hname hne => hne (hroot tag htag hname)
  have hparse := parseFile_ok checks hwf events
  unfold FileCertified
  generalize parseFile checks tree events = o at hparse hreturns ⊢
  cases hparse with
  | panicked p => exact absurd rfl (hreturns p)
  | failed e ts bad rest groups out hevents =>
    constructor
    case root => nofun
    case closed => nofun
    case foreign => exact fun tag htag hname hne => (hforeign tag htag hname hne).elim
    case truncated => exact fun _ _ _ => ⟨e, rfl⟩
  | finished ts s groups hevents hrun hfollows hgroups hout hbuffered hfault =>
    obtain ⟨⟨tag, htag⟩, ts', hevents', hclosed⟩ := hcloses.resolve_left (absurd hfault)
    obtain rfl : ts = ts' :=
      List.map_injective_iff.mpr (fun _ _ h => Except.ok.inj h) (hevents.symm.trans hevents')
    constructor
    case root => exact fun _ => ⟨tag, htag, hroot tag htag (rootElement_readable htag hfault)⟩
    case closed =>
      rw [hclosed] at hfollows
      obtain ⟨hcontexts, hdescriptors, hskip, hmode⟩ := hfollows.at_end
      refine fun _ => ⟨ts, s, hevents, hclosed, hrun, hcontexts, hdescriptors, hskip, hmode, ?_⟩
      rw [hout, calls_of_groups hwf hgroups]
    case foreign => exact fun tag htag hname hne => (hforeign tag htag hname hne).elim
    case truncated =>
      intro us hus hopen
      obtain rfl : ts = us :=
        List.map_injective_iff.mpr (fun _ _ h => Except.ok.inj h) (hevents.symm.trans hus)
      exact absurd hclosed hopen

lemma rootMatches_of (hwf : tree.WellFormed) (h : FileCertified checks tree events) :
    RootMatches tree events := by
  intro tag htag hname
  by_contra hne
  have hmismatch := h.foreign tag htag hname hne
  have hparse := parseFile_ok checks hwf events
  generalize parseFile checks tree events = o at hparse hmismatch
  cases hparse with
  | finished => cases hmismatch
  | panicked => cases hmismatch
  | failed e ts bad rest groups out hevents hgroups hout hbuffered hbad =>
    obtain rfl : e = _ := Abort.error.inj (Except.error.inj hmismatch)
    exact eventFault_ne _ bad _ _ hbad

lemma rootCloses_of (hwf : tree.WellFormed)
    (hreturns : ∀ p, (parseFile checks tree events).result ≠ .error (.panic p))
    (h : FileCertified checks tree events) (hfault : firstFault tree [] events = none) :
    RootCloses events := by
  have hok : (parseFile checks tree events).result = .ok () := by
    have hparse := parseFile_ok checks hwf events
    generalize parseFile checks tree events = o at hparse hreturns
    cases hparse with
    | finished => rfl
    | panicked p => exact absurd rfl (hreturns p)
    | failed e ts bad rest groups out hevents hgroups hout hbuffered hbad hfault' =>
      rw [hfault] at hfault'
      cases hfault'
  obtain ⟨tag, htag, -⟩ := h.root hok
  obtain ⟨ts, s, hevents, hclosed, -⟩ := h.closed hok
  exact ⟨⟨tag, htag⟩, ts, hevents, hclosed⟩

end

/-- A parse that returns certifies a document exactly when the first element is the root of
the tree and either an event leads to an error or there is an element and all are closed. The same holds
of data in memory. -/
theorem certified_iff [Rule R] (t : BuiltTree R) (checks : OverflowChecks)
    (events : List (Except XmlError Event))
    (hreturns : ∀ p, (parseFile checks t.tree events).result ≠ .error (.panic p)) :
    (FileCertified checks t.tree events ↔
      RootMatches t.tree events ∧ (firstFault t.tree [] events ≠ none ∨ RootCloses events)) ∧
    ∀ read data text, fromUtf8 data = .ok text → read text = events →
      (SliceCertified checks t.tree read data text ↔
        RootMatches t.tree events ∧ (firstFault t.tree [] events ≠ none ∨ RootCloses events)) := by
  have hwf := t.wellFormed
  have hfile : FileCertified checks t.tree events ↔
      RootMatches t.tree events ∧ (firstFault t.tree [] events ≠ none ∨ RootCloses events) := by
    refine ⟨fun h => ⟨rootMatches_of hwf h, ?_⟩, fun h => certified_of hwf hreturns h.1 h.2⟩
    by_cases hfault : firstFault t.tree [] events = none
    · exact .inr (rootCloses_of hwf hreturns h hfault)
    · exact .inl hfault
  refine ⟨hfile, fun read data text htext hread => ?_⟩
  rw [SliceCertified, sliceLoop_eq, parseSlice_valid htext, hread]
  exact hfile

/-- A foreign root and an element that is not closed are both accepted. -/
theorem not_certified :
    ¬ FileCertified .checked sampleTree.tree [.ok (.empty (tagNamed "order" []))] ∧
      ¬ FileCertified .checked sampleTree.tree [.ok (.start (tagNamed "list" []))] := by
  refine ⟨fun h => ?_, fun h => ?_⟩
  · obtain ⟨tag, htag, hname⟩ := h.root rfl
    obtain rfl := Option.some.inj htag
    exact absurd hname (by decide +kernel)
  · obtain ⟨e, he⟩ := h.truncated [.start (tagNamed "list" [])] rfl (by simp)
    cases he

/-- The sample document is certified. -/
theorem certified_iff_sample : FileCertified .checked sampleTree.tree (sampleDocument.tokens.map .ok) := by
  have hok : (parseFile .checked sampleTree.tree (sampleDocument.tokens.map .ok)).result = .ok () := rfl
  have hclosed : Spine.advanceAll [] sampleDocument.tokens = [] :=
    Spine.advanceAll_writes (writes_tokens sampleDocument) []
  refine (certified_iff sampleTree .checked (sampleDocument.tokens.map .ok) ?_).1.mpr
    ⟨?_, .inr ⟨⟨_, rfl⟩, _, rfl, hclosed⟩⟩
  · rw [hok]
    nofun
  · intro tag htag _
    obtain rfl := Option.some.inj htag
    decide +kernel

end XmlOxydizer
