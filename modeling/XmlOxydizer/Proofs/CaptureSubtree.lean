import XmlOxydizer.Proofs.DataAccess
import XmlOxydizer.Proofs.ResultBits

/-!
# Captured subtrees

An element of a capture node is buffered from its start to its end. Its rules then see the
mini-DOM of the element, and apart from the summary that it leaves and the counter of its
tag the state is what it was before. A build with overflow checks panics instead where the counter
is full or a rule beyond the 64th passes.
-/

namespace XmlOxydizer

open Markup

variable {R : Type}

section

variable [Rule R] {checks : OverflowChecks} {tree : DescriptorTree R} {id : NodeId}
  {zs : OpenElements} {b : CaptureBuilder} {s : ParserState R}

/-- The state with another capture buffer. -/
def withBuilder (s : ParserState R) (b : CaptureBuilder) (depth : ℕ) (id : NodeId) (i : ℕ) :
    ParserState R :=
  { s with mode := .capturing b depth id i }

/-- A state inside a capture, `depth` elements deep. -/
structure InCapture (tree : DescriptorTree R) (s : ParserState R) (zs : OpenElements) (id : NodeId)
    (b : CaptureBuilder) (depth i : ℕ) : Prop where
  mode_eq : s.mode = .capturing b depth id i
  skip_eq : s.skipDepth = 0
  pool_eq : s.attrPool.free = []
  builder_ok : BuilderOk tree id zs b

omit [Rule R] in
lemma InCapture.withBuilder {depth i : ℕ} (h : InCapture tree s zs id b depth i) {ws : OpenElements}
    {b' : CaptureBuilder} (hb' : BuilderOk tree id ws b') (depth' : ℕ) :
    InCapture tree (withBuilder s b' depth' id i) ws id b' depth' i :=
  ⟨rfl, h.skip_eq, h.pool_eq, hb'⟩

variable (checks) in
omit [Rule R] in
/-- An element opens inside a capture, or the loop ends with the fault of its tag. -/
lemma capture_start {depth i : ℕ} (h : InCapture tree s zs id b depth i) (tag : BytesStart) :
    (captureFault tree id (spineCost zs) (.start tag) = none ∧
      ∃ b', handleStart checks tree tag s = .ok (withBuilder s b' (depth + 1) id i) ∧
        BuilderOk tree id (zs ++ [⟨tag, .nil⟩]) b') ∨
    ∃ e, captureFault tree id (spineCost zs) (.start tag) = some e ∧
      handleStart checks tree tag s = .error (.error e) := by
  simp only [handleStart, h.skip_eq, gt_iff_lt, lt_irrefl, if_false, h.mode_eq, fromUtf8_name,
    AttrPool.acquire, h.pool_eq, List.getLast?_nil, parseAttributes_eq, captureFault, decodeFault, tokenCost]
  cases hn : tag.nameFault with
  | some e => exact .inr ⟨e, rfl, rfl⟩
  | none =>
    cases ha : tag.attrsFault with
    | some e => exact .inr ⟨e, rfl, rfl⟩
    | none =>
      have hstart := h.builder_ok.startElement tag ⟨hn, ha⟩
      simp only [orError_ok, ok_bind]
      generalize b.startElement tag.tagName tag.attrs = r at hstart ⊢
      cases hstart with
      | overflow e he => exact .inr ⟨e, he, rfl⟩
      | ok b' hb' hnone => exact .inl ⟨hnone, b', by simp [withBuilder, h.skip_eq], hb'⟩

variable (checks) in
/-- An inner element closes inside a capture. -/
lemma capture_end {depth i : ℕ} {f : Frame BytesStart LeafEvent}
    (h : InCapture tree s (zs ++ [f]) id b (depth + 1) i) (hdepth : 0 < depth) (hzs : zs ≠ []) :
    ∃ b', handleEnd checks tree s = .next (withBuilder s b' depth id i) ∧
      BuilderOk tree id (zs.extend (.element f.label f.content .nil)) b' := by
  obtain ⟨b', hend, hb'⟩ := h.builder_ok.endElement _ hzs
  refine ⟨b', ?_, hb'⟩
  simp [handleEnd, h.skip_eq, h.mode_eq, usizeSub, Flow.attempt, hend, withBuilder,
    Nat.pos_iff_ne_zero.mp hdepth]

variable (checks) in
/-- A leaf inside a capture. -/
lemma capture_leaf {depth i : ℕ} (h : InCapture tree s zs id b depth i) (hzs : zs ≠ [])
    (leaf : LeafEvent) :
    (captureFault tree id (spineCost zs) (.leaf leaf) = none ∧
      ∃ b', step checks tree (.leaf leaf) s = .next (withBuilder s b' depth id i) ∧
        BuilderOk tree id (zs.extend (.leaf leaf .nil)) b') ∨
    ∃ e, captureFault tree id (spineCost zs) (.leaf leaf) = some e ∧
      step checks tree (.leaf leaf) s = .stop (.error e) s.out := by
  have hsame : withBuilder s b depth id i = s := by rw [withBuilder, ← h.mode_eq]
  have hnone : leaf.chars = "" → leaf.fault = none →
      captureFault tree id (spineCost zs) (.leaf leaf) = none := by
    intro hblank hfault
    simpa [captureFault, decodeFault, tokenCost, hfault, hblank] using h.builder_ok.overflowFault_eq_none
  have hblank : leaf.chars = "" → leaf.fault = none →
      BuilderOk tree id (zs.extend (.leaf leaf .nil)) b :=
    fun hblank hfault => h.builder_ok.extend_blank hzs hfault hblank
  -- all leaves but texts are skipped
  have hother : leaf.chars = "" → leaf.fault = none → step checks tree (.leaf leaf) s = .next s →
      captureFault tree id (spineCost zs) (.leaf leaf) = none ∧
      ∃ b', step checks tree (.leaf leaf) s = .next (withBuilder s b' depth id i) ∧
        BuilderOk tree id (zs.extend (.leaf leaf .nil)) b' :=
    fun hchars hfault hstep => ⟨hnone hchars hfault, b, by rw [hsame, hstep], hblank hchars hfault⟩
  cases leaf with
  | text content =>
    have htext : handleText tree content s = (do
        let decoded ← orError content.decode
        if decoded.isEmpty then return s
        let b ← orError (b.text decoded)
        return withBuilder s b depth id i) := by
      simp only [handleText, h.skip_eq, if_true, h.mode_eq, withBuilder]
    simp only [step, htext, decode_eq]
    cases hf : (LeafEvent.text content).fault with
    | some e => exact .inr ⟨e, by simp [captureFault, decodeFault, hf], rfl⟩
    | none =>
      simp only [orError_ok, ok_bind]
      by_cases hempty : (LeafEvent.text content).chars = ""
      · exact .inl ⟨hnone hempty hf, b, by simp [hempty, Flow.attempt, hsame], hblank hempty hf⟩
      · have hchars : (LeafEvent.text content).chars.isEmpty = false := by
          simpa [String.isEmpty_iff] using hempty
        have hfault : captureFault tree id (spineCost zs) (.leaf (.text content)) =
            overflowFault tree id (spineCost zs + (LeafEvent.text content).chars.utf8ByteSize) := by
          simp [captureFault, decodeFault, tokenCost, hf]
        simp only [hchars, Bool.false_eq_true, if_false, hfault]
        have hbuilder := h.builder_ok.text hzs hf
        generalize b.text (LeafEvent.text content).chars = r at hbuilder ⊢
        cases hbuilder with
        | overflow e he => exact .inr ⟨e, he, rfl⟩
        | ok b' hb' hnone => exact .inl ⟨hnone, b', rfl, hb'⟩
  | cData content => exact .inl (hother rfl rfl rfl)
  | generalRef content => exact .inl (hother rfl rfl rfl)
  | comment => exact .inl (hother rfl rfl rfl)
  | decl => exact .inl (hother rfl rfl rfl)
  | pi => exact .inl (hother rfl rfl rfl)
  | docType => exact .inl (hother rfl rfl rfl)

lemma eventLoop_cons (tok : Event) (ts : List Event) (s : ParserState R) :
    eventLoop checks tree ((tok :: ts).map .ok) s =
      (step checks tree tok s).bind (eventLoop checks tree (ts.map .ok)) := rfl

end

/-! ### A captured element from start to end -/

/-- The view of an element that is captured from this state on. -/
def captureView (checks : OverflowChecks) (tree : DescriptorTree R) (s : ParserState R) (id : NodeId)
    (tag : BytesStart) (content : Content) : NodeAccess :=
  SubtreeView.nodeAccess checks ({
    root := dom tag content
    descriptorId := id
    index := siblingsCounted s.siblingCounters tag.tagName
    parentStack := s.contextStack
    tree } : SubtreeView R)

section

variable [Rule R] {checks : OverflowChecks} {tree : DescriptorTree R} {id : NodeId}
  {z : OpenElements} {s : ParserState R} {tag : BytesStart} {content : Content}

/-- An element that is evaluated opens as a declared child of the innermost level. -/
lemma Tracks.enters (hwf : tree.WellFormed) {levels : List Level} {rest : OpenElements}
    (h : Tracks tree levels rest s)
    (hid : tree.evaluatedAt (tagsOf (levels.map Level.frame ++ rest) ++ [tag.tagName]) = some id) :
    rest = [] ∧ tree.inCapture (levels.map Level.id) = false ∧
      tree.child (levels.map Level.id) tag.tagName = some id := by
  rw [DescriptorTree.evaluatedAt_concat hwf, h.walk_eq] at hid
  split at hid
  case isTrue => cases hid
  case isFalse hbelow =>
    rw [not_or, Nat.not_lt, Nat.le_zero, Bool.not_eq_true] at hbelow
    exact ⟨List.eq_nil_of_length_eq_zero hbelow.1, hbelow.2, hid⟩

/-- The innermost level at the end of an element that is evaluated. -/
lemma Follows.innermost (hwf : tree.WellFormed)
    (h : Follows tree (z ++ [⟨tag, content⟩]) s)
    (hid : tree.evaluatedAt (tagsOf z ++ [tag.tagName]) = some id) :
    ∃ ls l, Tracks tree (ls ++ [l]) [] s ∧ ls.map Level.frame = z ∧ l.id = id ∧
      l.frame = ⟨tag, content⟩ := by
  obtain ⟨levels, rest, hz, htracks⟩ := h
  have hwalk := htracks.walk_eq
  rw [DescriptorTree.evaluatedAt_eq_walk hwf] at hid
  rw [hz, tagsOf_append, tagsOf_cons, tagsOf_nil] at hwalk
  simp only [hwalk] at hid
  split at hid
  case isFalse => cases hid
  case isTrue hrest =>
    obtain rfl : rest = [] := List.eq_nil_of_length_eq_zero hrest
    rcases List.eq_nil_or_concat' levels with rfl | ⟨ls, l, rfl⟩
    · simp at hid
    · rw [List.append_nil, List.map_append, List.map_singleton] at hz
      obtain ⟨hframes, hframe⟩ := List.append_inj' hz rfl
      exact ⟨ls, l, htracks, hframes, by simpa using hid, List.singleton_inj.mp hframe⟩

variable (checks) in
omit [Rule R] in
/-- The innermost level at the end of a captured element has the view that its start determines. -/
lemma Opens.view_eq {s₀ : ParserState R} {ls : List Level} {l : Level} {i : ℕ} {b : CaptureBuilder}
    (hopens : Opens tree l.id tag s₀ s) (hcapture : tree.isCapture l.id = true)
    (htracks : Tracks tree (ls ++ [l]) [] (withBuilder s b 1 l.id i)) (hframe : l.frame = ⟨tag, content⟩) :
    l.view checks tree ls = captureView checks tree s₀ l.id tag content := by
  obtain ⟨ctx, -, hindex, hcontexts⟩ := hopens.contexts_eq
  have hstack : s₀.contextStack ++ [ctx] = ls.map Level.ctx ++ [l.ctx] := by
    rw [← hcontexts, ← List.map_singleton, ← List.map_append]
    exact htracks.contextStack_eq
  obtain ⟨hparents, hctx⟩ := List.append_inj' hstack rfl
  obtain rfl := List.singleton_inj.mp hctx
  rw [Level.view_capture hcapture, captureView, hframe, hparents, hindex]

/-- The outcome of the start of a captured element. -/
inductive CaptureOpens (checks : OverflowChecks) (tree : DescriptorTree R) (z : OpenElements)
    (id : NodeId) (tag : BytesStart) (s : ParserState R) : Except Stop (ParserState R) → Prop
  | ok (s' : ParserState R) (b : CaptureBuilder) (i : ℕ) (hmode : s.mode = .streaming)
      (hskip : s.skipDepth = 0) (hopens : Opens tree id tag s s')
      (hroom : ¬ CounterFull checks s.siblingCounters tag.tagName) (hout : s'.out = s.out)
      (hinside : InCapture tree s' [⟨tag, .nil⟩] id b 1 i)
      (hfollows : Follows tree (z ++ [⟨tag, .nil⟩]) s')
      (hfault : captureFault tree id 0 (.start tag) = none) : CaptureOpens checks tree z id tag s (.ok s')
  | error (e : ReaderError) (hfault : captureFault tree id 0 (.start tag) = some e) :
      CaptureOpens checks tree z id tag s (.error (.error e))
  | overflow (hfull : CounterFull checks s.siblingCounters tag.tagName) :
      CaptureOpens checks tree z id tag s (.error (.panic .addOverflow))

omit [Rule R] in
/-- The fault of a start token that opens a capture. -/
lemma startFault_capture {levels : List Level} (hwalk : tree.walk (tagsOf z) = ⟨levels.map Level.id, 0⟩)
    (hstream : tree.inCapture (levels.map Level.id) = false)
    (hchild : tree.child (levels.map Level.id) tag.tagName = some id) (hcapture : tree.isCapture id = true) :
    startFault tree z tag = captureFault tree id 0 (.start tag) := by
  have hnone : tree.openCapture z = none := by
    rw [DescriptorTree.openCapture, hwalk]
    rcases List.eq_nil_or_concat' levels with rfl | ⟨ls, l, rfl⟩
    · rfl
    · rw [List.map_append, List.map_singleton, DescriptorTree.inCapture_concat] at hstream
      simp [hstream]
  have hkeeps : tree.keepsAttrs id = true := by simp [DescriptorTree.keepsAttrs, hcapture]
  simp only [startFault, hnone, hwalk, gt_iff_lt, lt_irrefl, if_false, hchild, hkeeps, hcapture, if_true,
    captureFault, decodeFault, tokenCost, Nat.zero_add]
  cases tag.nameFault <;> rfl

variable (checks) in
lemma capture_open (hwf : tree.WellFormed) (h : Follows tree z s)
    (hid : tree.evaluatedAt (tagsOf z ++ [tag.tagName]) = some id) (hcapture : tree.isCapture id = true) :
    CaptureOpens checks tree z id tag s (handleStart checks tree tag s) := by
  obtain ⟨levels, rest, rfl, htracks⟩ := h
  obtain ⟨rfl, hstream, hchild⟩ := htracks.enters hwf hid
  have hmode : s.mode = .streaming ∧ s.skipDepth = 0 := by
    cases htracks.mode_ok with
    | streaming _ hmode hskip => exact ⟨hmode, hskip⟩
    | capturing ls l b hlevels hl => simp [hlevels, hl] at hstream
  have hstart := start_ok checks hwf htracks tag
  generalize handleStart checks tree tag s = r at hstart ⊢
  have hstartFault := startFault_capture (z := levels.map Level.frame ++ []) htracks.walk_eq hstream hchild
    hcapture
  cases hstart with
  | error e hfault => exact .error e (hstartFault ▸ hfault)
  | overflow ls p hcount hlevels hrest hfull => exact .overflow hcount
  | ok levels' rest' s' hz htracks' hout hfault hopens =>
    obtain ⟨hopens, hroom⟩ := hopens rfl hstream id hchild
    obtain ⟨b, hb, hbuilder⟩ := hopens.capture hcapture
    refine .ok s' b _ hmode.1 hmode.2 hopens hroom hout ⟨hb, ?_, htracks'.attrPool_eq, hbuilder⟩
      ⟨levels', rest', hz, htracks'⟩ (hstartFault ▸ hfault)
    rw [hopens.skip_eq, hmode.2]

end

end XmlOxydizer
