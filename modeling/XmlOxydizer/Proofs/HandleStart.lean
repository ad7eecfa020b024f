import XmlOxydizer.Proofs.Tracking

/-!
# Opening an element

`handleStart` on a state that tracks the open elements: the element is skipped, captured,
or becomes a new level, or the step fails with the fault of the token.
-/

namespace XmlOxydizer

open Markup

variable {R : Type}

section OpenCapture

variable {tree : DescriptorTree R} {levels ls : List Level} {l : Level} {rest : OpenElements}
  {s : ParserState R}

lemma Tracks.openCapture_streaming (h : Tracks tree levels rest s)
    (hcapture : tree.inCapture (levels.map Level.id) = false) :
    tree.openCapture (levels.map Level.frame ++ rest) = none := by
  simp only [DescriptorTree.openCapture, h.walk_eq]
  rcases List.eq_nil_or_concat' levels with rfl | ⟨ls, l, rfl⟩
  · rfl
  · have hl : tree.isCapture l.id = false := by simpa using hcapture
    simp [hl]

lemma Tracks.openCapture_capturing (h : Tracks tree (ls ++ [l]) rest s)
    (hcapture : tree.isCapture l.id = true) :
    tree.openCapture ((ls ++ [l]).map Level.frame ++ rest) = some (l.id, l.frame :: rest) := by
  simp only [DescriptorTree.openCapture, h.walk_eq]
  simp [hcapture]

end OpenCapture

lemma lookupDescriptor_eq [Rule R] {tree : DescriptorTree R} (hwf : tree.WellFormed)
    {ids : List NodeId} (hids : ∀ id ∈ ids, tree.Contains id) (tag : String) :
    lookupDescriptor tree (ids.map some) tag = .ok (tree.child ids tag) := by
  rcases List.eq_nil_or_concat' ids with rfl | ⟨ids, last, rfl⟩
  · simp [lookupDescriptor, hwf.rootId_eq, DescriptorTree.get_eq hwf.root_contains,
      DescriptorTree.child]
  · obtain ⟨r, hr, -⟩ := hwf.childOf_spec last (hids last (by simp)) tag
    simp [lookupDescriptor, DescriptorTree.child, hr, Except.toOption]

@[simp] lemma acquire_fst (pool : ContextPool) (id : NodeId) (attrs : List (String × String))
    (index : UInt32) :
    (pool.acquire id attrs index).1 = { attrs, text := "", children := [], descriptorId := id, index } := by
  unfold ContextPool.acquire
  split <;> rfl

/-- The counters after one more child of the innermost element. -/
def countedOnce (counters : List Counters) (tag : String) : List Counters :=
  match counters.getLast? with
  | some last => counters.dropLast ++ [bump (hashTag tag) last]
  | none => []

/-- The siblings of this tag that the innermost element has counted. -/
def siblingsCounted (counters : List Counters) (tag : String) : UInt32 :=
  match counters.getLast? with
  | some last => countOf (hashTag tag) last
  | none => 0

/-- A declared element has been opened: what was pushed, and what is as before. -/
structure Opens (tree : DescriptorTree R) (id : NodeId) (tag : BytesStart) (s s' : ParserState R) :
    Prop where
  contexts_eq : ∃ ctx, ctx.children = [] ∧ ctx.index = siblingsCounted s.siblingCounters tag.tagName ∧
    s'.contextStack = s.contextStack ++ [ctx]
  descriptors_eq : s'.descriptorStack = s.descriptorStack ++ [some id]
  counters_eq : s'.siblingCounters = countedOnce s.siblingCounters tag.tagName ++ [[]]
  skip_eq : s'.skipDepth = s.skipDepth
  capture : tree.isCapture id = true → ∃ b, s'.mode = .capturing b 1 id s.contextStack.length ∧
    BuilderOk tree id [⟨tag, .nil⟩] b

/-- The counter of this tag is at its largest value, and the build checks for overflow. -/
def CounterFull (checks : OverflowChecks) (counters : List Counters) (tag : String) : Prop :=
  checks = .checked ∧ (siblingsCounted counters tag).toNat + 1 = 2 ^ 32

/-- The outcome of `handleStart`. -/
inductive StartOk (checks : OverflowChecks) (tree : DescriptorTree R) (levels : List Level)
    (rest : OpenElements) (tag : BytesStart) (s : ParserState R) : Except Stop (ParserState R) → Prop
  | ok (levels' : List Level) (rest' : OpenElements) (s' : ParserState R)
      (hz : levels'.map Level.frame ++ rest' = levels.map Level.frame ++ rest ++ [⟨tag, .nil⟩])
      (htracks : Tracks tree levels' rest' s') (hout : s'.out = s.out)
      (hfault : startFault tree (levels.map Level.frame ++ rest) tag = none)
      (hopens : rest = [] → tree.inCapture (levels.map Level.id) = false →
        ∀ id, tree.child (levels.map Level.id) tag.tagName = some id → Opens tree id tag s s' ∧
          ¬ CounterFull checks s.siblingCounters tag.tagName)
      (hstays : (rest = [] → tree.inCapture (levels.map Level.id) = false →
        tree.child (levels.map Level.id) tag.tagName = none) → s'.contextStack = s.contextStack) :
      StartOk checks tree levels rest tag s (.ok s')
  | error (e : ReaderError) (hfault : startFault tree (levels.map Level.frame ++ rest) tag = some e) :
      StartOk checks tree levels rest tag s (.error (.error e))
  | overflow (ls : List Level) (p : Level) (hcount : CounterFull checks s.siblingCounters tag.tagName)
      (hlevels : levels = ls ++ [p]) (hrest : rest = [])
      (hfull : 2 ^ 32 ≤ p.frame.content.elements.length + 1) :
      StartOk checks tree levels rest tag s (.error (.panic .addOverflow))

section Start

variable {checks : OverflowChecks} {tree : DescriptorTree R} {levels ls : List Level} {l : Level}
  {rest : OpenElements} {tag : BytesStart} {s : ParserState R}

/-- An element inside a skipped element is skipped. -/
lemma start_skipping (h : Tracks tree levels rest s)
    (hcapture : tree.inCapture (levels.map Level.id) = false) (hmode : s.mode = .streaming)
    (hskip : s.skipDepth = rest.length) (hrest : rest ≠ []) :
    StartOk checks tree levels rest tag s (handleStart checks tree tag s) := by
  have hpos : rest.length > 0 := List.length_pos_iff.mpr hrest
  have hstart : handleStart checks tree tag s = .ok { s with skipDepth := s.skipDepth + 1 } := by
    simp [handleStart, hskip, hpos]
  rw [hstart]
  refine .ok levels (rest ++ [⟨tag, .nil⟩]) _ (by simp) ?_ rfl ?_ (fun hnil => absurd hnil hrest)
    (fun _ => rfl)
  · refine ⟨h.levels_ok, ?_, h.contextStack_eq, h.descriptorStack_eq, h.siblingCounters_eq,
      h.attrPool_eq, .streaming hcapture hmode (by simp [hskip])⟩
    rw [← List.append_assoc, tagsOf_append, tagsOf_cons, tagsOf_nil, DescriptorTree.walk_concat,
      h.walk_eq, Position.enter, if_pos (.inl hpos)]
    simp
  · have hbelow : (tree.walk (tagsOf (levels.map Level.frame ++ rest))).below > 0 := by
      rw [h.walk_eq]
      exact hpos
    simp only [startFault, h.openCapture_streaming hcapture, if_pos hbelow]

/-- An element inside a captured element goes into the buffer. -/
lemma start_capturing {b : CaptureBuilder} (h : Tracks tree (ls ++ [l]) rest s)
    (hcapture : tree.isCapture l.id = true) (hb : BuilderOk tree l.id (l.frame :: rest) b)
    (hmode : s.mode = .capturing b (rest.length + 1) l.id ls.length) (hskip : s.skipDepth = 0) :
    StartOk checks tree (ls ++ [l]) rest tag s (handleStart checks tree tag s) := by
  have hfault : startFault tree ((ls ++ [l]).map Level.frame ++ rest) tag =
      (tag.nameFault <|> tag.attrsFault <|> overflowFault tree l.id
        (spineCost (l.frame :: rest) + elementCost tag.tagName tag.attrs)) := by
    simp only [startFault, h.openCapture_capturing hcapture]
  have hname := fromUtf8_name tag
  have hattrs := parseAttributes_eq tag
  simp only [handleStart, hskip, gt_iff_lt, lt_irrefl, if_false, hmode, hname, AttrPool.acquire,
    h.attrPool_eq, List.getLast?_nil, hattrs]
  cases hn : tag.nameFault with
  | some e => exact .error e (by rw [hfault, hn]; rfl)
  | none =>
    cases ha : tag.attrsFault with
    | some e => exact .error e (by rw [hfault, hn, ha]; rfl)
    | none =>
      have hstart := hb.startElement tag ⟨hn, ha⟩
      simp only [orError_ok, ok_bind]
      generalize b.startElement tag.tagName tag.attrs = r at hstart ⊢
      cases hstart with
      | overflow e he => exact .error e (by rw [hfault, hn, ha, he]; rfl)
      | ok b' hb' hnone =>
        simp only [orError_ok, ok_bind, except_pure]
        refine .ok (ls ++ [l]) (rest ++ [⟨tag, .nil⟩]) _ (by simp) ?_ rfl
          (by rw [hfault, hn, ha, hnone]; rfl) (fun _ hstream => by simp [hcapture] at hstream)
          (fun _ => rfl)
        refine ⟨h.levels_ok, ?_, h.contextStack_eq, h.descriptorStack_eq, h.siblingCounters_eq,
          h.attrPool_eq, .capturing ls l b' rfl hcapture hb' (by simp) rfl⟩
        rw [← List.append_assoc, tagsOf_append, tagsOf_cons, tagsOf_nil, DescriptorTree.walk_concat,
          h.walk_eq, Position.enter, if_pos (.inr (by simpa using hcapture))]
        simp

lemma siblingsCounted_concat (counters : List Counters) (tags : List String) (t : String) :
    siblingsCounted (counters ++ [tally tags]) t = siblingIndex tags t := by
  simp [siblingsCounted, countOf_tally]

/-- The sibling index of a new element, unless its counter overflows. -/
lemma countSibling_concat (counters : List Counters) (tags : List String) (t : String) :
    countSibling checks (counters ++ [tally tags]) (hashTag t) =
      if checks = .checked ∧ (siblingIndex tags t).toNat + 1 = 2 ^ 32 then .error .addOverflow
      else .ok (siblingIndex tags t, counters ++ [tally (tags ++ [t])]) := by
  simp only [countSibling, List.getLast?_concat, siblingCounterGetOrInsert_eq, countOf_tally,
    List.dropLast_concat, tally_concat]
  split <;> simp

variable (tree) in
lemma siblingIndex_le (p : Level) (t : String) :
    (siblingIndex (p.summarizedTags tree) t).toNat ≤ p.frame.content.elements.length := by
  have hcount : (p.summarizedTags tree).countP (fun u => hashTag u == hashTag t) ≤
      p.frame.content.elements.length := by
    refine le_trans List.countP_le_length ?_
    simp only [Level.summarizedTags, List.length_map, summarizedChildren]
    split
    · simp
    · exact List.length_filterMap_le _ _
  refine le_trans ?_ hcount
  simp only [siblingIndex, UInt32.toNat_ofNat']
  exact Nat.mod_le _ _

/-- The level of an element that has just been opened. -/
def newLevel (tree : DescriptorTree R) (id : NodeId) (tag : BytesStart) (index : UInt32) : Level where
  id := id
  frame := ⟨tag, .nil⟩
  ctx := ⟨if tree.keepsAttrs id then tag.attrs else [], "", [], id, index⟩
  counted := []

@[simp] lemma newLevel_id (id : NodeId) (index : UInt32) : (newLevel tree id tag index).id = id := rfl

@[simp] lemma newLevel_tag (id : NodeId) (index : UInt32) :
    (newLevel tree id tag index).tag = tag.tagName := rfl

@[simp] lemma newLevel_frame (id : NodeId) (index : UInt32) :
    (newLevel tree id tag index).frame = ⟨tag, .nil⟩ := rfl

@[simp] lemma newLevel_index (id : NodeId) (index : UInt32) :
    (newLevel tree id tag index).ctx.index = index := rfl

lemma newLevel_ok {id : NodeId} {index : UInt32} (hid : tree.Contains id) (hname : tag.nameFault = none)
    (hattrs : tree.keepsAttrs id = true → tag.attrsFault = none) :
    LevelOk tree (newLevel tree id tag index) := by
  have hnone : summarizedChildren tree id .nil = [] := by
    simp [summarizedChildren, declaredChildren, Forest.elements]
  constructor
  case contains => exact hid
  case descriptorId_eq => rfl
  case name_ok => exact hname
  case attrs_eq => rfl
  case attrs_ok => exact hattrs
  case text_eq => exact (ite_self _).symm
  case text_ok => simp [newLevel, TextReadable, Forest.leaves]
  case children => simp [newLevel, hnone]
  case indices => simp [newLevel, Level.summarizedTags, hnone, siblingIndices]

variable (checks) in
/-- An undeclared element is skipped. -/
lemma start_undeclared (h : Tracks tree levels [] s)
    (hcapture : tree.inCapture (levels.map Level.id) = false) (hmode : s.mode = .streaming)
    (hname : tag.nameFault = none)
    (hchild : tree.child (levels.map Level.id) tag.tagName = none) :
    StartOk checks tree levels [] tag s (.ok { s with skipDepth := 1 }) := by
  refine .ok levels [⟨tag, .nil⟩] _ (by simp) ?_ rfl ?_
    (fun _ _ id hid => by rw [hchild] at hid; cases hid) (fun _ => rfl)
  · refine ⟨h.levels_ok, ?_, h.contextStack_eq, h.descriptorStack_eq, h.siblingCounters_eq,
      h.attrPool_eq, .streaming hcapture hmode rfl⟩
    rw [tagsOf_append, tagsOf_cons, tagsOf_nil, DescriptorTree.walk_concat, h.levels_ok.walk_eq,
      Position.enter, if_neg (by simp [hcapture]), hchild]
    rfl
  · have hopen := h.openCapture_streaming hcapture
    have hwalk := h.walk_eq
    simp only [List.append_nil] at hopen hwalk
    simp [startFault, hopen, hwalk, hname, hchild]

/-- The outcome of counting a new declared element: its index and the counters, which are
those of the levels around it. -/
inductive CountOk (checks : OverflowChecks) (tree : DescriptorTree R) (levels : List Level)
    (id : NodeId) (tag : BytesStart) : Except Panic (UInt32 × List Counters) → Prop
  | ok (base : List Level) (index : UInt32)
      (hindex : index = siblingsCounted (levels.map (fun l => tally l.counted)) tag.tagName)
      (hroom : ¬ CounterFull checks (levels.map (fun l => tally l.counted)) tag.tagName)
      (hctx : base.map Level.ctx = levels.map Level.ctx) (hid : base.map Level.id = levels.map Level.id)
      (hframe : base.map Level.frame = levels.map Level.frame)
      (hcounters : base.map (fun l => tally l.counted) =
        countedOnce (levels.map (fun l => tally l.counted)) tag.tagName)
      (hopen : LevelOk tree (newLevel tree id tag index) →
        OpenLevels tree (base ++ [newLevel tree id tag index])) :
      CountOk checks tree levels id tag (.ok (index, base.map (fun l => tally l.counted)))
  | overflow (ls : List Level) (p : Level)
      (hcount : CounterFull checks (levels.map (fun l => tally l.counted)) tag.tagName)
      (hlevels : levels = ls ++ [p]) (hfull : 2 ^ 32 ≤ p.frame.content.elements.length + 1) :
      CountOk checks tree levels id tag (.error .addOverflow)

lemma newLevel_counted (id : NodeId) (index : UInt32) :
    (newLevel tree id tag index).counted = (newLevel tree id tag index).summarizedTags tree := by
  simp [newLevel, Level.summarizedTags, summarizedChildren, declaredChildren, Forest.elements]

variable (checks) in
lemma countSibling_ok (h : OpenLevels tree levels) (hcapture : tree.inCapture (levels.map Level.id) = false)
    {id : NodeId} (hchild : tree.child (levels.map Level.id) tag.tagName = some id) :
    CountOk checks tree levels id tag
      (countSibling checks (levels.map (fun l => tally l.counted)) (hashTag tag.tagName)) := by
  rcases List.eq_nil_or_concat' levels with rfl | ⟨ls, p, rfl⟩
  · refine .ok [] 0 rfl ?_ rfl rfl rfl rfl fun hnew => ?_
    · simp [CounterFull, siblingsCounted]
    · exact openLevels_root hnew (newLevel_counted id 0) hchild rfl
  · have hp : tree.isCapture p.id = false := by simpa using hcapture
    have hlink : tree.child [p.id] tag.tagName = some id := by
      simpa [DescriptorTree.child] using hchild
    have hcount : siblingsCounted ((ls ++ [p]).map (fun l => tally l.counted)) tag.tagName =
        siblingIndex (p.summarizedTags tree) tag.tagName := by
      rw [List.map_append, List.map_singleton, siblingsCounted_concat, h.counted]
    rw [List.map_append, List.map_singleton, countSibling_concat, h.counted]
    split
    case isTrue hfull =>
      have hle := siblingIndex_le tree p tag.tagName
      refine .overflow ls p ?_ rfl (by omega)
      rwa [CounterFull, hcount]
    case isFalse hroom =>
      let q : Level := { p with counted := p.counted ++ [tag.tagName] }
      have hcounters : ls.map (fun l => tally l.counted) ++
          [tally (p.summarizedTags tree ++ [tag.tagName])] = (ls ++ [q]).map (fun l => tally l.counted) := by
        simp [q, h.counted]
      rw [hcounters]
      have hcounted : (ls ++ [q]).map (fun l => tally l.counted) =
          countedOnce ((ls ++ [p]).map (fun l => tally l.counted)) tag.tagName := by
        simp [q, countedOnce, tally_concat]
      refine .ok (ls ++ [q]) _ hcount.symm (by rwa [CounterFull, hcount]) (by simp [q]) (by simp [q])
        (by simp [q]) hcounted fun hnew => ?_
      have hpush := h.push hp hnew (newLevel_counted id _) (by simpa using hlink) (by simp)
      simpa only [newLevel_tag] using hpush

/-- What the state is like after a declared element has become the level `l`. -/
structure Entered (s s' : ParserState R) (base : List Level) (l : Level) : Prop where
  contexts_eq : s'.contextStack = s.contextStack ++ [l.ctx]
  descriptors_eq : s'.descriptorStack = s.descriptorStack ++ [some l.id]
  counters_eq : s'.siblingCounters = base.map (fun l => tally l.counted) ++ [[]]
  skipDepth_eq : s'.skipDepth = s.skipDepth
  pool_eq : s'.attrPool.free = []
  out_eq : s'.out = s.out

lemma StartOk.opened (h : Tracks tree levels [] s) (hname : tag.nameFault = none) {id : NodeId}
    (hid : tree.Contains id) (hchild : tree.child (levels.map Level.id) tag.tagName = some id)
    (hcapture : tree.inCapture (levels.map Level.id) = false) {base : List Level} {index : UInt32}
    (hindex : index = siblingsCounted (levels.map (fun l => tally l.counted)) tag.tagName)
    (hroom : ¬ CounterFull checks (levels.map (fun l => tally l.counted)) tag.tagName)
    (hctx : base.map Level.ctx = levels.map Level.ctx) (hids : base.map Level.id = levels.map Level.id)
    (hframe : base.map Level.frame = levels.map Level.frame)
    (hcounters : base.map (fun l => tally l.counted) =
      countedOnce (levels.map (fun l => tally l.counted)) tag.tagName)
    (hopen : LevelOk tree (newLevel tree id tag index) →
      OpenLevels tree (base ++ [newLevel tree id tag index])) {s' : ParserState R}
    (hentered : Entered s s' base (newLevel tree id tag index))
    (hattrs : tree.keepsAttrs id = true → tag.attrsFault = none)
    (hmode : ModeOk tree (base ++ [newLevel tree id tag index]) [] s')
    (hfault : startFault tree (levels.map Level.frame ++ []) tag = none)
    (hbuilder : tree.isCapture id = true →
      ∃ b, s'.mode = .capturing b 1 id s.contextStack.length ∧ BuilderOk tree id [⟨tag, .nil⟩] b) :
    StartOk checks tree levels [] tag s (.ok s') := by
  refine .ok (base ++ [newLevel tree id tag index]) [] s' ?_ ?_ hentered.out_eq hfault ?_ ?_
  · simp [hframe]
  · have hlevels := hopen (newLevel_ok hid hname hattrs)
    refine ⟨hlevels, by simpa using hlevels.walk_eq, ?_, ?_, ?_, hentered.pool_eq, hmode⟩
    · simp [hentered.contexts_eq, h.contextStack_eq, hctx]
    · have hsome := congrArg (List.map some) hids
      simp only [List.map_map, Function.comp_def] at hsome
      simpa [hentered.descriptors_eq, h.descriptorStack_eq] using hsome.symm
    · simp [hentered.counters_eq, newLevel]
  · intro _ _ id' hid'
    obtain rfl := Option.some.inj (hchild.symm.trans hid')
    rw [← h.siblingCounters_eq] at hindex hroom
    refine ⟨⟨⟨_, rfl, hindex, hentered.contexts_eq⟩, hentered.descriptors_eq, ?_, hentered.skipDepth_eq,
      hbuilder⟩, hroom⟩
    rw [hentered.counters_eq, hcounters, h.siblingCounters_eq]
  · intro hnone
    rw [hnone rfl hcapture] at hchild
    cases hchild

/-- A declared element becomes a new level, and the root of a capture if its node is a
capture node. -/
lemma start_declared (h : Tracks tree levels [] s)
    (hcapture : tree.inCapture (levels.map Level.id) = false) (hmode : s.mode = .streaming)
    (hskip : s.skipDepth = 0) (hname : tag.nameFault = none) {id : NodeId} (hid : tree.Contains id)
    (hchild : tree.child (levels.map Level.id) tag.tagName = some id) :
    StartOk checks tree levels [] tag s (openElement checks tree tag tag.tagName id s) := by
  have hfault : startFault tree (levels.map Level.frame ++ []) tag =
      ((if tree.keepsAttrs id then tag.attrsFault else none) <|>
        if tree.isCapture id then
          overflowFault tree id (elementCost tag.tagName tag.attrs)
        else none) := by
    simp only [startFault, h.openCapture_streaming hcapture, h.walk_eq, hname, hchild]
    rfl
  have hcount := countSibling_ok checks h.levels_ok hcapture hchild
  simp only [openElement, h.siblingCounters_eq]
  generalize countSibling checks (levels.map fun l => tally l.counted) (hashTag tag.tagName) = r at hcount ⊢
  cases hcount with
  | overflow ls p hcount hlevels hfull =>
    simp only [orPanic_error, error_bind]
    exact .overflow ls p (by rwa [h.siblingCounters_eq]) hlevels rfl hfull
  | ok base index hindex hroom hctx hids hframe hcounters hopen =>
    have hcap : (tree.desc id).needs.isCapture = tree.isCapture id := rfl
    have hkeeps : ((tree.desc id).needAttrs || tree.isCapture id) = tree.keepsAttrs id := rfl
    simp only [orPanic_ok, ok_bind, DescriptorTree.get_eq hid, AttrPool.acquire, h.attrPool_eq,
      List.getLast?_nil, parseAttributes_eq, hcap, hkeeps]
    cases hk : tree.keepsAttrs id with
    | false =>
      have hstream : tree.isCapture id = false := by
        simp only [DescriptorTree.keepsAttrs, Bool.or_eq_false_iff] at hk
        exact hk.2
      simp only [hstream, Bool.false_eq_true, if_false, except_pure, ok_bind]
      refine .opened h hname hid hchild hcapture hindex hroom hctx hids hframe hcounters hopen ?_ (by simp [hk]) ?_
        (by rw [hfault, hk, hstream]; rfl) (by simp [hstream])
      · exact ⟨by simp [newLevel, hk], rfl, rfl, rfl, h.attrPool_eq, rfl⟩
      · exact .streaming (by simpa using hstream) hmode hskip
    | true =>
      cases ha : tag.attrsFault with
      | some e =>
        simp only [if_true, orError_error, error_bind]
        exact .error e (by rw [hfault, hk, ha]; rfl)
      | none =>
        simp only [if_true, orError_ok, except_pure, ok_bind]
        cases hstream : tree.isCapture id with
        | false =>
          simp only [Bool.false_eq_true, if_false]
          refine .opened h hname hid hchild hcapture hindex hroom hctx hids hframe hcounters hopen ?_
            (fun _ => ha) ?_ (by rw [hfault, hk, ha, hstream]; rfl) (by simp [hstream])
          · exact ⟨by simp [newLevel, hk], rfl, rfl, rfl, h.attrPool_eq, rfl⟩
          · exact .streaming (by simpa using hstream) hmode hskip
        | true =>
          simp only [if_true]
          have hstart := new_startElement tree id tag ⟨hname, ha⟩
          generalize (CaptureBuilder.new tree.captureMemoryLimit
            (formatPath (tree.desc id).fullPath)).startElement tag.tagName tag.attrs = r at hstart ⊢
          cases hstart with
          | overflow e he =>
            simp only [orError_error, error_bind]
            refine .error e ?_
            rw [hfault, hk, ha, hstream]
            simpa [spineCost] using he
          | ok b hb hnone =>
            simp only [orError_ok, ok_bind]
            refine .opened h hname hid hchild hcapture hindex hroom hctx hids hframe hcounters hopen ?_
              (fun _ => ha) ?_ ?_ (fun _ => ⟨b, rfl, hb⟩)
            · exact ⟨by simp [newLevel, hk], rfl, rfl, rfl, h.attrPool_eq, rfl⟩
            · have hlen : s.contextStack.length = base.length := by
                rw [h.contextStack_eq, ← hctx, List.length_map]
              exact .capturing base _ b rfl hstream hb (by simp [hlen]) hskip
            · rw [hfault, hk, ha, hstream]
              simpa [spineCost] using hnone

variable (checks) in
/-- `handleStart` on a state that tracks the open elements. -/
theorem start_ok [Rule R] (hwf : tree.WellFormed) (h : Tracks tree levels rest s) (tag : BytesStart) :
    StartOk checks tree levels rest tag s (handleStart checks tree tag s) := by
  cases h.mode_ok with
  | capturing ls l b hlevels hcapture hb hmode hskip =>
    subst hlevels
    exact start_capturing h hcapture hb hmode hskip
  | streaming hcapture hmode hskip =>
    by_cases hrest : rest = []
    · subst hrest
      have hids : ∀ id ∈ levels.map Level.id, tree.Contains id := by
        intro id hid
        obtain ⟨l, hl, rfl⟩ := List.mem_map.mp hid
        exact (h.levels_ok.ok l hl).contains
      have hstack : s.descriptorStack = (levels.map Level.id).map some := by
        simp [h.descriptorStack_eq]
      have hlookup := lookupDescriptor_eq hwf hids tag.tagName
      rw [List.length_nil] at hskip
      simp only [handleStart, hskip, gt_iff_lt, lt_irrefl, if_false, hmode, fromUtf8_name, hstack]
      cases hname : tag.nameFault with
      | some e =>
        simp only [orError_error, error_bind]
        refine .error e ?_
        simp only [startFault, h.openCapture_streaming hcapture, h.walk_eq, hname]
        rfl
      | none =>
        simp only [orError_ok, ok_bind, hlookup, orPanic_ok]
        cases hchild : tree.child (levels.map Level.id) tag.tagName with
        | none =>
          have hskipped := start_undeclared checks h hcapture hmode hname hchild
          simpa only [hmode, hstack, except_pure] using hskipped
        | some id =>
          have hid : tree.Contains id := by
            rcases List.eq_nil_or_concat' levels with rfl | ⟨ls, p, rfl⟩
            · rw [(DescriptorTree.child_nil.mp hchild).1]
              exact hwf.root_contains
            · rw [List.map_append, List.map_singleton] at hchild
              exact ((hwf.child_concat _ h.levels_ok.last.contains).mp hchild).contains
          exact start_declared h hcapture hmode hskip hname hid hchild
    · exact start_skipping h hcapture hmode hskip hrest

end Start

end XmlOxydizer
