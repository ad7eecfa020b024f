import XmlOxydizer.Proofs.CaptureSubtree
import XmlOxydizer.Proofs.Endings

/-!
# The memory limit of captures

The memory usage of a capture is the size of everything that its buffer retains. A capture ends in an
overflow at the first event that takes the running total of its own events over the limit, and what
was captured before does not matter.
-/

namespace XmlOxydizer

open Lists Markup

variable {R : Type}

mutual

/-- The size that a retained node is charged, with all nodes below it. -/
def BuildNode.cost : BuildNode → ℕ
  | ⟨tag, attrs, text, children⟩ =>
    BuildNode.size + tag.utf8ByteSize +
      (attrs.map (fun attr => attr.1.utf8ByteSize + attr.2.utf8ByteSize + 64)).sum +
      text.utf8ByteSize + retainedCost children

/-- The size of several retained nodes. -/
def retainedCost : List BuildNode → ℕ
  | [] => 0
  | node :: nodes => node.cost + retainedCost nodes

end

/-- The sum of what the tokens add to the cost of a capture. -/
def tokensCost (ts : List Event) : ℕ := (ts.map tokenCost).sum

/-- The tokens close no element but those that they open. -/
def StaysOpen (ts : List Event) : Prop := ∀ pre, pre <+: ts → Token.closes pre ≤ Token.starts pre

/-! ### What the buffer retains -/

/-- The text and the child nodes of an element are charged as its content. -/
lemma retainedCost_buildNodes (g : Content) :
    (directText g).utf8ByteSize + retainedCost (buildNodes g) = contentCost g := by
  induction g with
  | nil => simp [buildNodes, retainedCost, contentCost]
  | element tag content rest ihc ihr =>
    have htext : directText (.element tag content rest) = directText rest := rfl
    rw [htext, buildNodes, retainedCost, BuildNode.cost, contentCost, elementCost]
    omega
  | leaf leaf rest ih =>
    have htext : directText (.leaf leaf rest) = leaf.chars ++ directText rest := by
      rw [← directText_leaf, ← directText_append]
      rfl
    rw [htext, buildNodes, contentCost, String.utf8ByteSize_append]
    omega

lemma retainedCost_spine (zs : OpenElements) : retainedCost (zs.map buildNode) = spineCost zs := by
  induction zs with
  | nil => rfl
  | cons f zs ih =>
    have hcontent := retainedCost_buildNodes f.content
    rw [List.map_cons, retainedCost, ih, spineCost_cons, frameCost, elementCost, buildNode, BuildNode.cost]
    omega

/-! ### One token inside a capture -/

/-- The error of a capture of node `id` that exceeds its limit. -/
def overflowError (tree : DescriptorTree R) (id : NodeId) : ReaderError :=
  .captureOverflow (formatPath (tree.desc id).fullPath) tree.captureMemoryLimit

lemma nameFault_ne_overflow {tag : BytesStart} {e : ReaderError} (h : tag.nameFault = some e) (path : String)
    (limit : ℕ) : e ≠ .captureOverflow path limit := by
  unfold BytesStart.nameFault at h
  split at h
  · cases h
  · cases h
    simp

lemma attributeFault_ne_overflow {attr : Except String Attribute} {e : ReaderError}
    (h : attributeFault attr = some e) (path : String) (limit : ℕ) : e ≠ .captureOverflow path limit := by
  unfold attributeFault at h
  split at h
  · cases h
    simp
  · split at h
    · cases h
      simp
    · cases h
      simp
    · cases h

lemma tagFault_ne_overflow {tag : BytesStart} {e : ReaderError}
    (h : (tag.nameFault <|> tag.attrsFault) = some e) (path : String) (limit : ℕ) :
    e ≠ .captureOverflow path limit := by
  cases hname : tag.nameFault with
  | some e' =>
    rw [hname] at h
    cases h
    exact nameFault_ne_overflow hname path limit
  | none =>
    rw [hname] at h
    obtain ⟨attr, -, hfault⟩ := List.exists_of_findSome?_eq_some h
    exact attributeFault_ne_overflow hfault path limit

lemma decodeFault_ne_overflow {tok : Event} {e : ReaderError} (h : decodeFault tok = some e) (path : String)
    (limit : ℕ) : e ≠ .captureOverflow path limit := by
  cases tok with
  | start tag => exact tagFault_ne_overflow h path limit
  | empty tag => exact tagFault_ne_overflow h path limit
  | close => cases h
  | leaf leaf =>
    cases leaf with
    | text content =>
      simp only [decodeFault, LeafEvent.fault] at h
      split at h
      · cases h
      · cases h
        simp
    | cData => cases h
    | generalRef => cases h
    | comment => cases h
    | decl => cases h
    | pi => cases h
    | docType => cases h

/-- A token in a capture goes on, overflows or cannot be decoded. -/
lemma captureFault_cases (tree : DescriptorTree R) (id : NodeId) (total : ℕ) (tok : Event) :
    (captureFault tree id total tok = none ∧ decodeFault tok = none ∧
      total + tokenCost tok ≤ tree.captureMemoryLimit) ∨
    (captureFault tree id total tok = some (overflowError tree id) ∧ decodeFault tok = none ∧
      tree.captureMemoryLimit < total + tokenCost tok) ∨
    ∃ e, captureFault tree id total tok = some e ∧ decodeFault tok = some e := by
  unfold captureFault overflowFault
  cases decodeFault tok with
  | some e => exact .inr (.inr ⟨e, rfl, rfl⟩)
  | none =>
    by_cases hover : total + tokenCost tok > tree.captureMemoryLimit
    · rw [if_pos hover]
      exact .inr (.inl ⟨rfl, rfl, hover⟩)
    · rw [if_neg hover]
      exact .inl ⟨rfl, rfl, by omega⟩

lemma decodeFault_of_captureFault {tree : DescriptorTree R} {id : NodeId} {total : ℕ} {tok : Event}
    (h : captureFault tree id total tok = none) : decodeFault tok = none := by
  rcases captureFault_cases tree id total tok with ⟨-, hdecode, -⟩ | ⟨hover, -⟩ | ⟨e, he, -⟩
  · exact hdecode
  · rw [hover] at h
    cases h
  · rw [he] at h
    cases h

/-- A token that leaves the captured element open adds its cost. -/
lemma spineCost_advance {zs : OpenElements} (hzs : zs ≠ []) {tok : Event}
    (hopen : tok = .close → 2 ≤ zs.length) : spineCost (zs.advance tok) = spineCost zs + tokenCost tok := by
  obtain ⟨w, f, rfl⟩ := (List.eq_nil_or_concat' zs).resolve_left hzs
  cases tok with
  | start tag =>
    simp only [Spine.advance_start, spineCost_append, spineCost_singleton, frameCost, contentCost, tokenCost]
    omega
  | empty tag =>
    simp only [Spine.advance_empty, Spine.extend_concat, spineCost_append, spineCost_singleton, frameCost,
      contentCost_append, contentCost, tokenCost]
    omega
  | leaf leaf =>
    simp only [Spine.advance_leaf, Spine.extend_concat, spineCost_append, spineCost_singleton, frameCost,
      contentCost_append, contentCost, tokenCost]
    omega
  | close =>
    have hlen := hopen rfl
    rcases List.eq_nil_or_concat' w with rfl | ⟨v, p, rfl⟩
    · simp at hlen
    · simp only [Spine.advance_close, Spine.extend_concat, spineCost_append, spineCost_singleton, frameCost,
        contentCost_append, contentCost, tokenCost]
      omega

section

variable [Rule R] {checks : OverflowChecks} {tree : DescriptorTree R} {id : NodeId} {zs : OpenElements}
  {b : CaptureBuilder} {s : ParserState R} {i : ℕ}

omit [Rule R] in
lemma InCapture.usage_le {depth : ℕ} (h : InCapture tree s zs id b depth i) :
    spineCost zs ≤ tree.captureMemoryLimit := by
  have hle := h.builder_ok.usage_le
  rwa [h.builder_ok.usage_eq, h.builder_ok.limit_eq] at hle

variable (checks) in
/-- A token that leaves the captured element open, inside a capture. -/
lemma capture_step (h : InCapture tree s zs id b zs.length i) (hzs : zs ≠ []) (tok : Event)
    (hopen : tok = .close → 2 ≤ zs.length) :
    (captureFault tree id (spineCost zs) tok = none ∧ ∃ s' b', step checks tree tok s = .next s' ∧
      InCapture tree s' (zs.advance tok) id b' (zs.advance tok).length i ∧ s'.out = s.out) ∨
    ∃ e, captureFault tree id (spineCost zs) tok = some e ∧
      step checks tree tok s = .stop (.error e) s.out := by
  have hpos := List.length_pos_iff.mpr hzs
  cases tok with
  | start tag =>
    rcases capture_start checks h tag with ⟨hnone, b', hstart, hb'⟩ | ⟨e, he, hstart⟩
    · refine .inl ⟨hnone, withBuilder s b' (zs.length + 1) id i, b', by rw [step, hstart]; rfl, ?_, rfl⟩
      rw [Spine.advance_start, List.length_append, List.length_singleton]
      exact h.withBuilder hb' _
    · exact .inr ⟨e, he, by rw [step, hstart]; rfl⟩
  | empty tag =>
    rcases capture_start checks h tag with ⟨hnone, b', hstart, hb'⟩ | ⟨e, he, hstart⟩
    · obtain ⟨b'', hend, hb''⟩ := capture_end checks (h.withBuilder hb' (zs.length + 1)) hpos hzs
      refine .inl ⟨hnone, withBuilder (withBuilder s b' (zs.length + 1) id i) b'' zs.length id i, b'',
        by rw [step, hstart, Flow.attempt, hend], ?_, rfl⟩
      rw [Spine.advance_empty, Spine.length_extend]
      exact (h.withBuilder hb' _).withBuilder hb'' _
    · exact .inr ⟨e, he, by rw [step, hstart]; rfl⟩
  | leaf leaf =>
    rcases capture_leaf checks h hzs leaf with ⟨hnone, b', hleaf, hb'⟩ | ⟨e, he, hleaf⟩
    · refine .inl ⟨hnone, withBuilder s b' zs.length id i, b', hleaf, ?_, rfl⟩
      rw [Spine.advance_leaf, Spine.length_extend]
      exact h.withBuilder hb' _
    · exact .inr ⟨e, he, hleaf⟩
  | close =>
    have hlen := hopen rfl
    obtain ⟨w, f, rfl⟩ := (List.eq_nil_or_concat' zs).resolve_left hzs
    have hw : w ≠ [] := by
      rintro rfl
      simp at hlen
    rw [List.length_append, List.length_singleton] at h
    obtain ⟨b', hend, hb'⟩ := capture_end checks h (List.length_pos_iff.mpr hw) hw
    refine .inl ⟨?_, withBuilder s b' w.length id i, b', hend, ?_, rfl⟩
    · simpa [captureFault, decodeFault, tokenCost] using h.builder_ok.overflowFault_eq_none
    · rw [Spine.advance_close, Spine.length_extend]
      exact h.withBuilder hb' _

/-! ### The tokens of a captured element -/

/-- The outcome of tokens that leave the captured element open, when `total` has been charged before
them: they all fit, one of them exceeds the limit, or one of them cannot be decoded. -/
inductive CaptureRun (checks : OverflowChecks) (tree : DescriptorTree R) (id : NodeId) (total : ℕ)
    (s : ParserState R) (ts : List Event) : Flow R → Prop
  | fits (r : Flow R) (hr : ∀ e out, r ≠ .stop (.error e) out) (hdecode : ∀ tok ∈ ts, decodeFault tok = none)
      (hfits : total + tokensCost ts ≤ tree.captureMemoryLimit) : CaptureRun checks tree id total s ts r
  | overflow (pre : List Event) (tok : Event) (s' : ParserState R)
      (hdecode : ∀ t ∈ pre ++ [tok], decodeFault t = none)
      (hexceeds : ExceedsAt tokenCost tree.captureMemoryLimit total ts pre tok)
      (hpre : eventLoop checks tree (pre.map .ok) s = .next s')
      (hstop : step checks tree tok s' = .stop (.error (overflowError tree id)) s.out) :
      CaptureRun checks tree id total s ts (.stop (.error (overflowError tree id)) s.out)
  | unreadable (pre : List Event) (tok : Event) (rest : List Event) (e : ReaderError)
      (hsplit : ts = pre ++ tok :: rest) (hbad : decodeFault tok = some e)
      (hfits : total + tokensCost pre ≤ tree.captureMemoryLimit) :
      CaptureRun checks tree id total s ts (.stop (.error e) s.out)

/-- One more token in front. -/
lemma CaptureRun.cons {total : ℕ} {s' : ParserState R} {tok : Event} {ts : List Event} {r : Flow R}
    (hstep : step checks tree tok s = .next s') (hdecode : decodeFault tok = none) (hout : s'.out = s.out)
    (h : CaptureRun checks tree id (total + tokenCost tok) s' ts r) :
    CaptureRun checks tree id total s (tok :: ts) r := by
  have hcost : ∀ us, total + tokensCost (tok :: us) = total + tokenCost tok + tokensCost us := by
    intro us
    rw [tokensCost, List.map_cons, List.sum_cons, ← Nat.add_assoc]
    rfl
  cases h with
  | fits _ hr hdecode' hfits => exact .fits r hr (by simpa [hdecode] using hdecode') (by rwa [hcost])
  | overflow pre t s'' hdecode' hexceeds hpre hstop =>
    rw [hout]
    refine .overflow (tok :: pre) t s'' (by simpa [hdecode] using hdecode') hexceeds.cons ?_ ?_
    · rw [eventLoop_cons, hstep, Flow.bind, hpre]
    · rw [hstop, hout]
  | unreadable pre t rest e hsplit hbad hfits =>
    rw [hout]
    exact .unreadable (tok :: pre) t rest e (by rw [hsplit]; rfl) hbad (by rwa [hcost])

/-- A token with a fault comes first. -/
lemma CaptureRun.head {total : ℕ} {tok : Event} {ts : List Event} {e : ReaderError}
    (htotal : total ≤ tree.captureMemoryLimit) (hfault : captureFault tree id total tok = some e)
    (hstep : step checks tree tok s = .stop (.error e) s.out) :
    CaptureRun checks tree id total s (tok :: ts) (.stop (.error e) s.out) := by
  rcases captureFault_cases tree id total tok with ⟨hnone, -⟩ | ⟨hover, hdecode, hbeyond⟩ | ⟨e', hbad, hdecode⟩
  · rw [hnone] at hfault
    cases hfault
  · obtain rfl := Option.some.inj (hover.symm.trans hfault)
    exact .overflow [] tok s (by simpa using hdecode) (.head htotal hbeyond) rfl hstep
  · obtain rfl := Option.some.inj (hbad.symm.trans hfault)
    exact .unreadable [] tok ts e' rfl hdecode (by simpa [tokensCost] using htotal)

variable (checks) in
theorem capture_run (ts : List Event) (h : InCapture tree s zs id b zs.length i) (hzs : zs ≠ [])
    (hopen : ∀ pre, pre <+: ts → Token.closes pre < Token.starts pre + zs.length) :
    CaptureRun checks tree id (spineCost zs) s ts (eventLoop checks tree (ts.map .ok) s) := by
  induction ts generalizing zs s b with
  | nil =>
    refine .fits _ (fun e out hstop => by cases hstop) (by simp) ?_
    simpa [tokensCost] using h.usage_le
  | cons tok ts ih =>
    have hclose : tok = .close → 2 ≤ zs.length := by
      rintro rfl
      have := hopen [.close] ⟨ts, rfl⟩
      simp [Token.isStart, Token.isClose] at this
      omega
    rw [eventLoop_cons]
    rcases capture_step checks h hzs tok hclose with ⟨hnone, s', b', hstep, hin, hout⟩ | ⟨e, he, hstep⟩
    · have hlength : (zs.advance tok).length + Token.closes [tok] = zs.length + Token.starts [tok] := by
        have hle := hopen [tok] (List.cons_prefix_cons.mpr ⟨rfl, List.nil_prefix⟩)
        refine Spine.length_advanceAll [tok] zs fun us hus => ?_
        rcases List.prefix_cons_iff.mp hus with rfl | ⟨vs, rfl, hvs⟩
        · simp
        · rw [List.prefix_nil.mp hvs]
          omega
      have hopen' : ∀ pre, pre <+: ts → Token.closes pre < Token.starts pre + (zs.advance tok).length := by
        intro pre hpre
        have hle := hopen (tok :: pre) (List.cons_prefix_cons.mpr ⟨rfl, hpre⟩)
        simp only [Token.closes_cons, Token.starts_cons, Token.closes_nil, Token.starts_nil] at hle hlength
        omega
      have hne : zs.advance tok ≠ [] := by
        have hpos := hopen' [] List.nil_prefix
        rw [Token.closes_nil, Token.starts_nil, Nat.zero_add] at hpos
        exact List.ne_nil_of_length_pos hpos
      have hdecode := decodeFault_of_captureFault hnone
      have hrun := ih hin hne hopen'
      rw [spineCost_advance hzs hclose] at hrun
      rw [hstep, Flow.bind]
      exact hrun.cons hstep hdecode hout
    · rw [hstep, Flow.bind]
      exact .head h.usage_le he hstep

variable (checks) in
/-- The tokens of a captured element from its start on. -/
theorem capture_run_start (hwf : tree.WellFormed) {z : OpenElements} (h : Follows tree z s) {tag : BytesStart}
    (hid : tree.evaluatedAt (tagsOf z ++ [tag.tagName]) = some id) (hcapture : tree.isCapture id = true)
    (hstart : ∀ p, handleStart checks tree tag s ≠ .error (.panic p)) {first : Event} {inside : List Event}
    (hfirst : first = .start tag ∧ StaysOpen inside ∨ first = .empty tag ∧ inside = []) :
    CaptureRun checks tree id 0 s (first :: inside) (eventLoop checks tree ((first :: inside).map .ok) s) := by
  have hopen := capture_open checks hwf h hid hcapture
  have hfault : captureFault tree id 0 (.empty tag) = captureFault tree id 0 (.start tag) := rfl
  rw [eventLoop_cons]
  cases hr : handleStart checks tree tag s with
  | error why =>
    rw [hr] at hopen
    cases hopen with
    | overflow hfull => exact absurd hr (hstart _)
    | error e he =>
      rcases hfirst with ⟨rfl, -⟩ | ⟨rfl, -⟩
      · have hstep : step checks tree (.start tag) s = .stop (.error e) s.out := by rw [step, hr]; rfl
        rw [hstep, Flow.bind]
        exact .head (Nat.zero_le _) he hstep
      · have hstep : step checks tree (.empty tag) s = .stop (.error e) s.out := by rw [step, hr]; rfl
        rw [hstep, Flow.bind]
        exact .head (Nat.zero_le _) (hfault.trans he) hstep
  | ok s' =>
    rw [hr] at hopen
    cases hopen with
    | ok _ b i hmode hskip hopens hroom hout hin hfollows hnone =>
      have hdecode := decodeFault_of_captureFault hnone
      rcases hfirst with ⟨rfl, hstays⟩ | ⟨rfl, rfl⟩
      · have hstep : step checks tree (.start tag) s = .next s' := by rw [step, hr]; rfl
        have hrun := capture_run checks inside hin (by simp) fun pre hpre => by
          have := hstays pre hpre
          simp only [List.length_singleton]
          omega
        rw [hstep, Flow.bind]
        apply CaptureRun.cons hstep hdecode hout
        simpa [tokenCost, frameCost, contentCost] using hrun
      · have hstep : step checks tree (.empty tag) s = handleEnd checks tree s' := by rw [step, hr]; rfl
        have hfits : 0 + tokensCost [.empty tag] ≤ tree.captureMemoryLimit := by
          simpa [tokensCost, tokenCost, frameCost, contentCost] using hin.usage_le
        rw [hstep]
        refine .fits _ (fun e out hstop => ?_) (List.forall_mem_singleton.mpr hdecode) hfits
        -- the end of an element is no error
        obtain ⟨levels, rest, -, htracks⟩ := hfollows
        have hend := end_ok checks htracks
        cases hs : handleEnd checks tree s' with
        | next s'' => rw [hs] at hstop; cases hstop
        | stop why out' =>
          rw [hs] at hend hstop
          cases hend
          cases hstop

end

/-! ### The limit is exact -/

/-- The run on these tokens ends in an overflow of a capture. -/
def Overflows [Rule R] (checks : OverflowChecks) (tree : DescriptorTree R) (s : ParserState R)
    (ts : List Event) : Prop :=
  ∃ path limit out,
    eventLoop checks tree (ts.map .ok) s = .stop (.error (.captureOverflow path limit)) out

/-- The running total of the tokens exceeds the limit first at `tok`, and up to there every token can
be decoded. -/
def OverflowsAt (tree : DescriptorTree R) (ts pre : List Event) (tok : Event) : Prop :=
  ExceedsAt tokenCost tree.captureMemoryLimit 0 ts pre tok ∧ ∀ t ∈ pre ++ [tok], decodeFault t = none

section

variable [Rule R] {checks : OverflowChecks} {tree : DescriptorTree R} {id : NodeId} {s : ParserState R}
  {ts : List Event} {r : Flow R}

/-- An overflow is found at the token at which the total exceeds the limit. -/
lemma CaptureRun.overflow_at {pre : List Event} {tok : Event}
    (h : CaptureRun checks tree id 0 s (pre ++ [tok]) r) (hat : OverflowsAt tree (pre ++ [tok]) pre tok) :
    ∃ s', eventLoop checks tree (pre.map .ok) s = .next s' ∧
      step checks tree tok s' = .stop (.error (overflowError tree id)) s.out := by
  obtain ⟨hexceeds, hdecode⟩ := hat
  have hsum := hexceeds.sum_gt
  cases h with
  | fits _ _ _ hfits =>
    unfold tokensCost at hfits
    omega
  | unreadable pre' tok' rest e hsplit hbad =>
    have hnone := hdecode tok' (by rw [hsplit]; simp)
    rw [hbad] at hnone
    cases hnone
  | overflow pre' tok' s' hdecode' hexceeds' hpre hstop =>
    obtain ⟨rest, hsplit⟩ := hexceeds'.split
    have hrest : rest = [] := by
      by_contra hne
      -- otherwise the limit would have been exceeded before
      obtain ⟨rest', last, rfl⟩ := (List.eq_nil_or_concat' rest).resolve_left hne
      have hpre' : pre = pre' ++ tok' :: rest' :=
        (List.append_inj' (by rw [hsplit]; simp : pre ++ [tok] = pre' ++ tok' :: rest' ++ [last]) rfl).1
      have hwithin := hexceeds.within
      have hbeyond := hexceeds'.beyond
      rw [hpre', List.map_append, List.sum_append, List.map_cons, List.sum_cons] at hwithin
      omega
    subst hrest
    obtain ⟨rfl, htok⟩ := List.append_inj' hsplit rfl
    obtain rfl := List.singleton_inj.mp htok
    exact ⟨s', hpre, hstop⟩

/-- A run of a capture ends in an overflow only where its tokens exceed the limit. -/
lemma CaptureRun.overflowsAt {path : String} {limit : ℕ} {out : Output R}
    (h : CaptureRun checks tree id 0 s ts (.stop (.error (.captureOverflow path limit)) out)) :
    ∃ pre tok, OverflowsAt tree ts pre tok := by
  generalize hr : (Flow.stop (.error (.captureOverflow path limit)) out : Flow R) = r at h
  cases h with
  | fits _ hnone => exact absurd hr.symm (hnone _ _)
  | overflow pre tok s' hdecode hexceeds => exact ⟨pre, tok, hexceeds, hdecode⟩
  | unreadable pre tok rest e hsplit hbad =>
    cases hr
    exact absurd rfl (decodeFault_ne_overflow hbad path limit)

variable (checks) in
/-- The tokens of a captured element up to one of them. -/
lemma capture_run_upTo (hwf : tree.WellFormed) {z : OpenElements} (h : Follows tree z s) {tag : BytesStart}
    (hid : tree.evaluatedAt (tagsOf z ++ [tag.tagName]) = some id) (hcapture : tree.isCapture id = true)
    (hstart : ∀ p, handleStart checks tree tag s ≠ .error (.panic p)) {first : Event} {inside : List Event}
    (hfirst : first = .start tag ∧ StaysOpen inside ∨ first = .empty tag ∧ inside = [])
    {pre rest : List Event} {tok : Event} (hsplit : first :: inside = pre ++ tok :: rest) :
    CaptureRun checks tree id 0 s (pre ++ [tok]) (eventLoop checks tree ((pre ++ [tok]).map .ok) s) := by
  cases pre with
  | nil =>
    obtain ⟨rfl, rfl⟩ := List.cons.inj hsplit
    refine capture_run_start checks hwf h hid hcapture hstart (hfirst.imp ?_ ?_)
    · exact fun hopen => ⟨hopen.1, fun us hus => by rw [List.prefix_nil.mp hus]; simp⟩
    · exact fun hempty => ⟨hempty.1, rfl⟩
  | cons a pre =>
    obtain ⟨rfl, rfl⟩ := List.cons.inj hsplit
    refine capture_run_start checks hwf h hid hcapture hstart (hfirst.imp ?_ ?_)
    · refine fun hopen => ⟨hopen.1, fun us hus => hopen.2 us (hus.trans ?_)⟩
      exact ⟨rest, by simp⟩
    · exact fun hempty => absurd hempty.2 (by simp)

/-- Inside a capture the memory usage is the size of what the buffer retains. -/
lemma usage_exact (hwf : tree.WellFormed) (hs : Reached checks tree s) {b : CaptureBuilder} {depth i : ℕ}
    (hmode : s.mode = .capturing b depth id i) :
    b.memoryUsage = retainedCost b.stack ∧ b.memoryUsage ≤ tree.captureMemoryLimit := by
  obtain ⟨z, levels, rest, -, htracks⟩ := hs.follows hwf
  cases htracks.mode_ok with
  | streaming _ hstream =>
    rw [hstream] at hmode
    cases hmode
  | capturing ls l b' hlevels hcapture hb hmode' =>
    rw [hmode'] at hmode
    cases hmode
    have hle := hb.usage_le
    rw [hb.limit_eq] at hle
    exact ⟨by rw [hb.usage_eq, hb.stack_eq, retainedCost_spine], hle⟩

end

/-- In every state in which the loop can be inside a capture, the memory usage is the size of all that
the buffer retains, and within the limit. The tokens of a captured element whose start does not panic, as
far as they leave it open, end in an overflow exactly when their running total exceeds the limit before a
token that cannot be decoded, and do so at the first such token; what came before the element has no part
in it. -/
theorem capture_limit_exact [Rule R] (t : BuiltTree R) (checks : OverflowChecks) :
    (∀ s, Reached checks t.tree s → ∀ b depth id i, s.mode = .capturing b depth id i →
      b.memoryUsage = retainedCost b.stack ∧ b.memoryUsage ≤ t.tree.captureMemoryLimit) ∧
    ∀ before s, eventLoop checks t.tree (before.map .ok) .init = .next s →
      ∀ (tag : BytesStart) id,
        t.tree.evaluatedAt (tagsOf (Spine.advanceAll [] before) ++ [tag.tagName]) = some id →
        t.tree.isCapture id = true → (∀ p, handleStart checks t.tree tag s ≠ .error (.panic p)) →
      ∀ first inside, (first = .start tag ∧ StaysOpen inside ∨ first = .empty tag ∧ inside = []) →
        let ts := first :: inside
        (Overflows checks t.tree s ts ↔ ∃ pre tok, OverflowsAt t.tree ts pre tok) ∧
        (∀ pre tok, OverflowsAt t.tree ts pre tok → ∃ s', eventLoop checks t.tree (pre.map .ok) s = .next s' ∧
          step checks t.tree tok s' = .stop (.error (overflowError t.tree id)) s.out) ∧
        ((∀ tok ∈ ts, decodeFault tok = none) →
          (Overflows checks t.tree s ts ↔ t.tree.captureMemoryLimit < tokensCost ts)) := by
  have hwf := t.wellFormed
  refine ⟨fun s hs b depth id i hmode => usage_exact hwf hs hmode, ?_⟩
  · intro before s hrun tag id hid hcapture hstart first inside hfirst
    have hfollows := follows_of_run hwf hrun
    have hall := capture_run_start checks hwf hfollows hid hcapture hstart hfirst
    have hfirstAt : ∀ pre tok, OverflowsAt t.tree (first :: inside) pre tok →
        ∃ s', eventLoop checks t.tree (pre.map .ok) s = .next s' ∧
          step checks t.tree tok s' = .stop (.error (overflowError t.tree id)) s.out := by
      intro pre tok ⟨hexceeds, hdecode⟩
      obtain ⟨rest, hsplit⟩ := hexceeds.split
      have hupTo := capture_run_upTo checks hwf hfollows hid hcapture hstart hfirst hsplit
      exact hupTo.overflow_at ⟨⟨⟨[], rfl⟩, hexceeds.within, hexceeds.beyond⟩, hdecode⟩
    have hiff : Overflows checks t.tree s (first :: inside) ↔
        ∃ pre tok, OverflowsAt t.tree (first :: inside) pre tok := by
      constructor
      · rintro ⟨path, limit, out, hstop⟩
        rw [hstop] at hall
        exact hall.overflowsAt
      · rintro ⟨pre, tok, hat⟩
        obtain ⟨s', hpre, hstop⟩ := hfirstAt pre tok hat
        obtain ⟨rest, hsplit⟩ := hat.1.split
        refine ⟨formatPath (t.tree.desc id).fullPath, t.tree.captureMemoryLimit, s.out, ?_⟩
        rw [hsplit, List.map_append, eventLoop_append, hpre, Flow.bind, eventLoop_cons, hstop]
        rfl
    refine ⟨hiff, hfirstAt, fun hdecode => ?_⟩
    have hsum : (∃ pre tok, ExceedsAt tokenCost t.tree.captureMemoryLimit 0 (first :: inside) pre tok) ↔ _ :=
      exists_exceedsAt (Nat.zero_le _)
    rw [Nat.zero_add] at hsum
    rw [hiff, tokensCost, ← hsum]
    refine exists_congr fun pre => exists_congr fun tok => and_iff_left_of_imp fun hexceeds t ht => ?_
    obtain ⟨rest, hsplit⟩ := hexceeds.split
    refine hdecode t ?_
    rw [hsplit, List.mem_append, List.mem_cons]
    simp only [List.mem_append, List.mem_singleton] at ht
    exact ht.imp (fun h => h) .inl

/-- A list whose boxes may hold one byte besides their own tag. -/
def tightTree : BuiltTree Probe :=
  (BuiltTree.ofCalls? "list" [.captureLimit 100, .node "box", .captureSubtree, .done]).get (by decide +kernel)

/-- A text that cannot be decoded and another one over the limit. -/
def unreadableBox : List Event := [.leaf (.text ⟨⟨#[0xff]⟩⟩), .leaf (textNamed "abcdef")]

/-- The cost of the box exceeds the limit, but the first of its texts ends the run with another error. -/
theorem overflow_not_by_total :
    ∃ s, eventLoop .checked tightTree.tree [.ok (.start (tagNamed "list" []))] .init = .next s ∧
      tightTree.tree.evaluatedAt ["list", "box"] = some ⟨1⟩ ∧ tightTree.tree.isCapture ⟨1⟩ = true ∧
      StaysOpen unreadableBox ∧
      let ts := .start (tagNamed "box" []) :: unreadableBox
      tightTree.tree.captureMemoryLimit < tokensCost ts ∧ ¬ Overflows .checked tightTree.tree s ts := by
  have hopen : ∀ pre ∈ unreadableBox.inits, Token.closes pre ≤ Token.starts pre := by decide +kernel
  refine ⟨_, rfl, by decide +kernel, by decide +kernel,
    fun pre hpre => hopen pre ((List.mem_inits _ _).mpr hpre), by decide +kernel, ?_⟩
  rintro ⟨path, limit, out, hstop⟩
  -- the run has stopped at the text that cannot be decoded
  cases hstop

/-- A list whose boxes may hold 166 bytes: 96 for their node, 3 for their tag, 66 for an attribute with a key and
a value of one byte, and one for a text. -/
def exactTree : BuiltTree Probe :=
  (BuiltTree.ofCalls? "list" [.captureLimit 166, .node "box", .captureSubtree, .done]).get (by decide +kernel)

/-- A box that fills the limit. -/
def fullBox : List Event := [.start (tagNamed "box" [("k", "v")]), .leaf (textNamed "a")]

lemma staysOpen_leaves (leaves : List LeafEvent) : StaysOpen (leaves.map .leaf) := by
  intro pre hpre
  obtain ⟨inside, -, rfl⟩ := List.prefix_map_iff.mp hpre
  have hcloses : Token.closes (inside.map (Token.leaf : LeafEvent → Event)) = 0 := by
    clear hpre
    induction inside with
    | nil => rfl
    | cons leaf inside ih => simpa [Token.isClose] using ih
  omega

theorem capture_limit_exact_sample :
    (∃ s b depth id i, Reached .checked exactTree.tree s ∧ s.mode = .capturing b depth id i ∧
      b.memoryUsage = retainedCost b.stack ∧ b.memoryUsage = 166) ∧
    ∃ s, eventLoop .checked exactTree.tree [.ok (.start (tagNamed "list" []))] .init = .next s ∧
      ¬ Overflows .checked exactTree.tree s fullBox ∧
      Overflows .checked exactTree.tree s (fullBox ++ [.leaf (textNamed "b")]) ∧
      ∃ s', eventLoop .checked exactTree.tree (fullBox.map .ok) s = .next s' ∧
        step .checked exactTree.tree (.leaf (textNamed "b")) s' =
          .stop (.error (overflowError exactTree.tree ⟨1⟩)) s.out := by
  have hlimit := capture_limit_exact exactTree .checked
  constructor
  · have hreached : Reached .checked exactTree.tree _ :=
      .between ((.start (tagNamed "list" []) :: fullBox).map .ok) rfl
    exact ⟨_, _, _, _, _, hreached, rfl, (hlimit.1 _ hreached _ _ _ _ rfl).1, rfl⟩
  · refine ⟨_, rfl, ?_⟩
    have hat := hlimit.2 [.start (tagNamed "list" [])] _ rfl (tagNamed "box" [("k", "v")]) ⟨1⟩
      (by decide +kernel) (by decide +kernel) (fun p hp => by cases hp) (.start (tagNamed "box" [("k", "v")]))
    obtain ⟨-, -, hfull⟩ := hat _ (.inl ⟨rfl, staysOpen_leaves [textNamed "a"]⟩)
    obtain ⟨hover, hfirst, -⟩ := hat _ (.inl ⟨rfl, staysOpen_leaves [textNamed "a", textNamed "b"]⟩)
    have hexceeds : OverflowsAt exactTree.tree (fullBox ++ [.leaf (textNamed "b")]) fullBox
        (.leaf (textNamed "b")) := by
      refine ⟨⟨⟨[], rfl⟩, by decide +kernel, by decide +kernel⟩, ?_⟩
      decide +kernel
    refine ⟨fun hoverflows => ?_, hover.mpr ⟨_, _, hexceeds⟩, hfirst _ _ hexceeds⟩
    have hbeyond := (hfull (by decide +kernel)).mp hoverflows
    exact absurd hbeyond (by decide +kernel)

end XmlOxydizer
