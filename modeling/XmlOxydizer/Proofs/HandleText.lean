import XmlOxydizer.Proofs.HandleEnd

/-!
# Reading text

A leaf event on a state that tracks the open elements. Text goes to the buffer of a capture
or, where the text of the innermost level is kept, to its stack frame. Every other leaf is
passed over.
-/

namespace XmlOxydizer

open Markup

variable {R : Type} {checks : OverflowChecks} {tree : DescriptorTree R}
  {levels ls : List Level} {l : Level} {rest : OpenElements} {s : ParserState R} {leaf : LeafEvent}

/-- The outcome of a leaf event. -/
inductive LeafOk (tree : DescriptorTree R) (levels : List Level) (rest : OpenElements)
    (s : ParserState R) (leaf : LeafEvent) : Flow R → Prop
  | next (levels' : List Level) (rest' : OpenElements) (s' : ParserState R)
      (hz : levels'.map Level.frame ++ rest' =
        Spine.advance (levels.map Level.frame ++ rest) (.leaf leaf))
      (htracks : Tracks tree levels' rest' s') (hout : s'.out = s.out)
      (hfault : leafFault tree (levels.map Level.frame ++ rest) leaf = none)
      (hresults : s'.resultStack = s.resultStack) : LeafOk tree levels rest s leaf (.next s')
  | error (e : ReaderError)
      (hfault : leafFault tree (levels.map Level.frame ++ rest) leaf = some e) :
      LeafOk tree levels rest s leaf (.stop (.error e) s.out)

/-- A leaf that is not read, or has no characters, leaves the state as it is. -/
lemma leaf_passed_streaming (h : Tracks tree levels rest s)
    (hcapture : tree.inCapture (levels.map Level.id) = false) (hmode : s.mode = .streaming)
    (hskip : s.skipDepth = rest.length)
    (hpassed : rest = [] → ∀ l ∈ levels.getLast?, tree.keepsText l.id = true →
      leaf.chars = "" ∧ leaf.fault = none) : LeafOk tree levels rest s leaf (.next s) := by
  obtain ⟨levels', rest', hz, htracks⟩ := h.extend_streaming (g := .leaf leaf .nil) hcapture hmode
    h.walk_eq (fun hrest l hl => ⟨by simp, fun hkeeps => by simpa using hpassed hrest l hl hkeeps⟩)
  rw [← hskip] at htracks
  refine .next levels' rest' s hz htracks rfl ?_ rfl
  simp only [leafFault, h.openCapture_streaming hcapture, h.walk_eq]
  split
  case isTrue => rfl
  case isFalse hbelow =>
    have hrest : rest = [] := List.eq_nil_of_length_eq_zero (by omega)
    split
    case isTrue hkeeps =>
      rw [List.getLast?_map, Option.any_map, Option.any_eq_true_iff_get] at hkeeps
      obtain ⟨hsome, hkeeps⟩ := hkeeps
      exact (hpassed hrest _ (Option.get_mem hsome) hkeeps).2
    case isFalse => rfl

lemma leaf_passed_capturing {b : CaptureBuilder} (h : Tracks tree (ls ++ [l]) rest s)
    (hcapture : tree.isCapture l.id = true) (hb : BuilderOk tree l.id (l.frame :: rest) b)
    (hmode : s.mode = .capturing b (rest.length + 1) l.id ls.length) (hskip : s.skipDepth = 0)
    (hfault : leaf.fault = none) (hblank : leaf.chars = "") :
    LeafOk tree (ls ++ [l]) rest s leaf (.next s) := by
  obtain ⟨levels', rest', hz, htracks⟩ := h.extend_capturing hcapture hskip h.walk_eq
    (hb.extend_blank (by simp) hfault hblank)
  rw [← hmode] at htracks
  refine .next levels' rest' s hz htracks rfl ?_ rfl
  simp only [leafFault, h.openCapture_capturing hcapture, hfault]
  simpa [hblank] using hb.overflowFault_eq_none

/-- The text of a streaming element is appended to its stack frame. -/
lemma text_streaming {content : BytesText} (h : Tracks tree levels [] s)
    (hcapture : tree.inCapture (levels.map Level.id) = false) (hmode : s.mode = .streaming)
    (hskip : s.skipDepth = 0) :
    LeafOk tree levels [] s (.text content)
      (Flow.attempt s.out (handleText tree content s) .next) := by
  rcases List.eq_nil_or_concat' levels with rfl | ⟨ls, l, rfl⟩
  · have htext : handleText tree content s = .ok s := by
      simp [handleText, hskip, hmode, h.contextStack_eq]
    rw [htext]
    exact leaf_passed_streaming h hcapture hmode hskip (by simp)
  · have hl := h.levels_ok.last
    have hstream : tree.isCapture l.id = false := by simpa using hcapture
    have hkeeps : (tree.desc l.id).needText = tree.keepsText l.id := by
      simp [DescriptorTree.keepsText, hstream]
    have hcontexts : s.contextStack = ls.map Level.ctx ++ [l.ctx] := by simp [h.contextStack_eq]
    have hget : tree.get l.ctx.descriptorId = .ok (tree.desc l.id) := by
      rw [hl.descriptorId_eq, DescriptorTree.get_eq hl.contains]
    have htext : handleText tree content s =
        if tree.keepsText l.id then do
          let decoded ← orError content.decode
          if decoded.isEmpty then return s
          return { s with
            contextStack := ls.map Level.ctx ++ [{ l.ctx with text := l.ctx.text ++ decoded }] }
        else .ok s := by
      simp only [handleText, hskip, if_true, hmode, hcontexts, List.getLast?_concat, hget, orPanic_ok,
        ok_bind, hkeeps, List.dropLast_concat, except_pure]
    have hfault : leafFault tree ((ls ++ [l]).map Level.frame ++ []) (.text content) =
        if tree.keepsText l.id then (LeafEvent.text content).fault else none := by
      simp only [leafFault, h.openCapture_streaming hcapture, h.walk_eq]
      simp
    rw [htext]
    cases hk : tree.keepsText l.id with
    | false =>
      simp only [Bool.false_eq_true, if_false]
      exact leaf_passed_streaming h hcapture hmode hskip (by simp [hk])
    | true =>
      rw [if_pos rfl, decode_eq]
      cases hf : (LeafEvent.text content).fault with
      | some e => exact .error e (by rw [hfault, hk, hf]; rfl)
      | none =>
        by_cases hblank : (LeafEvent.text content).chars = ""
        · have hempty : (LeafEvent.text content).chars.isEmpty = true := String.isEmpty_iff.mpr hblank
          simp only [orError_ok, ok_bind, hempty, if_true]
          exact leaf_passed_streaming h hcapture hmode hskip (fun _ _ _ _ => ⟨hblank, hf⟩)
        · have hempty : (LeafEvent.text content).chars.isEmpty = false := by
            simpa [String.isEmpty_iff] using hblank
          simp only [orError_ok, ok_bind, hempty, Bool.false_eq_true, if_false]
          have hlast := hl.extend_text hk hf
          have hlevels := h.levels_ok.replace hlast rfl rfl rfl (by
            simp [h.levels_ok.counted, Level.summarizedTags])
          refine .next _ [] _ ?_ ⟨hlevels, by simpa using hlevels.walk_eq, ?_, ?_, ?_, h.attrPool_eq,
            .streaming (by simpa using hstream) hmode hskip⟩ rfl (by rw [hfault, hk, hf]; rfl)
            (by simp [ParserState.resultStack, hcontexts])
          · simp
          · simp
          · simp [h.descriptorStack_eq]
          · simp [h.siblingCounters_eq]

/-- The text inside a capture goes into the buffer. -/
lemma text_capturing {content : BytesText} {b : CaptureBuilder} (h : Tracks tree (ls ++ [l]) rest s)
    (hcapture : tree.isCapture l.id = true) (hb : BuilderOk tree l.id (l.frame :: rest) b)
    (hmode : s.mode = .capturing b (rest.length + 1) l.id ls.length) (hskip : s.skipDepth = 0) :
    LeafOk tree (ls ++ [l]) rest s (.text content)
      (Flow.attempt s.out (handleText tree content s) .next) := by
  have hfault : leafFault tree ((ls ++ [l]).map Level.frame ++ rest) (.text content) =
      ((LeafEvent.text content).fault <|> overflowFault tree l.id
        (spineCost (l.frame :: rest) + (LeafEvent.text content).chars.utf8ByteSize)) := by
    simp only [leafFault, h.openCapture_capturing hcapture]
  have htext : handleText tree content s = (do
      let decoded ← orError content.decode
      if decoded.isEmpty then return s
      let b ← orError (b.text decoded)
      return { s with mode := .capturing b (rest.length + 1) l.id ls.length }) := by
    simp only [handleText, hskip, if_true, hmode]
  rw [htext, decode_eq]
  cases hf : (LeafEvent.text content).fault with
  | some e => exact .error e (by rw [hfault, hf]; rfl)
  | none =>
    by_cases hblank : (LeafEvent.text content).chars = ""
    · have hempty : (LeafEvent.text content).chars.isEmpty = true := String.isEmpty_iff.mpr hblank
      simp only [orError_ok, ok_bind, hempty, if_true]
      exact leaf_passed_capturing h hcapture hb hmode hskip hf hblank
    · have hempty : (LeafEvent.text content).chars.isEmpty = false := by
        simpa [String.isEmpty_iff] using hblank
      simp only [orError_ok, ok_bind, hempty, Bool.false_eq_true, if_false]
      have hbuilder := hb.text (by simp) hf
      generalize b.text (LeafEvent.text content).chars = r at hbuilder ⊢
      cases hbuilder with
      | overflow e he => exact .error e (by rw [hfault, hf, he]; rfl)
      | ok b' hb' hnone =>
        obtain ⟨levels', rest', hz, htracks⟩ := h.extend_capturing hcapture hskip h.walk_eq hb'
        exact .next levels' rest' _ hz htracks rfl (by rw [hfault, hf, hnone]; rfl) rfl

variable (checks) in
/-- A leaf event on a state that tracks the open elements. -/
theorem leaf_ok [Rule R] (h : Tracks tree levels rest s) (leaf : LeafEvent) :
    LeafOk tree levels rest s leaf (step checks tree (.leaf leaf) s) := by
  have hother : leaf.chars = "" → leaf.fault = none → LeafOk tree levels rest s leaf (.next s) := by
    intro hblank hfault
    cases h.mode_ok with
    | streaming hcapture hmode hskip =>
      exact leaf_passed_streaming h hcapture hmode hskip (fun _ _ _ _ => ⟨hblank, hfault⟩)
    | capturing ls l b hlevels hcapture hb hmode hskip =>
      subst hlevels
      exact leaf_passed_capturing h hcapture hb hmode hskip hfault hblank
  cases leaf with
  | text content =>
    cases h.mode_ok with
    | streaming hcapture hmode hskip =>
      by_cases hrest : rest = []
      · subst hrest
        exact text_streaming h hcapture hmode hskip
      · have htext : handleText tree content s = .ok s := by
          simp [handleText, hskip, hrest]
        simp only [step, htext, Flow.attempt]
        exact leaf_passed_streaming h hcapture hmode hskip (fun hnil => absurd hnil hrest)
    | capturing ls l b hlevels hcapture hb hmode hskip =>
      subst hlevels
      exact text_capturing h hcapture hb hmode hskip
  | cData content => exact hother rfl rfl
  | generalRef content => exact hother rfl rfl
  | comment => exact hother rfl rfl
  | decl => exact hother rfl rfl
  | pi => exact hother rfl rfl
  | docType => exact hother rfl rfl

end XmlOxydizer
