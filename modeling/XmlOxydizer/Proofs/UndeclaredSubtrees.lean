import XmlOxydizer.Proofs.CaptureLimit

/-!
# Undeclared subtrees

An element outside the tree and everything in it only moves the skip depth, which comes back to zero
when the element closes. Documents that differ in such elements are parsed alike.
-/

namespace XmlOxydizer

open Markup

variable {R : Type}

/-- The tokens open as many elements as they close, and close no element but those that they open. -/
def Balanced (ts : List Event) : Prop := StaysOpen ts ∧ Token.closes ts = Token.starts ts

/-- The tokens of one element, from its start to its end. -/
inductive ElementTokens (tag : BytesStart) : List Event → Prop
  | element (inside : List Event) (h : Balanced inside) :
      ElementTokens tag (.start tag :: (inside ++ [.close]))
  | empty : ElementTokens tag [.empty tag]

/-- An element with this tag would stand outside the tree and outside all captures. -/
structure Undeclared (tree : DescriptorTree R) (z : OpenElements) (tag : BytesStart) : Prop where
  readable : tag.nameFault = none
  outside : tree.belowCapture (tagsOf z ++ [tag.tagName]) = false
  undeclared : tree.declaredAt (tagsOf z ++ [tag.tagName]) = none

/-- The second document is the first one with one undeclared element more. -/
inductive Inserts (tree : DescriptorTree R) :
    List (Except XmlError Event) → List (Except XmlError Event) → Prop
  | insert (before : List Event) (tag : BytesStart) (ts : List Event) (rest : List (Except XmlError Event))
      (hts : ElementTokens tag ts) (hundeclared : Undeclared tree (Spine.advanceAll [] before) tag) :
      Inserts tree (before.map .ok ++ rest) (before.map .ok ++ (ts.map .ok ++ rest))

section

variable [Rule R] {checks : OverflowChecks} {tree : DescriptorTree R} {z : OpenElements}
  {s : ParserState R} {tag : BytesStart} {ts : List Event}

/-! ### Skipping -/

variable (checks tree) in
/-- A token in a skipped element. -/
lemma skip_step (hskip : 0 < s.skipDepth) (tok : Event) : step checks tree tok s =
    .next { s with skipDepth := s.skipDepth + Token.starts [tok] - Token.closes [tok] } := by
  have hsame : { s with skipDepth := s.skipDepth } = s := rfl
  have hzero : s.skipDepth ≠ 0 := by omega
  cases tok with
  | start tag => simp [step, handleStart, hskip, Flow.attempt, Token.isStart, Token.isClose]
  | close => simp [step, handleEnd, hskip, Token.isStart, Token.isClose]
  | empty tag =>
    have hstart : handleStart checks tree tag s = .ok { s with skipDepth := s.skipDepth + 1 } := by
      rw [handleStart, if_pos hskip]
    have hend : handleEnd checks tree { s with skipDepth := s.skipDepth + 1 } = .next s := by
      rw [handleEnd, if_pos (Nat.succ_pos _), Nat.add_sub_cancel]
    rw [step, hstart, Flow.attempt, hend]
    rfl
  | leaf leaf =>
    cases leaf with
    | text text =>
      have htext : handleText tree text s = .ok s := by
        unfold handleText
        rw [if_neg hzero]
        rfl
      rw [step, htext]
      rfl
    | cData => rfl
    | generalRef => rfl
    | comment => rfl
    | decl => rfl
    | pi => rfl
    | docType => rfl

variable (checks tree) in
/-- Tokens that leave the skipped element open. -/
lemma skip_run (ts : List Event)
    (hopen : ∀ pre, pre <+: ts → Token.closes pre < s.skipDepth + Token.starts pre) :
    eventLoop checks tree (ts.map .ok) s =
      .next { s with skipDepth := s.skipDepth + Token.starts ts - Token.closes ts } := by
  induction ts generalizing s with
  | nil => rfl
  | cons tok ts ih =>
    have hskip : 0 < s.skipDepth := by simpa using hopen [] List.nil_prefix
    have hone := hopen [tok] (List.cons_prefix_cons.mpr ⟨rfl, List.nil_prefix⟩)
    rw [eventLoop_cons, skip_step checks tree hskip tok, Flow.bind, ih]
    · simp only [Token.starts_cons, Token.closes_cons, Token.starts_nil, Token.closes_nil] at hone ⊢
      congr 2
      omega
    · intro pre hpre
      have hlt := hopen (tok :: pre) (List.cons_prefix_cons.mpr ⟨rfl, hpre⟩)
      simp only [Token.starts_cons, Token.closes_cons, Token.starts_nil, Token.closes_nil] at hlt hone ⊢
      omega

variable (checks tree) in
/-- The tokens inside a skipped element leave it open. -/
lemma skip_inside {inside : List Event} (h : Balanced inside) (s : ParserState R) (depth : ℕ) :
    eventLoop checks tree (inside.map .ok) { s with skipDepth := depth + 1 } =
      .next { s with skipDepth := depth + 1 } := by
  rw [skip_run checks tree inside]
  · rw [h.2, Nat.add_sub_cancel]
  · intro pre hpre
    have hle := h.1 pre hpre
    dsimp only
    omega

variable (checks tree) in
/-- In a skipped element, an element leaves no trace. -/
lemma skip_element (hskip : 0 < s.skipDepth) (hts : ElementTokens tag ts) :
    eventLoop checks tree (ts.map .ok) s = .next s := by
  cases hts with
  | empty =>
    rw [eventLoop_cons, skip_step checks tree hskip]
    rfl
  | element inside hinside =>
    have hrun := skip_inside checks tree hinside s s.skipDepth
    rw [eventLoop_cons, skip_step checks tree hskip, Flow.bind, List.map_append, eventLoop_append]
    have hstart : s.skipDepth + Token.starts [(.start tag : Event)] - Token.closes [(.start tag : Event)] =
        s.skipDepth + 1 := rfl
    rw [hstart, hrun, Flow.bind, eventLoop_cons, skip_step checks tree (Nat.succ_pos _)]
    rfl

/-! ### Undeclared elements -/

/-- Where an element is tracked, an undeclared tag is no declared child. -/
lemma Tracks.child_eq_none (hwf : tree.WellFormed) {levels : List Level} (h : Tracks tree levels [] s)
    (hcapture : tree.inCapture (levels.map Level.id) = false)
    (hnone : tree.declaredAt (tagsOf (levels.map Level.frame) ++ [tag.tagName]) = none) :
    tree.child (levels.map Level.id) tag.tagName = none := by
  have hlookup := DescriptorTree.evaluatedAt_concat hwf (tagsOf (levels.map Level.frame)) tag.tagName
  rw [h.levels_ok.walk_eq, if_neg (by simp [hcapture]), DescriptorTree.evaluatedAt, hnone, ite_self] at hlookup
  exact hlookup.symm

/-- In streaming mode, an undeclared element leaves no trace. -/
lemma streaming_element (hwf : tree.WellFormed) (h : Follows tree z s) (hmode : s.mode = .streaming)
    (hskip : s.skipDepth = 0) (hname : tag.nameFault = none)
    (hnone : tree.declaredAt (tagsOf z ++ [tag.tagName]) = none) (hts : ElementTokens tag ts) :
    eventLoop checks tree (ts.map .ok) s = .next s := by
  obtain ⟨levels, rest, rfl, htracks⟩ := h
  obtain ⟨hcapture, rfl⟩ : tree.inCapture (levels.map Level.id) = false ∧ rest = [] := by
    cases htracks.mode_ok with
    | streaming hcapture _ hrest => exact ⟨hcapture, List.eq_nil_of_length_eq_zero (hrest.symm.trans hskip)⟩
    | capturing ls l b _ _ _ hcapturing => rw [hmode] at hcapturing; cases hcapturing
  rw [List.append_nil] at hnone
  have hchild := htracks.child_eq_none hwf hcapture hnone
  have hids : ∀ id ∈ levels.map Level.id, tree.Contains id := by
    intro id hid
    obtain ⟨l, hl, rfl⟩ := List.mem_map.mp hid
    exact (htracks.levels_ok.ok l hl).contains
  have hstack : s.descriptorStack = (levels.map Level.id).map some := by
    simp [htracks.descriptorStack_eq]
  have hstart : handleStart checks tree tag s = .ok { s with skipDepth := 1 } := by
    have hlookup := lookupDescriptor_eq hwf hids tag.tagName
    simp only [handleStart, hskip, gt_iff_lt, lt_irrefl, if_false, hmode, fromUtf8_name, hname, hstack,
      orError_ok, ok_bind, hlookup, orPanic_ok, hchild]
    rfl
  have hend : handleEnd checks tree { s with skipDepth := 1 } = .next s := by
    have hsame : { s with skipDepth := 0 } = s := by rw [← hskip]
    rw [handleEnd, if_pos Nat.one_pos, Nat.sub_self, hsame]
  cases hts with
  | empty => rw [eventLoop_cons, step, hstart, Flow.attempt, hend, Flow.bind, List.map_nil, eventLoop]
  | element inside hinside =>
    have hrun := skip_inside checks tree hinside s 0
    rw [eventLoop_cons, step, hstart, Flow.attempt, Flow.bind, List.map_append, eventLoop_append, hrun,
      Flow.bind, eventLoop_cons, step, hend, Flow.bind, List.map_nil, eventLoop]

/-- Outside captures, an undeclared element leaves no trace, whether it is skipped itself or stands in a
skipped one. -/
lemma undeclared_element (hwf : tree.WellFormed) (h : Follows tree z s) (hundeclared : Undeclared tree z tag)
    (hts : ElementTokens tag ts) : eventLoop checks tree (ts.map .ok) s = .next s := by
  by_cases hskip : s.skipDepth = 0
  · refine streaming_element hwf h ?_ hskip hundeclared.readable hundeclared.undeclared hts
    obtain ⟨levels, rest, rfl, htracks⟩ := h
    cases htracks.mode_ok with
    | streaming _ hmode => exact hmode
    | capturing ls l b hlevels hcapture =>
      -- the element would stand below the captured one
      have hl : l ∈ levels := by simp [hlevels]
      have hwalk := DescriptorTree.walk_ok hwf (tagsOf (levels.map Level.frame))
      rw [htracks.levels_ok.walk_eq, hlevels] at hwalk
      have hids : (ls ++ [l]).map Level.id = ls.map Level.id ++ [l.id] := List.map_append
      have htags := hwalk.tags_last hids
      have hbelow : tree.belowCapture (tagsOf (levels.map Level.frame ++ rest) ++ [tag.tagName]) = true := by
        refine DescriptorTree.belowCapture_iff.mpr
          ⟨l.id, (htracks.levels_ok.ok l hl).contains, hcapture, ?_, ?_⟩
        · rw [htags, tagsOf_append, List.append_assoc, hlevels]
          exact (List.take_prefix _ _).trans (List.prefix_append _ _)
        · intro heq
          have hlength := congrArg List.length heq
          rw [htags, hlevels] at hlength
          simp only [List.length_take, List.length_append, tagsOf_append, List.length_singleton] at hlength
          omega
      rw [hundeclared.outside] at hbelow
      cases hbelow
  · exact skip_element checks tree (Nat.pos_of_ne_zero hskip) hts

/-- One undeclared element more or less does not change the outcome. -/
lemma parseFile_inserts (hwf : tree.WellFormed) {events events' : List (Except XmlError Event)}
    (h : Inserts tree events events') : parseFile checks tree events = parseFile checks tree events' := by
  obtain ⟨before, tag, ts, rest, hts, hundeclared⟩ := h
  have hloop : eventLoop checks tree (before.map .ok ++ rest) .init =
      eventLoop checks tree (before.map .ok ++ (ts.map .ok ++ rest)) .init := by
    rw [eventLoop_append, eventLoop_append]
    cases hrun : eventLoop checks tree (before.map .ok) .init with
    | stop why out => rfl
    | next s =>
      have hsame : eventLoop checks tree _ s = .next s :=
        undeclared_element hwf (follows_of_run hwf hrun) hundeclared hts
      rw [Flow.bind, Flow.bind, eventLoop_append, hsame, Flow.bind]
  unfold parseFile
  rw [hloop]

end

/-- A subtree whose root is no declared child of the current element leaves the parser state as it was.
Documents that differ only in undeclared subtrees outside captures have the same outcome. -/
theorem undeclared_invisible [Rule R] (t : BuiltTree R) (checks : OverflowChecks) :
    (∀ (before : List Event) (s : ParserState R), eventLoop checks t.tree (before.map .ok) .init = .next s →
      s.mode = .streaming → s.skipDepth = 0 → ∀ (tag : BytesStart), tag.nameFault = none →
      t.tree.declaredAt (tagsOf (Spine.advanceAll [] before) ++ [tag.tagName]) = none →
      ∀ ts, ElementTokens tag ts → eventLoop checks t.tree (ts.map .ok) s = .next s) ∧
    ∀ events events', Relation.EqvGen (Inserts t.tree) events events' →
      parseFile checks t.tree events = parseFile checks t.tree events' := by
  constructor
  · intro before s hrun hmode hskip tag hname hnone ts hts
    exact streaming_element t.wellFormed (follows_of_run t.wellFormed hrun) hmode hskip hname hnone hts
  · intro events events' h
    induction h with
    | rel events events' hinserts => exact parseFile_inserts t.wellFormed hinserts
    | refl events => rfl
    | symm events events' _ ih => exact ih.symm
    | trans events events' events'' _ _ ih ih' => exact ih.trans ih'

/-- An undeclared element with an item, a text that cannot be decoded and an empty list. -/
def sampleNote : List Event :=
  [.start (tagNamed "note" []), .start (tagNamed "item" []), .leaf (.text ⟨⟨#[0xff]⟩⟩), .close,
    .empty (tagNamed "list" []), .close]

lemma sampleNote_tokens : ElementTokens (tagNamed "note" []) sampleNote := by
  refine .element ((sampleNote.drop 1).take 4) ⟨?_, by decide +kernel⟩
  have hall : ∀ pre ∈ ((sampleNote.drop 1).take 4).inits, Token.closes pre ≤ Token.starts pre := by
    decide +kernel
  exact fun pre hpre => hall pre ((List.mem_inits _ _).mpr hpre)

theorem undeclared_invisible_sample :
    (∃ s : ParserState Probe,
      eventLoop .checked sampleTree.tree ((sampleDocument.tokens.take 2).map .ok) .init = .next s ∧
      eventLoop .checked sampleTree.tree (sampleNote.map .ok) s = .next s) ∧
    parseFile .checked sampleTree.tree (sampleDocument.tokens.map .ok) =
      parseFile .checked sampleTree.tree ((sampleDocument.tokens.take 2).map .ok ++
        (sampleNote.map .ok ++ (sampleDocument.tokens.drop 2).map .ok)) := by
  constructor
  · exact ⟨_, rfl, (undeclared_invisible sampleTree .checked).1 (sampleDocument.tokens.take 2) _ rfl rfl rfl
      (tagNamed "note" []) (by decide +kernel) (by decide +kernel) sampleNote sampleNote_tokens⟩
  · exact (undeclared_invisible sampleTree .checked).2 _ _ (.rel _ _ (.insert (sampleDocument.tokens.take 2)
      (tagNamed "note" []) sampleNote ((sampleDocument.tokens.drop 2).map .ok) sampleNote_tokens
      ⟨by decide +kernel, by decide +kernel, by decide +kernel⟩))

end XmlOxydizer
