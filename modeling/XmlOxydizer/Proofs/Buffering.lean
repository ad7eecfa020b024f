import XmlOxydizer.Proofs.Interpreter

/-!
# What is sent when a parse ends early

The flush buffer is emptied when it is full and at the end of the stream. A parse that returns
an error in between loses what the buffer holds.
-/

namespace XmlOxydizer

open Markup

variable {R : Type} [Rule R]

/-- The diagnostics that the rules return during a parse, in order: what a parse without a
buffer sends. -/
def returnedDiagnostics (checks : OverflowChecks) (tree : DescriptorTree R)
    (events : List (Except XmlError Event)) : List Diagnostic :=
  (parseFile checks tree events).out.evaluated.flatMap Evaluation.diagnostics

section

variable {checks : OverflowChecks} {tree : DescriptorTree R} {events : List (Except XmlError Event)}

/-- What has been sent while the buffer is short of a block. -/
lemma Buffered.sent_eq_take {out : Output R} (h : Buffered out) :
    let diags := out.evaluated.flatMap Evaluation.diagnostics
    out.sent = diags.take (diags.length / diagBufferDefault * diagBufferDefault) := by
  intro diags
  have hdelivered : out.sent ++ out.diagBuffer = diags := h.delivered
  obtain ⟨blocks, hblocks⟩ := h.blocks
  have hlength : diags.length / diagBufferDefault * diagBufferDefault = out.sent.length := by
    have hdiv : diags.length / diagBufferDefault = blocks := by
      rw [← hdelivered, List.length_append, hblocks, Nat.mul_add_div (by decide), Nat.div_eq_of_lt h.short,
        Nat.add_zero]
    rw [hdiv, hblocks, Nat.mul_comm]
  rw [hlength, ← hdelivered, List.take_left]

/-- What a parse that returns has sent depends on what the rules have returned and on whether an event
led to an error. -/
lemma sent_cases (hwf : tree.WellFormed)
    (hreturns : ∀ p, (parseFile checks tree events).result ≠ .error (.panic p)) :
    let diags := returnedDiagnostics checks tree events
    firstFault tree [] events = none ∧ (parseFile checks tree events).out.sent = diags ∨
      firstFault tree [] events ≠ none ∧ (parseFile checks tree events).out.sent =
        diags.take (diags.length / diagBufferDefault * diagBufferDefault) := by
  have hparse := parseFile_ok checks hwf events
  unfold returnedDiagnostics
  generalize parseFile checks tree events = o at hparse hreturns
  cases hparse with
  | panicked p => exact absurd rfl (hreturns p)
  | finished ts s groups hevents hrun hfollows hgroups hout hbuffered hfault =>
    exact .inl ⟨hfault, hbuffered.sent_flush⟩
  | failed e ts bad rest groups out hevents hgroups hout hbuffered hbad hfault =>
    exact .inr ⟨by simp [hfault], hbuffered.sent_eq_take⟩

/-- A list is cut into whole blocks only when its length is a multiple of the block. -/
lemma take_blocks_eq_iff {α : Type} (xs : List α) (k : ℕ) :
    xs.take (xs.length / k * k) = xs ↔ k ∣ xs.length := by
  rw [List.take_eq_self_iff, ← Nat.dvd_iff_le_div_mul]

end

/-- A parse that returns has sent all diagnostics exactly when no event leads to an error or
the diagnostics that are due before the error fill whole buffers. The same holds of data in memory. -/
theorem sent_eq_returned_iff (t : BuiltTree R) (checks : OverflowChecks)
    (events : List (Except XmlError Event))
    (hreturns : ∀ p, (parseFile checks t.tree events).result ≠ .error (.panic p)) :
    ((parseFile checks t.tree events).out.sent = returnedDiagnostics checks t.tree events ↔
      firstFault t.tree [] events = none ∨
        diagBufferDefault ∣ (dueDiagnostics checks t.tree events).length) ∧
    ∀ read data text, fromUtf8 data = .ok text → read text = events →
      let o := parseSlice checks t.tree read data
      (o.out.sent = o.out.evaluated.flatMap Evaluation.diagnostics ↔
        firstFault t.tree [] events = none ∨
          diagBufferDefault ∣ (dueDiagnostics checks t.tree events).length) := by
  have hwf := t.wellFormed
  have hdue := evaluated_due hwf hreturns
  have hfile : (parseFile checks t.tree events).out.sent = returnedDiagnostics checks t.tree events ↔
      firstFault t.tree [] events = none ∨
        diagBufferDefault ∣ (dueDiagnostics checks t.tree events).length := by
    have hblocks := take_blocks_eq_iff (returnedDiagnostics checks t.tree events) diagBufferDefault
    rw [← hdue, ← returnedDiagnostics]
    rcases sent_cases hwf hreturns with ⟨hfault, hsent⟩ | ⟨hfault, hsent⟩
    · exact iff_of_true hsent (.inl hfault)
    · rw [hsent, hblocks, or_iff_right hfault]
  refine ⟨hfile, fun read data text htext hread => ?_⟩
  rw [parseSlice_valid htext, hread]
  exact hfile

/-- An item that closes before an XML error. -/
def brokenEvents : List (Except XmlError Event) :=
  [.ok (.start (tagNamed "list" [])), .ok (.empty (tagNamed "item" [])), .error (.other "syntax")]

/-- The rule of the item has returned a diagnostic, and nothing is sent. -/
theorem sent_ne_returned : (parseFile .checked sampleTree.tree brokenEvents).out.sent ≠
    returnedDiagnostics .checked sampleTree.tree brokenEvents := by
  have hsent : (parseFile .checked sampleTree.tree brokenEvents).out.sent = [] := rfl
  have hone : (returnedDiagnostics .checked sampleTree.tree brokenEvents).length = 1 := by decide +kernel
  intro h
  rw [← h, hsent] at hone
  cases hone

/-- A list whose items have 64 rules that report. -/
def busyTree : BuiltTree Probe :=
  (BuiltTree.ofCalls? "list" (.node "item" :: List.replicate 64 (.rule ⟨.empty, true⟩))).get
    (by decide +kernel)

/-- Four items before an XML error. -/
def fullBufferEvents : List (Except XmlError Event) :=
  .ok (.start (tagNamed "list" [])) :: List.replicate 4 (.ok (.empty (tagNamed "item" []))) ++
    [.error (.other "syntax")]

/-- The 256 diagnostics of the items fill the buffer once, so that the error loses none of them. -/
theorem sent_eq_returned_iff_sample :
    (parseFile .checked busyTree.tree fullBufferEvents).out.sent =
        returnedDiagnostics .checked busyTree.tree fullBufferEvents ∧
      firstFault busyTree.tree [] fullBufferEvents ≠ none ∧
      (returnedDiagnostics .checked busyTree.tree fullBufferEvents).length = 256 := by
  have herror : (parseFile .checked busyTree.tree fullBufferEvents).result =
      .error (.error (.xmlParse (.other "syntax"))) := by decide +kernel
  have hfull : (returnedDiagnostics .checked busyTree.tree fullBufferEvents).length = 256 := by decide +kernel
  have hreturns : ∀ p, (parseFile .checked busyTree.tree fullBufferEvents).result ≠ .error (.panic p) := by
    intro p hp
    rw [herror] at hp
    cases hp
  refine ⟨(sent_eq_returned_iff busyTree .checked fullBufferEvents hreturns).1.mpr (.inr ?_),
    by decide +kernel, hfull⟩
  rw [← evaluated_due busyTree.wellFormed hreturns, ← returnedDiagnostics, hfull]
  decide

end XmlOxydizer
