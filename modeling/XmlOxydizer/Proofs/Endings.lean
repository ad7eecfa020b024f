import XmlOxydizer.Proofs.AccessMode

/-!
# The end of an evaluated element

The loop calls `handleEnd` on an element at its end token, or right after the start that an
empty-element token stands for. In either state the element is the innermost level, its rules are
evaluated on one view, and its summary becomes the last child of the context below.
-/

namespace XmlOxydizer

open Markup

variable {R : Type} [Rule R]

/-- The states in which the loop is between two events, or between the two halves of an empty-element
event. -/
inductive Reached (checks : OverflowChecks) (tree : DescriptorTree R) (s : ParserState R) : Prop
  | between (events : List (Except XmlError Event)) (hrun : eventLoop checks tree events .init = .next s)
  | within (events : List (Except XmlError Event)) (tag : BytesStart) (u : ParserState R)
      (hrun : eventLoop checks tree events .init = .next u) (hstart : handleStart checks tree tag u = .ok s)

/-- The loop calls `handleEnd` on the element `c` in the state `s`. -/
inductive EndsIn (checks : OverflowChecks) (tree : DescriptorTree R) (c : ClosingElement)
    (s : ParserState R) : Prop
  | close (before : List Event) (hrun : eventLoop checks tree (before.map .ok) .init = .next s)
      (hc : (Spine.advanceAll [] before).closing .close = some c)
  | empty (before : List Event) (tag : BytesStart) (u : ParserState R)
      (hrun : eventLoop checks tree (before.map .ok) .init = .next u)
      (hstart : handleStart checks tree tag u = .ok s)
      (hc : (Spine.advanceAll [] before).closing (.empty tag) = some c)

/-- The summary that the innermost context received last. -/
def ParserState.lastSummary (s : ParserState R) : Option ChildSummary :=
  s.contextStack.getLast?.bind (fun ctx => ctx.children.getLast?)

/-- What `handleEnd` does at the end of a level. -/
inductive LevelEnds (checks : OverflowChecks) (tree : DescriptorTree R) (ls : List Level) (l : Level)
    (s : ParserState R) : Flow R → Prop
  | next (s' : ParserState R) (summary : ChildSummary)
      (hout : s'.out = s.out.record (evaluationsOn (l.view checks tree ls) (tree.desc l.id).rules))
      (hsummary : LeavesSummary checks tree ls l s s' summary) : LevelEnds checks tree ls l s (.next s')
  | overflow (done : List (Evaluation R)) (hchecked : checks = .checked)
      (hdone : done <+: evaluationsOn (l.view checks tree ls) (tree.desc l.id).rules)
      (hresults : ruleResultsOf checks (l.view checks tree ls) (tree.desc l.id).rules =
        .error .shlOverflow) :
      LevelEnds checks tree ls l s (.stop (.panic .shlOverflow) (s.out.record done))

section

variable {checks : OverflowChecks} {tree : DescriptorTree R} {c : ClosingElement} {s s' : ParserState R}
  {ls : List Level} {l : Level} {id : NodeId}

lemma Reached.follows (hwf : tree.WellFormed) (h : Reached checks tree s) : ∃ z, Follows tree z s := by
  have hrun : ∀ {events : List (Except XmlError Event)} {u : ParserState R},
      eventLoop checks tree events .init = .next u → ∃ z, Follows tree z u := by
    intro events u hu
    have hok := run_ok checks hwf (follows_init tree) events
    rw [hu] at hok
    cases hok with
    | next ts _ groups hevents hfollows => exact ⟨_, hfollows⟩
  cases h with
  | between events hs => exact hrun hs
  | within events tag u hu hstart =>
    obtain ⟨z, hz⟩ := hrun hu
    exact ⟨_, (hz.start hwf hstart).1⟩

lemma EndsIn.follows (hwf : tree.WellFormed) (h : EndsIn checks tree c s) : Follows tree c.spine s := by
  cases h with
  | close before hrun hc =>
    have hfollows := follows_of_run hwf hrun
    rcases List.eq_nil_or_concat' (Spine.advanceAll [] before) with hz | ⟨z, f, hz⟩
    · rw [hz] at hc
      cases hc
    · rw [hz, Spine.closing_close] at hc
      obtain rfl := Option.some.inj hc
      rwa [hz] at hfollows
  | empty before tag u hrun hstart hc =>
    have hfollows := ((follows_of_run hwf hrun).start hwf hstart).1
    rw [Spine.closing_empty] at hc
    obtain rfl := Option.some.inj hc
    exact hfollows

/-- The element is the innermost level of the state. -/
lemma EndsIn.level (hwf : tree.WellFormed) (h : EndsIn checks tree c s)
    (hid : tree.evaluatedAt (closingTags c) = some id) :
    ∃ ls l, l.id = id ∧ Viewed tree c ls l ∧ Tracks tree (ls ++ [l]) [] s := by
  have hwalk := hid
  rw [DescriptorTree.evaluatedAt_eq_walk hwf, ← tagsOf_spine] at hwalk
  have hbelow : (tree.walk (tagsOf c.spine)).below = 0 := by
    by_contra hbelow
    rw [if_neg hbelow] at hwalk
    cases hwalk
  obtain ⟨levels, hz, htracks⟩ := (h.follows hwf).levels hbelow
  rcases List.eq_nil_or_concat' levels with rfl | ⟨ls, l, rfl⟩
  · simp [Closing.spine] at hz
  · have hviewed := closing_of_spine hz ▸ htracks.viewed
    exact ⟨ls, l, Option.some.inj ((hviewed.evaluatedAt hwf).symm.trans hid), hviewed, htracks⟩

variable (checks) in
lemma Tracks.ends (h : Tracks tree (ls ++ [l]) [] s) :
    LevelEnds checks tree ls l s (handleEnd checks tree s) := by
  have hend := end_ok checks h
  generalize handleEnd checks tree s = r at hend ⊢
  cases hend with
  | next levels' rest' s' hz htracks' hout hleaves =>
    obtain ⟨summary, hsummary⟩ := hleaves rfl ls l rfl
    exact .next s' summary (by rw [hout, closingEvaluations_concat]) hsummary
  | overflow ls' l' done hchecked hlevels hrest hdone hlen hresults =>
    obtain ⟨rfl, hl⟩ := List.append_inj' hlevels rfl
    obtain rfl := List.singleton_inj.mp hl
    exact .overflow done hchecked hdone hresults

/-- The evaluations of the rules are added to the log, up to a panic. -/
lemma LevelEnds.evaluated {r : Flow R} (h : LevelEnds checks tree ls l s r) :
    ∃ done, r.out.evaluated = s.out.evaluated ++ done ∧
      done <+: evaluationsOn (l.view checks tree ls) (tree.desc l.id).rules := by
  cases h with
  | next s' summary hout => exact ⟨_, by rw [Flow.out, hout, Output.evaluated_record], List.prefix_rfl⟩
  | overflow done hchecked hdone => exact ⟨done, by rw [Flow.out, Output.evaluated_record], hdone⟩

/-- The summary of an element becomes the last child of the element around it. -/
lemma LeavesSummary.last {summary : ChildSummary} (h : LeavesSummary checks tree ls l s s' summary)
    (htracks : Tracks tree (ls ++ [l]) [] s) (hls : ls ≠ []) : s'.lastSummary = some summary := by
  obtain ⟨ls, p, rfl⟩ := (List.eq_nil_or_concat' ls).resolve_left hls
  rw [ParserState.lastSummary, h.contexts_eq, htracks.contextStack_eq]
  simp [pushSummary]

end

end XmlOxydizer
