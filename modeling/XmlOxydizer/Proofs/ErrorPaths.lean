import XmlOxydizer.Proofs.CaptureLimit
import XmlOxydizer.Proofs.SwitchedTrees
import XmlOxydizer.Proofs.Verdicts

/-!
# Paths in errors

The text of a path can be read back, as long as no tag contains a slash. The path in a capture overflow then names
one node of the schema, a capture node that the document has open, or is opening, at the event of the error.
-/

namespace XmlOxydizer

open Lists Markup

variable {R : Type}

/-- No segment contains the separator of paths. -/
def SlashFree (path : List PathSegment) : Prop := ∀ segment ∈ path, '/' ∉ segment.str.toList

lemma splitOn_formatPath {path : List PathSegment} (hne : path ≠ []) (h : SlashFree path) :
    (formatPath path).toList.splitOn '/' = path.map (fun segment => segment.str.toList) := by
  have htext : (formatPath path).toList = ['/'].intercalate (path.map (fun segment => segment.str.toList)) := by
    unfold formatPath
    rw [String.toList_intercalate, List.map_map]
    rfl
  rw [htext]
  apply List.splitOn_intercalate
  · intro chars hchars
    obtain ⟨segment, hsegment, rfl⟩ := List.mem_map.mp hchars
    exact h segment hsegment
  · simpa using hne

lemma formatPath_inj {path path' : List PathSegment} (hne : path ≠ []) (hne' : path' ≠ []) (h : SlashFree path)
    (h' : SlashFree path') (heq : formatPath path = formatPath path') : path = path' := by
  have hsplit := splitOn_formatPath hne h
  rw [heq, splitOn_formatPath hne' h'] at hsplit
  have hinj : Function.Injective (fun segment : PathSegment => segment.str.toList) := by
    rintro ⟨s⟩ ⟨s'⟩ hs
    rw [PathSegment.mk.injEq]
    exact String.toList_inj.mp hs
  exact (List.map_injective_iff.mpr hinj hsplit).symm

/-- The tags of the open elements, with that of an element that is about to be opened. -/
def tagsAt (z : OpenElements) : Event → List String
  | .start tag => tagsOf z ++ [tag.tagName]
  | .empty tag => tagsOf z ++ [tag.tagName]
  | _ => tagsOf z

section

variable [Rule R] {tree : DescriptorTree R} {z : OpenElements} {text : String} {limit : ℕ}

omit [Rule R] in
lemma right_of_orElse {x y : Option ReaderError} {e : ReaderError} (hx : x ≠ some e) (h : (x <|> y) = some e) :
    y = some e := by
  cases x with
  | none => exact h
  | some e' => exact absurd h hx

/-- A capture node on the path, and what an overflow of its capture says. -/
structure NamesCapture (tree : DescriptorTree R) (path : List String) (text : String) (limit : ℕ) (id : NodeId) :
    Prop where
  contains : tree.Contains id
  capture : tree.isCapture id = true
  on_path : (tree.desc id).tags <+: path
  text_eq : text = formatPath (tree.desc id).fullPath
  limit_eq : limit = tree.captureMemoryLimit

lemma passed_node (hwf : tree.WellFormed) {path : List String} {id : NodeId}
    (hid : (tree.walk path).ids.getLast? = some id) : tree.Contains id ∧ (tree.desc id).tags <+: path := by
  have hwalk := DescriptorTree.walk_ok hwf path
  obtain ⟨ids, hids⟩ := List.getLast?_eq_some_iff.mp hid
  refine ⟨hwalk.contains id (by simp [hids]), ?_⟩
  rw [hwalk.tags_last hids]
  exact List.take_prefix _ _

omit [Rule R] in
lemma overflowFault_eq_some {id : NodeId} {cost : ℕ}
    (h : overflowFault tree id cost = some (.captureOverflow text limit)) :
    text = formatPath (tree.desc id).fullPath ∧ limit = tree.captureMemoryLimit := by
  unfold overflowFault at h
  split_ifs at h
  obtain ⟨rfl, rfl⟩ := ReaderError.captureOverflow.inj (Option.some.inj h)
  exact ⟨rfl, rfl⟩

/-- The open capture is a node on the path of the open elements. -/
lemma openCapture_node (hwf : tree.WellFormed) {id : NodeId} {zs : OpenElements} {cost : ℕ}
    (hopen : tree.openCapture z = some (id, zs))
    (h : overflowFault tree id cost = some (.captureOverflow text limit)) :
    NamesCapture tree (tagsOf z) text limit id := by
  obtain ⟨htext, hlimit⟩ := overflowFault_eq_some h
  unfold DescriptorTree.openCapture at hopen
  dsimp only at hopen
  cases hlast : (tree.walk (tagsOf z)).ids.getLast? with
  | none =>
    rw [hlast] at hopen
    cases hopen
  | some last =>
    rw [hlast] at hopen
    dsimp only at hopen
    split_ifs at hopen with hcapture
    obtain ⟨rfl, -⟩ := Prod.mk.inj (Option.some.inj hopen)
    obtain ⟨hcontains, hpath⟩ := passed_node hwf hlast
    exact ⟨hcontains, hcapture, hpath, htext, hlimit⟩

omit [Rule R] in
lemma startFault_overflow {tag : BytesStart} (h : startFault tree z tag = some (.captureOverflow text limit)) :
    (∃ id zs, tree.openCapture z = some (id, zs) ∧
      overflowFault tree id (spineCost zs + elementCost tag.tagName tag.attrs) =
        some (.captureOverflow text limit)) ∨
    ∃ id, (tree.walk (tagsOf z ++ [tag.tagName])).ids.getLast? = some id ∧ tree.isCapture id = true ∧
      overflowFault tree id (elementCost tag.tagName tag.attrs) =
        some (.captureOverflow text limit) := by
  have hname : tag.nameFault ≠ some (.captureOverflow text limit) :=
    fun hfault => nameFault_ne_overflow hfault text limit rfl
  have hattrs : tag.attrsFault ≠ some (.captureOverflow text limit) := by
    intro hfault
    obtain ⟨attr, -, hattr⟩ := List.exists_of_findSome?_eq_some hfault
    exact attributeFault_ne_overflow hattr text limit rfl
  unfold startFault at h
  cases hopen : tree.openCapture z with
  | some capture =>
    obtain ⟨id, zs⟩ := capture
    rw [hopen] at h
    exact .inl ⟨id, zs, rfl, right_of_orElse hattrs (right_of_orElse hname h)⟩
  | none =>
    rw [hopen] at h
    dsimp only at h
    split_ifs at h with hbelow
    have hrest := right_of_orElse hname h
    cases hchild : tree.child (tree.walk (tagsOf z)).ids tag.tagName with
    | none =>
      rw [hchild] at hrest
      cases hrest
    | some id =>
      rw [hchild] at hrest
      dsimp only at hrest
      have hread : (if tree.keepsAttrs id = true then tag.attrsFault else none) ≠
          some (.captureOverflow text limit) := by
        split_ifs
        · exact hattrs
        · simp
      have hover := right_of_orElse hread hrest
      split_ifs at hover with hcapture
      refine .inr ⟨id, ?_, hcapture, hover⟩
      have hstream := openCapture_eq_none hopen
      rw [DescriptorTree.walk_concat, Position.enter, if_neg (by simp [hbelow, hstream]), hchild]
      simp

omit [Rule R] in
lemma leafFault_overflow {leaf : LeafEvent} (h : leafFault tree z leaf = some (.captureOverflow text limit)) :
    ∃ id zs, tree.openCapture z = some (id, zs) ∧
      overflowFault tree id (spineCost zs + leaf.chars.utf8ByteSize) = some (.captureOverflow text limit) := by
  have hleaf : decodeFault (.leaf leaf) ≠ some (.captureOverflow text limit) :=
    fun hfault => decodeFault_ne_overflow hfault text limit rfl
  unfold leafFault at h
  cases hopen : tree.openCapture z with
  | some capture =>
    obtain ⟨id, zs⟩ := capture
    rw [hopen] at h
    exact ⟨id, zs, rfl, right_of_orElse hleaf h⟩
  | none =>
    rw [hopen] at h
    dsimp only at h
    split_ifs at h
    exact absurd h hleaf

lemma startFault_names (hwf : tree.WellFormed) {tag : BytesStart}
    (h : startFault tree z tag = some (.captureOverflow text limit)) :
    ∃ id, NamesCapture tree (tagsOf z ++ [tag.tagName]) text limit id := by
  rcases startFault_overflow h with ⟨id, zs, hopen, hover⟩ | ⟨id, hlast, hcapture, hover⟩
  · obtain ⟨hcontains, hcapture, hpath, htext, hlimit⟩ := openCapture_node hwf hopen hover
    exact ⟨id, hcontains, hcapture, hpath.trans (List.prefix_append _ _), htext, hlimit⟩
  · obtain ⟨htext, hlimit⟩ := overflowFault_eq_some hover
    obtain ⟨hcontains, hpath⟩ := passed_node hwf hlast
    exact ⟨id, hcontains, hcapture, hpath, htext, hlimit⟩

lemma fault_overflow (hwf : tree.WellFormed) {tok : Event}
    (h : fault tree z tok = some (.captureOverflow text limit)) :
    ∃ id, NamesCapture tree (tagsAt z tok) text limit id := by
  cases tok with
  | start tag => exact startFault_names hwf h
  | empty tag => exact startFault_names hwf h
  | close => cases h
  | leaf leaf =>
    obtain ⟨id, zs, hopen, hover⟩ := leafFault_overflow h
    exact ⟨id, openCapture_node hwf hopen hover⟩

end

/-- The path in a capture overflow names one node of the schema, if no tag contains a slash. The loop has passed
the events before the one that it stops at with the overflow. The node is a capture node, and the elements that
are open at this event, with the one that the event opens, lead to it or further. -/
theorem overflow_names_capture [Rule R] (t : BuiltTree R) (checks : OverflowChecks)
    (events : List (Except XmlError Event)) (text : String) (limit : ℕ)
    (hslash : ∀ node ∈ t.tree.nodes, SlashFree node.fullPath)
    (h : (parseFile checks t.tree events).result = .error (.error (.captureOverflow text limit))) :
    ∃ before tok after s out id, events = before.map .ok ++ .ok tok :: after ∧
      eventLoop checks t.tree (before.map .ok) .init = .next s ∧
      step checks t.tree tok s = .stop (.error (.captureOverflow text limit)) out ∧
      NamesCapture t.tree (tagsAt (Spine.advanceAll [] before) tok) text limit id ∧
      ∀ id', t.tree.Contains id' → formatPath (t.tree.desc id').fullPath = text → id' = id := by
  have hwf := t.wellFormed
  unfold parseFile at h
  cases hloop : eventLoop checks t.tree events .init with
  | next s =>
    rw [hloop] at h
    cases h
  | stop why out =>
    rw [hloop] at h
    obtain rfl := Except.error.inj h
    obtain ⟨before, bad, after, s, rfl, hrun, hstop⟩ := eventLoop_stop hloop
    cases bad with
    | error e => cases hstop
    | ok tok =>
      have hstep : step checks t.tree tok s = .stop (.error (.captureOverflow text limit)) out := by
        rw [eventLoop] at hstop
        cases hnext : step checks t.tree tok s with
        | next u =>
          rw [hnext] at hstop
          cases hstop
        | stop why' out' => rwa [hnext] at hstop
      have hok := step_ok checks hwf (follows_of_run hwf hrun) tok
      rw [hstep] at hok
      cases hok with
      | error _ hfault =>
        obtain ⟨id, hid⟩ := fault_overflow hwf hfault
        refine ⟨before, tok, after, s, _, id, rfl, hrun, hstep, hid, fun id' hid' htext => ?_⟩
        have hpath : ∀ {c}, t.tree.Contains c → (t.tree.desc c).fullPath ≠ [] := by
          intro c hc hnil
          apply hwf.tags_ne_nil hc
          simp [DescriptorNode.tags, hnil]
        apply hwf.path_inj id' id hid' hid.contains
        apply formatPath_inj (hpath hid') (hpath hid.contains)
        · exact hslash _ (DescriptorTree.desc_mem hid')
        · exact hslash _ (DescriptorTree.desc_mem hid.contains)
        · exact htext.trans hid.text_eq

/-- A box with too long a text for the limit of 100 bytes. -/
def longTextEvents : List Event :=
  [.start (tagNamed "list" []), .start (tagNamed "box" []), .leaf (textNamed "abcdef")]

theorem overflow_names_capture_sample : ∃ before tok after s out id,
    longTextEvents.map .ok = before.map .ok ++ (.ok tok : Except XmlError Event) :: after ∧
      eventLoop .checked tightTree.tree (before.map .ok) .init = .next s ∧
      step .checked tightTree.tree tok s = .stop (.error (.captureOverflow "list/box" 100)) out ∧
      NamesCapture tightTree.tree (tagsAt (Spine.advanceAll [] before) tok) "list/box" 100 id := by
  have hslash : ∀ node ∈ tightTree.tree.nodes, SlashFree node.fullPath := by
    unfold SlashFree
    decide +kernel
  have hresult : (parseFile .checked tightTree.tree (longTextEvents.map .ok)).result =
      .error (.error (.captureOverflow "list/box" 100)) := by decide +kernel
  obtain ⟨before, tok, after, s, out, id, hevents, hrun, hstep, hid, -⟩ :=
    overflow_names_capture tightTree .checked _ _ _ hslash hresult
  exact ⟨before, tok, after, s, out, id, hevents, hrun, hstep, hid⟩

end XmlOxydizer
