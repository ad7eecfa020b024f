import XmlOxydizer.Proofs.BuildPasses

/-!
# What builder calls declare

The calls are read as a text, without a builder. The node that a call is about is found by reading the calls before
it backwards, past every node that has been left again. The rules of a node are those of the calls about it, in
order, and its mode is the one that was asked for last. A builder holds the same declarations.
-/

namespace XmlOxydizer

variable {R : Type}

namespace BuilderCall

def declaredTag? : BuilderCall R → Option String
  | .node tag => some tag
  | _ => none

def addedRule? : BuilderCall R → Option R
  | .rule r => some r
  | _ => none

/-- Whether the call asks for a capture. -/
def askedMode? : BuilderCall R → Option Bool
  | .streaming => some false
  | .captureSubtree => some true
  | _ => none

def askedLimit? : BuilderCall R → Option ℕ
  | .captureLimit bytes => some bytes
  | _ => none

/-- The path of the current node after the call. -/
def movePath (path : List String) : BuilderCall R → List String
  | .node tag => path ++ [tag]
  | .done => path.dropLast
  | _ => path

end BuilderCall

/-- The number of nodes that the calls declare below the root. -/
def nodeCount (cs : List (BuilderCall R)) : ℕ := (cs.filterMap BuilderCall.declaredTag?).length

/-- The node entered last and not left again, in calls that are read from the last one to the first. So many nodes
have been left whose declaration is still to come. -/
def lastEntered : ℕ → List (BuilderCall R) → ℕ
  | _, [] => 0
  | left, .done :: cs => lastEntered (left + 1) cs
  | 0, .node _ :: cs => nodeCount cs + 1
  | left + 1, .node _ :: cs => lastEntered left cs
  | left, _ :: cs => lastEntered left cs

/-- The number of the node that is current after the calls. -/
def currentNode (cs : List (BuilderCall R)) : ℕ := lastEntered 0 cs.reverse

/-- The path of the node that is current after the calls. -/
def currentPath (rootTag : String) (cs : List (BuilderCall R)) : List String :=
  cs.foldl BuilderCall.movePath [rootTag]

/-- Every call, with the calls before it. -/
def withBefore (cs : List (BuilderCall R)) : List (List (BuilderCall R) × BuilderCall R) := cs.inits.zip cs

/-- The calls that are made at node `i`, in order. -/
def madeAt (cs : List (BuilderCall R)) (i : ℕ) : List (BuilderCall R) :=
  ((withBefore cs).filter fun entry => currentNode entry.1 = i).map Prod.snd

/-- The rules that the calls give to node `i`, in order. -/
def rulesOf (cs : List (BuilderCall R)) (i : ℕ) : List R := (madeAt cs i).filterMap BuilderCall.addedRule?

/-- Whether the last call about the mode of node `i` asks for a capture. -/
def finalMode (cs : List (BuilderCall R)) (i : ℕ) : Bool :=
  ((madeAt cs i).filterMap BuilderCall.askedMode?).getLastD false

/-- The capture limit that the calls set last. -/
def finalLimit (cs : List (BuilderCall R)) : ℕ :=
  (cs.filterMap BuilderCall.askedLimit?).getLastD (64 * 1024 * 1024)

/-- The root, and the node of every call of `node`: its tag, its path and its parent. -/
def declaredNodes (rootTag : String) (cs : List (BuilderCall R)) : List (NodeDeclaration R) :=
  ⟨⟨rootTag⟩, [⟨rootTag⟩], false, [], none⟩ :: (withBefore cs).filterMap fun (before, c) =>
    c.declaredTag?.map fun tag =>
      ⟨⟨tag⟩, (currentPath rootTag before ++ [tag]).map PathSegment.mk, false, [], some (currentNode before)⟩

/-- What the calls declare, node by node. -/
def declaredBy (rootTag : String) (cs : List (BuilderCall R)) : List (NodeDeclaration R) :=
  (declaredNodes rootTag cs).mapIdx fun i d => { d with isCapture := finalMode cs i, rules := rulesOf cs i }

/-! ### One more call -/

section Concat

variable {cs : List (BuilderCall R)} {c : BuilderCall R} {rootTag : String} {i : ℕ}

lemma withBefore_concat (cs : List (BuilderCall R)) (c : BuilderCall R) :
    withBefore (cs ++ [c]) = withBefore cs ++ [(cs, c)] := by
  unfold withBefore
  induction cs with
  | nil => rfl
  | cons d cs ih =>
    rw [List.cons_append, List.inits_cons, List.inits_cons, List.zip_cons_cons, List.zip_cons_cons,
      ← List.map_id (cs ++ [c]), ← List.map_id cs, List.zip_map, List.zip_map, List.map_id, List.map_id, ih]
    simp

lemma madeAt_concat (cs : List (BuilderCall R)) (c : BuilderCall R) (i : ℕ) :
    madeAt (cs ++ [c]) i = madeAt cs i ++ if currentNode cs = i then [c] else [] := by
  unfold madeAt
  rw [withBefore_concat, List.filter_append, List.map_append]
  congr 1
  by_cases h : currentNode cs = i <;> simp [h]

lemma nodeCount_concat (cs : List (BuilderCall R)) (c : BuilderCall R) :
    nodeCount (cs ++ [c]) = nodeCount cs + if c.declaredTag?.isSome then 1 else 0 := by
  unfold nodeCount
  rw [List.filterMap_append, List.length_append]
  cases h : c.declaredTag? <;> simp [h]

lemma declaredNodes_concat (rootTag : String) (cs : List (BuilderCall R)) (c : BuilderCall R) :
    declaredNodes rootTag (cs ++ [c]) = declaredNodes rootTag cs ++ (c.declaredTag?.map fun tag =>
      ⟨⟨tag⟩, (currentPath rootTag cs ++ [tag]).map PathSegment.mk, false, [], some (currentNode cs)⟩).toList := by
  unfold declaredNodes
  rw [withBefore_concat, List.filterMap_append, List.cons_append]
  cases h : c.declaredTag? <;> simp [h]

lemma length_declaredNodes (rootTag : String) (cs : List (BuilderCall R)) :
    (declaredNodes rootTag cs).length = nodeCount cs + 1 := by
  induction cs using List.reverseRecOn with
  | nil => rfl
  | append_singleton cs c ih =>
    rw [declaredNodes_concat, List.length_append, ih, nodeCount_concat]
    cases h : c.declaredTag? <;> simp

lemma length_declaredBy (rootTag : String) (cs : List (BuilderCall R)) :
    (declaredBy rootTag cs).length = nodeCount cs + 1 := by
  rw [declaredBy, List.length_mapIdx, length_declaredNodes]

lemma currentPath_concat (rootTag : String) (cs : List (BuilderCall R)) (c : BuilderCall R) :
    currentPath rootTag (cs ++ [c]) = c.movePath (currentPath rootTag cs) := by
  rw [currentPath, List.foldl_concat, currentPath]

lemma lastEntered_le (left : ℕ) (cs : List (BuilderCall R)) : lastEntered left cs ≤ nodeCount cs := by
  have hcount : ∀ (c : BuilderCall R) cs, nodeCount cs ≤ nodeCount (c :: cs) := by
    intro c cs
    unfold nodeCount
    rw [List.filterMap_cons]
    split
    · exact le_rfl
    · exact Nat.le_succ _
  induction cs generalizing left with
  | nil => exact Nat.zero_le _
  | cons c cs ih =>
    cases c with
    | done => exact (ih _).trans (hcount _ _)
    | node tag =>
      cases left with
      | zero => exact le_rfl
      | succ left => exact (ih _).trans (hcount _ _)
    | streaming => cases left <;> exact (ih _).trans (hcount _ _)
    | captureSubtree => cases left <;> exact (ih _).trans (hcount _ _)
    | rule rule => cases left <;> exact (ih _).trans (hcount _ _)
    | captureLimit bytes => cases left <;> exact (ih _).trans (hcount _ _)

lemma currentNode_le (cs : List (BuilderCall R)) : currentNode cs ≤ nodeCount cs := by
  have h := lastEntered_le 0 cs.reverse
  rwa [nodeCount, List.filterMap_reverse, List.length_reverse] at h

/-- No call is about a node that is declared later. -/
lemma madeAt_eq_nil (h : nodeCount cs < i) : madeAt cs i = [] := by
  induction cs using List.reverseRecOn with
  | nil => rfl
  | append_singleton cs c ih =>
    have hcount := nodeCount_concat cs c
    have hcurrent := currentNode_le cs
    rw [madeAt_concat, ih (by omega), if_neg (by omega), List.append_nil]

/-- A declaration after one more call about it. -/
def NodeDeclaration.amend (d : NodeDeclaration R) (c : BuilderCall R) : NodeDeclaration R :=
  { d with isCapture := c.askedMode?.getD d.isCapture, rules := d.rules ++ c.addedRule?.toList }

/-- A call that declares no node is about the current one. -/
lemma declaredBy_concat (hc : c.declaredTag? = none) : declaredBy rootTag (cs ++ [c]) =
    (declaredBy rootTag cs).modify (currentNode cs) fun d => d.amend c := by
  refine List.ext_getElem? fun i => ?_
  have hnodes : declaredNodes rootTag (cs ++ [c]) = declaredNodes rootTag cs := by
    simp [declaredNodes_concat, hc]
  rw [declaredBy, declaredBy, hnodes, List.getElem?_modify, List.getElem?_mapIdx, List.getElem?_mapIdx, rulesOf,
    finalMode, madeAt_concat]
  cases (declaredNodes rootTag cs)[i]? with
  | none => simp
  | some d =>
    by_cases hi : currentNode cs = i
    · cases hrule : c.addedRule? <;> cases hmode : c.askedMode? <;>
        simp [hi, NodeDeclaration.amend, rulesOf, finalMode, hrule, hmode]
    · simp [hi, rulesOf, finalMode]

/-- A call that says nothing about a node changes nothing. -/
lemma declaredBy_idle (hc : c.declaredTag? = none) (hmode : c.askedMode? = none) (hrule : c.addedRule? = none) :
    declaredBy rootTag (cs ++ [c]) = declaredBy rootTag cs := by
  have hamend : ∀ d : NodeDeclaration R, d.amend c = d := fun d => by simp [NodeDeclaration.amend, hmode, hrule]
  rw [declaredBy_concat hc]
  simp only [hamend]
  exact List.modify_id _ _

/-- A call of `node` declares a child of the current node. -/
lemma declaredBy_node (rootTag : String) (cs : List (BuilderCall R)) (tag : String) :
    declaredBy rootTag (cs ++ [.node tag]) = declaredBy rootTag cs ++
      [⟨⟨tag⟩, (currentPath rootTag cs ++ [tag]).map PathSegment.mk, false, [], some (currentNode cs)⟩] := by
  have hrules (i : ℕ) : rulesOf (cs ++ [.node tag]) i = rulesOf cs i := by
    rw [rulesOf, madeAt_concat, List.filterMap_append]
    split <;> simp [rulesOf, BuilderCall.addedRule?]
  have hmode (i : ℕ) : finalMode (cs ++ [.node tag]) i = finalMode cs i := by
    rw [finalMode, madeAt_concat, List.filterMap_append]
    split <;> simp [finalMode, BuilderCall.askedMode?]
  have hnew := madeAt_eq_nil (Nat.lt_succ_self (nodeCount cs))
  have hlast : (declaredNodes rootTag cs).length = nodeCount cs + 1 := length_declaredNodes rootTag cs
  simp only [declaredBy, declaredNodes_concat, hrules, hmode, BuilderCall.declaredTag?, Option.map_some,
    Option.toList_some, List.mapIdx_append, List.mapIdx_cons, List.mapIdx_nil, hlast, Nat.zero_add]
  simp [rulesOf, finalMode, hnew]

end Concat

/-! ### The builder -/

/-- The builder holds what the calls declare, and its stack leads from the root to the current node. -/
structure TreeBuilder.Holds (rootTag : String) (cs : List (BuilderCall R)) (b : TreeBuilder R) : Prop where
  declarations_eq : b.declarations = declaredBy rootTag cs
  stack_eq : b.parentStack.reverse =
    (List.range b.parentStack.length).map fun left => lastEntered left cs.reverse
  path_length : (currentPath rootTag cs).length = b.parentStack.length
  paths_eq : ∀ k p d, b.parentStack[k]? = some p → b.declarations[p]? = some d →
    d.fullPath = ((currentPath rootTag cs).take (k + 1)).map PathSegment.mk
  limit_eq : b.captureMemoryLimit = finalLimit cs

namespace TreeBuilder

section Holds

variable {cs : List (BuilderCall R)} {c : BuilderCall R} {rootTag : String} {decls : List (NodeDeclaration R)}
  {stack : List ℕ} {limit p : ℕ} {d : NodeDeclaration R} {b b' : TreeBuilder R}

lemma holds_new (rootTag : String) : Holds rootTag [] (new rootTag : TreeBuilder R) where
  declarations_eq := rfl
  stack_eq := rfl
  path_length := rfl
  paths_eq := by
    intro k p d hp hd
    cases k with
    | zero =>
      obtain rfl := Option.some.inj hp
      obtain rfl := Option.some.inj hd
      rfl
    | succ k => cases hp
  limit_eq := rfl

/-- The builder's current node is the one that the calls have entered last. -/
lemma Holds.current (h : Holds rootTag cs b) (hp : b.parentStack.getLast? = some p) : p = currentNode cs := by
  have hhead := congrArg List.head? h.stack_eq
  obtain ⟨stack, hstack⟩ := List.getLast?_eq_some_iff.mp hp
  rw [List.head?_reverse, hp, hstack, List.length_append, List.length_singleton, List.range_succ_eq_map] at hhead
  exact Option.some.inj hhead

/-- A call about the current node. -/
lemma Holds.about (h : Holds rootTag cs ⟨decls, stack, limit⟩) (hp : stack.getLast? = some p)
    (hd : decls[p]? = some d) (hc : c.declaredTag? = none) (hlimit : c.askedLimit? = none)
    (hpath : ∀ path, c.movePath path = path)
    (hstays : ∀ left cs, lastEntered left (c :: cs) = lastEntered left cs) :
    Holds rootTag (cs ++ [c]) ⟨decls.set p (d.amend c), stack, limit⟩ := by
  obtain rfl := h.current hp
  constructor
  case declarations_eq =>
    refine List.ext_getElem? fun i => ?_
    rw [declaredBy_concat hc, ← h.declarations_eq, List.getElem?_modify, List.getElem?_set]
    by_cases hi : currentNode cs = i
    · subst hi
      obtain ⟨hlt, rfl⟩ := List.getElem?_eq_some_iff.mp hd
      simp [hlt]
    · simp [hi]
  case stack_eq =>
    rw [List.reverse_append, List.reverse_singleton, List.singleton_append]
    simp only [hstays]
    exact h.stack_eq
  case path_length =>
    rw [currentPath_concat, hpath]
    exact h.path_length
  case paths_eq =>
    intro k q e hq he
    rw [currentPath_concat, hpath]
    by_cases hqp : currentNode cs = q
    · subst hqp
      rw [List.getElem?_set_self (List.getElem?_eq_some_iff.mp hd).1] at he
      obtain rfl := Option.some.inj he
      exact h.paths_eq k _ d hq hd
    · rw [List.getElem?_set_ne hqp] at he
      exact h.paths_eq k q e hq he
  case limit_eq =>
    rw [finalLimit, List.filterMap_append]
    simpa [hlimit, finalLimit] using h.limit_eq

lemma Holds.node (h : Holds rootTag cs ⟨decls, stack, limit⟩) (hlt : ∀ q ∈ stack, q < decls.length)
    (hp : stack.getLast? = some p) (hd : decls[p]? = some d) (tag : String) : Holds rootTag (cs ++ [.node tag])
      ⟨decls ++ [⟨⟨tag⟩, d.fullPath ++ [⟨tag⟩], false, [], some p⟩], stack ++ [decls.length], limit⟩ := by
  obtain rfl := h.current hp
  have hlength : decls.length = nodeCount cs + 1 := by
    rw [← length_declaredBy rootTag cs, ← h.declarations_eq]
  have hdeepest : stack[stack.length - 1]? = some (currentNode cs) := by
    rw [← List.getLast?_eq_getElem?, hp]
  have hpos := (List.getElem?_eq_some_iff.mp hdeepest).1
  have hpath : d.fullPath = (currentPath rootTag cs).map PathSegment.mk := by
    have htaken := h.paths_eq _ _ d hdeepest hd
    have hwhole := h.path_length
    rwa [List.take_of_length_le (by simp only at hwhole; omega)] at htaken
  have hmoved : currentPath rootTag (cs ++ [.node tag]) = currentPath rootTag cs ++ [tag] :=
    currentPath_concat rootTag cs _
  constructor
  case declarations_eq =>
    rw [declaredBy_node, ← h.declarations_eq, hpath]
    simp
  case stack_eq =>
    rw [List.reverse_append, List.reverse_singleton, List.singleton_append, List.reverse_append,
      List.reverse_singleton, List.singleton_append, List.length_append, List.length_singleton,
      List.range_succ_eq_map, List.map_cons, List.map_map, h.stack_eq, hlength, lastEntered, nodeCount, nodeCount,
      List.filterMap_reverse, List.length_reverse]
    rfl
  case path_length =>
    rw [hmoved, List.length_append, List.length_append, h.path_length]
    rfl
  case paths_eq =>
    intro k q e hq he
    rw [hmoved]
    have hwhole : (currentPath rootTag cs).length = stack.length := h.path_length
    rcases Nat.lt_trichotomy k stack.length with hk | rfl | hk
    · rw [List.getElem?_append_left hk] at hq
      rw [List.getElem?_append_left (hlt q (List.mem_of_getElem? hq))] at he
      rw [List.take_append_of_le_length (by omega)]
      exact h.paths_eq k q e hq he
    · rw [List.getElem?_concat_length] at hq
      obtain rfl := Option.some.inj hq
      rw [List.getElem?_concat_length] at he
      obtain rfl := Option.some.inj he
      rw [List.take_of_length_le (by simp [hwhole]), hpath]
      simp
    · rw [List.getElem?_eq_none (by simpa using hk)] at hq
      cases hq
  case limit_eq =>
    rw [finalLimit, List.filterMap_append]
    simpa [BuilderCall.askedLimit?, finalLimit] using h.limit_eq

lemma Holds.done (h : Holds rootTag cs ⟨decls, stack ++ [p], limit⟩) :
    Holds rootTag (cs ++ [.done]) ⟨decls, stack, limit⟩ := by
  have hmoved : currentPath rootTag (cs ++ [.done]) = (currentPath rootTag cs).dropLast :=
    currentPath_concat rootTag cs _
  have hwhole : (currentPath rootTag cs).length = (stack ++ [p]).length := h.path_length
  rw [List.length_append, List.length_singleton] at hwhole
  constructor
  case declarations_eq =>
    rw [declaredBy_idle rfl rfl rfl]
    exact h.declarations_eq
  case stack_eq =>
    have hstack := h.stack_eq
    simp only [List.reverse_append, List.reverse_singleton, List.singleton_append, List.length_append,
      List.length_singleton, List.range_succ_eq_map, List.map_cons, List.map_map, List.cons.injEq] at hstack
    rw [List.reverse_append, List.reverse_singleton, List.singleton_append, hstack.2]
    rfl
  case path_length =>
    rw [hmoved, List.length_dropLast, hwhole]
    rfl
  case paths_eq =>
    intro k q e hq he
    have hk : k < stack.length := (List.getElem?_eq_some_iff.mp hq).1
    have hpath := h.paths_eq k q e (by rwa [List.getElem?_append_left hk]) he
    rw [hmoved, List.dropLast_eq_take, List.take_take, Nat.min_eq_left (by omega), hpath]
  case limit_eq =>
    rw [finalLimit, List.filterMap_append]
    simpa [BuilderCall.askedLimit?, finalLimit] using h.limit_eq

lemma Holds.captureLimit (h : Holds rootTag cs ⟨decls, stack, limit⟩) (bytes : ℕ) :
    Holds rootTag (cs ++ [.captureLimit bytes]) ⟨decls, stack, bytes⟩ := by
  have hmoved : currentPath rootTag (cs ++ [.captureLimit bytes]) = currentPath rootTag cs :=
    currentPath_concat rootTag cs _
  constructor
  case declarations_eq =>
    rw [declaredBy_idle rfl rfl rfl]
    exact h.declarations_eq
  case stack_eq =>
    rw [List.reverse_append, List.reverse_singleton, List.singleton_append]
    exact h.stack_eq.trans (List.map_congr_left fun left _ => by cases left <;> rfl)
  case path_length =>
    rw [hmoved]
    exact h.path_length
  case paths_eq =>
    rw [hmoved]
    exact h.paths_eq
  case limit_eq => simp [finalLimit, List.filterMap_append, BuilderCall.askedLimit?]

/-- One more call. -/
lemma Holds.call (h : Holds rootTag cs b) (hb : b.Valid) (hcall : b.call c = .ok b') :
    Holds rootTag (cs ++ [c]) b' := by
  obtain ⟨decls, stack, limit⟩ := b
  obtain ⟨p, d, hp, hd⟩ : ∃ p d, stack.getLast? = some p ∧ decls[p]? = some d := hb.current
  cases c with
  | streaming =>
    obtain rfl := Except.ok.inj ((call_streaming hp hd).symm.trans hcall)
    have habout := h.about (c := .streaming) hp hd rfl rfl (fun _ => rfl) fun left cs => by cases left <;> rfl
    simpa [NodeDeclaration.amend, BuilderCall.askedMode?, BuilderCall.addedRule?] using habout
  | captureSubtree =>
    obtain rfl := Except.ok.inj ((call_captureSubtree hp hd).symm.trans hcall)
    have habout := h.about (c := .captureSubtree) hp hd rfl rfl (fun _ => rfl) fun left cs => by cases left <;> rfl
    simpa [NodeDeclaration.amend, BuilderCall.askedMode?, BuilderCall.addedRule?] using habout
  | rule r =>
    obtain rfl := Except.ok.inj ((call_rule hp hd r).symm.trans hcall)
    have habout := h.about (c := .rule r) hp hd rfl rfl (fun _ => rfl) fun left cs => by cases left <;> rfl
    simpa [NodeDeclaration.amend, BuilderCall.askedMode?, BuilderCall.addedRule?] using habout
  | node tag =>
    obtain rfl := Except.ok.inj ((call_node hp hd tag).symm.trans hcall)
    exact h.node hb.stack_lt hp hd tag
  | done =>
    obtain ⟨stack, rfl⟩ := List.getLast?_eq_some_iff.mp hp
    have hne : stack ≠ [] := by
      rintro rfl
      cases hcall
    obtain rfl := Except.ok.inj ((call_done hne p).symm.trans hcall)
    exact h.done
  | captureLimit bytes =>
    obtain rfl := Except.ok.inj hcall
    exact h.captureLimit bytes

/-- A builder holds what the calls on it declare. -/
theorem holds_calls (hb : (new rootTag).calls cs = .ok b) : Holds rootTag cs b := by
  induction cs using List.reverseRecOn generalizing b with
  | nil =>
    obtain rfl := Except.ok.inj hb
    exact holds_new rootTag
  | append_singleton cs c ih =>
    rw [calls_append_eq] at hb
    obtain ⟨b₁, hcs, hlast⟩ := bind_eq_ok.mp hb
    obtain ⟨b₂, hcall, hnil⟩ := bind_eq_ok.mp (hlast : b₁.call c >>= (fun b₂ => b₂.calls []) = .ok b)
    obtain rfl := Except.ok.inj hnil
    exact (ih hcs).call (valid_calls (valid_new rootTag) hcs) hcall

end Holds

end TreeBuilder

end XmlOxydizer
