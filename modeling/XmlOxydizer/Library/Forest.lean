import Mathlib

/-!
# Forests, token streams and spines

A forest is written down as a token stream: an element is a start token, its content
and a close token, or one empty token when it has no content. A *spine* is what a
reader of the stream knows at some point: the elements that are still open, outermost
first, each with the content read so far. This file proves that reading a written
forest adds exactly that forest to the innermost open element, and that the elements
close in postorder.
-/

namespace Markup

universe u v
variable {α : Type u} {β : Type v}

/-- Elements labelled by `α` and leaves carrying `β`, in document order. -/
inductive Forest (α : Type u) (β : Type v) : Type (max u v)
  | nil
  | element (label : α) (content rest : Forest α β)
  | leaf (b : β) (rest : Forest α β)
  deriving DecidableEq

namespace Forest

/-- Two forests one after the other. -/
def append : Forest α β → Forest α β → Forest α β
  | nil, h => h
  | element a content rest, h => element a content (append rest h)
  | leaf b rest, h => leaf b (append rest h)

instance : Append (Forest α β) := ⟨append⟩

@[simp] lemma nil_append (h : Forest α β) : nil ++ h = h := rfl

@[simp] lemma element_append (a : α) (content rest h : Forest α β) :
    element a content rest ++ h = element a content (rest ++ h) := rfl

@[simp] lemma leaf_append (b : β) (rest h : Forest α β) :
    leaf b rest ++ h = leaf b (rest ++ h) := rfl

@[simp] lemma append_nil (g : Forest α β) : g ++ nil = g := by
  induction g with
  | nil => rfl
  | element a content rest _ ih => simp [ih]
  | leaf b rest ih => simp [ih]

@[simp] lemma append_assoc (g h k : Forest α β) : g ++ h ++ k = g ++ (h ++ k) := by
  induction g with
  | nil => rfl
  | element a content rest _ ih => simp [ih]
  | leaf b rest ih => simp [ih]

/-- The elements at the top of a forest, each with its content. -/
def elements : Forest α β → List (α × Forest α β)
  | nil => []
  | element a content rest => (a, content) :: elements rest
  | leaf _ rest => elements rest

/-- The leaves at the top of a forest. -/
def leaves : Forest α β → List β
  | nil => []
  | element _ _ rest => leaves rest
  | leaf b rest => b :: leaves rest

@[simp] lemma elements_append (g h : Forest α β) :
    (g ++ h).elements = g.elements ++ h.elements := by
  induction g with
  | nil => rfl
  | element a content rest _ ih => simp [elements, ih]
  | leaf b rest ih => simp [elements, ih]

@[simp] lemma leaves_append (g h : Forest α β) : (g ++ h).leaves = g.leaves ++ h.leaves := by
  induction g with
  | nil => rfl
  | element a content rest _ ih => simp [leaves, ih]
  | leaf b rest ih => simp [leaves, ih]

/-- The label paths of all elements below the labels `above`, in the order in which
the elements close. -/
def postorder (above : List α) : Forest α β → List (List α)
  | nil => []
  | element a content rest =>
    postorder (above ++ [a]) content ++ (above ++ [a]) :: postorder above rest
  | leaf _ rest => postorder above rest

end Forest

/-- The tokens of a written forest. -/
inductive Token (α : Type u) (β : Type v) : Type (max u v)
  | start (label : α)
  | close
  | empty (label : α)
  | leaf (b : β)
  deriving DecidableEq

/-- `Writes g ts`: the stream `ts` writes the forest `g`. An element without content
may be written either way. -/
inductive Writes : Forest α β → List (Token α β) → Prop
  | nil : Writes .nil []
  | element {a content rest ts us} : Writes content ts → Writes rest us →
      Writes (.element a content rest) (.start a :: (ts ++ .close :: us))
  | empty {a rest us} : Writes rest us → Writes (.element a .nil rest) (.empty a :: us)
  | leaf {b rest us} : Writes rest us → Writes (.leaf b rest) (.leaf b :: us)

/-- The stream with a start and a close token for every element. -/
def Forest.tokens : Forest α β → List (Token α β)
  | nil => []
  | element a content rest => .start a :: (tokens content ++ .close :: tokens rest)
  | leaf b rest => .leaf b :: tokens rest

lemma writes_tokens (g : Forest α β) : Writes g g.tokens := by
  induction g with
  | nil => exact .nil
  | element a content rest ihc ihr => exact .element ihc ihr
  | leaf b rest ih => exact .leaf ih

/-- An open element with the content read so far. -/
structure Frame (α : Type u) (β : Type v) where
  label : α
  content : Forest α β

/-- The open elements, outermost first. -/
abbrev Spine (α : Type u) (β : Type v) := List (Frame α β)

namespace Spine

/-- Adds content to the innermost open element. Without one the content is dropped. -/
def extend (z : Spine α β) (g : Forest α β) : Spine α β :=
  match z.getLast? with
  | none => []
  | some f => z.dropLast ++ [⟨f.label, f.content ++ g⟩]

@[simp] lemma extend_nil (g : Forest α β) : extend [] g = [] := rfl

@[simp] lemma extend_concat (z : Spine α β) (f : Frame α β) (g : Forest α β) :
    extend (z ++ [f]) g = z ++ [⟨f.label, f.content ++ g⟩] := by
  simp [extend]

@[simp] lemma extend_empty (z : Spine α β) : z.extend .nil = z := by
  induction z using List.reverseRecOn with
  | nil => rfl
  | append_singleton z f => simp

@[simp] lemma extend_extend (z : Spine α β) (g h : Forest α β) :
    (z.extend g).extend h = z.extend (g ++ h) := by
  induction z using List.reverseRecOn with
  | nil => rfl
  | append_singleton z f => simp

@[simp] lemma extend_labels (z : Spine α β) (g : Forest α β) :
    (z.extend g).map Frame.label = z.map Frame.label := by
  induction z using List.reverseRecOn with
  | nil => rfl
  | append_singleton z f => simp

@[simp] lemma length_extend (z : Spine α β) (g : Forest α β) :
    (z.extend g).length = z.length := by
  induction z using List.reverseRecOn with
  | nil => rfl
  | append_singleton z f => simp

/-- The spine after one more token. A close token without an open element is ignored. -/
def advance (z : Spine α β) : Token α β → Spine α β
  | .start a => z ++ [⟨a, .nil⟩]
  | .close =>
    match z.getLast? with
    | none => []
    | some f => extend z.dropLast (.element f.label f.content .nil)
  | .empty a => z.extend (.element a .nil .nil)
  | .leaf b => z.extend (.leaf b .nil)

@[simp] lemma advance_start (z : Spine α β) (a : α) :
    z.advance (.start a) = z ++ [⟨a, .nil⟩] := rfl

@[simp] lemma advance_close_nil : advance ([] : Spine α β) .close = [] := rfl

@[simp] lemma advance_close (z : Spine α β) (f : Frame α β) :
    advance (z ++ [f]) .close = z.extend (.element f.label f.content .nil) := by
  simp [advance]

@[simp] lemma advance_empty (z : Spine α β) (a : α) :
    z.advance (.empty a) = z.extend (.element a .nil .nil) := rfl

@[simp] lemma advance_leaf (z : Spine α β) (b : β) :
    z.advance (.leaf b) = z.extend (.leaf b .nil) := rfl

/-- The spine after a token stream. -/
def advanceAll (z : Spine α β) (ts : List (Token α β)) : Spine α β := ts.foldl advance z

@[simp] lemma advanceAll_nil (z : Spine α β) : z.advanceAll [] = z := rfl

@[simp] lemma advanceAll_cons (z : Spine α β) (t : Token α β) (ts : List (Token α β)) :
    z.advanceAll (t :: ts) = (z.advance t).advanceAll ts := rfl

@[simp] lemma advanceAll_append (z : Spine α β) (ts us : List (Token α β)) :
    z.advanceAll (ts ++ us) = (z.advanceAll ts).advanceAll us := by
  simp [advanceAll]

/-- Reading a written forest adds the forest to the innermost open element. -/
theorem advanceAll_writes {g : Forest α β} {ts : List (Token α β)} (h : Writes g ts)
    (z : Spine α β) : z.advanceAll ts = z.extend g := by
  induction h generalizing z with
  | nil => simp
  | element _ _ ihc ihr =>
    simp only [advanceAll_cons, advanceAll_append, advance_start, ihc, extend_concat,
      advance_close, ihr, extend_extend]
    simp
  | empty _ ih => simp [ih]
  | leaf _ ih => simp [ih]

end Spine

namespace Token

def isStart : Token α β → Bool
  | start _ => true
  | _ => false

def isClose : Token α β → Bool
  | close => true
  | _ => false

/-- The number of start tokens of a stream. -/
def starts (ts : List (Token α β)) : ℕ := ts.countP isStart

/-- The number of close tokens of a stream. -/
def closes (ts : List (Token α β)) : ℕ := ts.countP isClose

@[simp] lemma starts_nil : starts ([] : List (Token α β)) = 0 := rfl

@[simp] lemma closes_nil : closes ([] : List (Token α β)) = 0 := rfl

@[simp] lemma starts_cons (t : Token α β) (ts : List (Token α β)) :
    starts (t :: ts) = starts ts + if t.isStart then 1 else 0 := List.countP_cons

@[simp] lemma closes_cons (t : Token α β) (ts : List (Token α β)) :
    closes (t :: ts) = closes ts + if t.isClose then 1 else 0 := List.countP_cons

end Token

namespace Spine

lemma length_advance_close (z : Spine α β) : (z.advance (.close : Token α β)).length = z.length - 1 := by
  induction z using List.reverseRecOn with
  | nil => rfl
  | append_singleton z f => simp

/-- Where no initial part of a stream closes more elements than are open, the open elements
are those started and not closed. -/
theorem length_advanceAll (ts : List (Token α β)) (z : Spine α β)
    (h : ∀ us, us <+: ts → Token.closes us ≤ z.length + Token.starts us) :
    (z.advanceAll ts).length + Token.closes ts = z.length + Token.starts ts := by
  induction ts generalizing z with
  | nil => simp
  | cons t ts ih =>
    have hinner := fun us (hus : us <+: ts) => h (t :: us) (List.cons_prefix_cons.mpr ⟨rfl, hus⟩)
    have hfirst := h [t] (List.cons_prefix_cons.mpr ⟨rfl, List.nil_prefix⟩)
    have hrest := ih (z.advance t)
    rw [advanceAll_cons]
    cases t <;>
      simp only [Token.starts_cons, Token.closes_cons, Token.starts_nil, Token.closes_nil, Token.isStart,
        Token.isClose, if_true, if_false, Bool.false_eq_true, advance_start, advance_empty, advance_leaf,
        length_advance_close, length_extend, List.length_append, List.length_singleton] at *
    case start =>
      have := hrest fun us hus => by have := hinner us hus; omega
      omega
    case close =>
      have := hrest fun us hus => by have := hinner us hus; omega
      omega
    case empty => exact hrest hinner
    case leaf => exact hrest hinner

end Spine

/-- An element at the moment it closes: the elements around it, with what they hold so
far, and its own content. -/
structure Closing (α : Type u) (β : Type v) where
  above : Spine α β
  label : α
  content : Forest α β

namespace Closing

/-- The labels from the root to the closing element. -/
def path (c : Closing α β) : List α := c.above.map Frame.label ++ [c.label]

/-- The open elements just before the end. -/
def spine (c : Closing α β) : Spine α β := c.above ++ [⟨c.label, c.content⟩]

end Closing

namespace Spine

/-- The element that a token closes. -/
def closing (z : Spine α β) : Token α β → Option (Closing α β)
  | .close => z.getLast?.map (fun f => ⟨z.dropLast, f.label, f.content⟩)
  | .empty a => some ⟨z, a, .nil⟩
  | _ => none

@[simp] lemma closing_close_nil : closing ([] : Spine α β) .close = none := rfl

@[simp] lemma closing_close (z : Spine α β) (f : Frame α β) :
    closing (z ++ [f]) .close = some ⟨z, f.label, f.content⟩ := by
  simp [closing]

@[simp] lemma closing_empty (z : Spine α β) (a : α) :
    z.closing (.empty a) = some ⟨z, a, .nil⟩ := rfl

@[simp] lemma closing_start (z : Spine α β) (a : α) : z.closing (.start a) = none := rfl

@[simp] lemma closing_leaf (z : Spine α β) (b : β) : z.closing (.leaf b) = none := rfl

/-- A token that closes an element does what the end of that element does. -/
lemma advance_of_closing {z : Spine α β} {t : Token α β} {c : Closing α β} (h : z.closing t = some c) :
    z.advance t = c.spine.advance (.close : Token α β) := by
  cases t with
  | start a => cases h
  | leaf b => cases h
  | close =>
    rcases List.eq_nil_or_concat' z with rfl | ⟨z, f, rfl⟩
    · cases h
    · obtain rfl := Option.some.inj ((closing_close z f).symm.trans h)
      rfl
  | empty a =>
    obtain rfl := Option.some.inj ((closing_empty z a).symm.trans h)
    simp [Closing.spine]

/-- The elements that a token stream closes, in order. -/
def closings (z : Spine α β) : List (Token α β) → List (Closing α β)
  | [] => []
  | t :: ts => (z.closing t).toList ++ closings (z.advance t) ts

lemma closings_append (z : Spine α β) (ts us : List (Token α β)) :
    z.closings (ts ++ us) = z.closings ts ++ (z.advanceAll ts).closings us := by
  induction ts generalizing z with
  | nil => rfl
  | cons t ts ih => simp [closings, ih]

lemma mem_closings {z : Spine α β} {ts : List (Token α β)} {c : Closing α β} :
    c ∈ z.closings ts ↔
      ∃ us t vs, ts = us ++ t :: vs ∧ (z.advanceAll us).closing t = some c := by
  constructor
  · intro hc
    induction ts generalizing z with
    | nil => cases hc
    | cons t ts ih =>
      rcases List.mem_append.mp hc with hc | hc
      · exact ⟨[], t, ts, rfl, by simpa using hc⟩
      · obtain ⟨us, u, vs, rfl, hu⟩ := ih hc
        exact ⟨t :: us, u, vs, rfl, hu⟩
  · rintro ⟨us, t, vs, rfl, ht⟩
    simp [closings_append, closings, ht]

/-- The elements of a written forest close in postorder. -/
theorem closings_writes {g : Forest α β} {ts : List (Token α β)} (h : Writes g ts)
    (z : Spine α β) :
    (z.closings ts).map Closing.path = g.postorder (z.map Frame.label) := by
  induction h generalizing z with
  | nil => rfl
  | element hc _ ihc ihr =>
    simp only [closings, closings_append, advanceAll_writes hc, advance_start, extend_concat,
      advance_close, closing_start, closing_close, List.map_append, ihc, ihr]
    simp [Forest.postorder, Closing.path]
  | empty _ ih => simp [closings, Forest.postorder, Closing.path, ih]
  | leaf _ ih => simp [closings, Forest.postorder, ih]

end Spine

end Markup
