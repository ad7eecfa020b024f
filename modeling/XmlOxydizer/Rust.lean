import XmlOxydizer.Library.BinarySearch

/-!
# Panics and fixed-width arithmetic

The parts of the Rust semantics that the crate's behaviour depends on: where code
panics, and what integer operations do in builds with and without overflow checks.
`usize` is 64 bits wide.
-/

namespace XmlOxydizer

section Except

variable {ε ε' α β : Type}

@[simp] lemma ok_bind (a : α) (f : α → Except ε β) : (Except.ok a >>= f) = f a := rfl

@[simp] lemma error_bind (e : ε) (f : α → Except ε β) :
    (Except.error e >>= f) = .error e := rfl

@[simp] lemma except_pure (a : α) : (pure a : Except ε α) = .ok a := rfl

@[simp] lemma ok_mapError (f : ε → ε') (a : α) :
    (Except.ok a : Except ε α).mapError f = .ok a := rfl

@[simp] lemma error_mapError (f : ε → ε') (e : ε) :
    (Except.error e : Except ε α).mapError f = .error (f e) := rfl

@[simp] lemma ok_map (f : α → β) (a : α) : (Except.ok a : Except ε α).map f = .ok (f a) := rfl

lemma bind_eq_ok {x : Except ε α} {f : α → Except ε β} {b : β} :
    (x >>= f) = .ok b ↔ ∃ a, x = .ok a ∧ f a = .ok b := by
  cases x <;> simp

end Except

/-- The panics of the crate's own code. -/
inductive Panic
  | unwrapNone
  | expectNone (message : String)
  | outOfBounds
  | assertFailed (message : String)
  | addOverflow
  | subOverflow
  | shlOverflow
  deriving DecidableEq

/-- Whether integer overflow panics (a checked build) or wraps (a release build). -/
inductive OverflowChecks
  | checked
  | wrapping
  deriving DecidableEq

/-- Why fallible code ends early: it returns an error or it panics. -/
inductive Abort (ε : Type)
  | error (e : ε)
  | panic (p : Panic)
  deriving DecidableEq

/-- A computation that can panic, inside fallible code. -/
def orPanic {ε α : Type} (r : Except Panic α) : Except (Abort ε) α := r.mapError .panic

/-- A computation that can return an error, inside code that can also panic. -/
def orError {ε α : Type} (r : Except ε α) : Except (Abort ε) α := r.mapError .error

@[simp] lemma orPanic_ok {ε α : Type} (a : α) : (orPanic (.ok a) : Except (Abort ε) α) = .ok a := rfl

@[simp] lemma orPanic_error {ε α : Type} (p : Panic) :
    (orPanic (.error p) : Except (Abort ε) α) = .error (.panic p) := rfl

@[simp] lemma orError_ok {ε α : Type} (a : α) : (orError (.ok a) : Except (Abort ε) α) = .ok a := rfl

@[simp] lemma orError_error {ε α : Type} (e : ε) :
    (orError (.error e) : Except (Abort ε) α) = .error (.error e) := rfl

/-- `Option::unwrap`. -/
def unwrap {α : Type} : Option α → Except Panic α
  | some a => .ok a
  | none => .error .unwrapNone

/-- `Option::expect`. -/
def expect {α : Type} (message : String) : Option α → Except Panic α
  | some a => .ok a
  | none => .error (.expectNone message)

/-- `xs[i]`. -/
def index {α : Type} (xs : List α) (i : ℕ) : Except Panic α :=
  match xs[i]? with
  | some a => .ok a
  | none => .error .outOfBounds

/-- `&xs[..i]`. -/
def sliceTo {α : Type} (xs : List α) (i : ℕ) : Except Panic (List α) :=
  if i ≤ xs.length then .ok (xs.take i) else .error .outOfBounds

@[simp] lemma unwrap_some {α : Type} (a : α) : unwrap (some a) = .ok a := rfl

@[simp] lemma expect_some {α : Type} (message : String) (a : α) :
    expect message (some a) = .ok a := rfl

lemma index_ok {α : Type} {xs : List α} {i : ℕ} {a : α} (h : xs[i]? = some a) :
    index xs i = .ok a := by
  simp [index, h]

lemma sliceTo_ok {α : Type} {xs : List α} {i : ℕ} (h : i ≤ xs.length) :
    sliceTo xs i = .ok (xs.take i) := by
  simp [sliceTo, h]

/-- `a + b` on `usize`. -/
def usizeAdd (checks : OverflowChecks) (a b : ℕ) : Except Panic ℕ :=
  if a + b < 2 ^ 64 then .ok (a + b)
  else match checks with
    | .checked => .error .addOverflow
    | .wrapping => .ok ((a + b) % 2 ^ 64)

/-- `a - b` on `usize`. -/
def usizeSub (checks : OverflowChecks) (a b : ℕ) : Except Panic ℕ :=
  if b ≤ a then .ok (a - b)
  else match checks with
    | .checked => .error .subOverflow
    | .wrapping => .ok (a + 2 ^ 64 - b)

/-- `a + b` on `u32`. -/
def u32Add (checks : OverflowChecks) (a b : UInt32) : Except Panic UInt32 :=
  match checks with
  | .checked => if a.toNat + b.toNat < 2 ^ 32 then .ok (a + b) else .error .addOverflow
  | .wrapping => .ok (a + b)

/-- The shift amount of a `u64` shift by `index`. -/
def shiftAmount (checks : OverflowChecks) (index : ℕ) : Except Panic ℕ :=
  if index < 64 then .ok index
  else match checks with
    | .checked => .error .shlOverflow
    | .wrapping => .ok (index % 64)

lemma usizeAdd_ok {checks : OverflowChecks} {a b : ℕ} (h : a + b < 2 ^ 64) :
    usizeAdd checks a b = .ok (a + b) := if_pos h

end XmlOxydizer
