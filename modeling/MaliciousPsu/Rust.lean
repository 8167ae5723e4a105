import Mathlib.Data.List.OfFn
import Mathlib.Data.List.FinRange

/-!
# Calls that can panic

A Rust function that can panic returns in `Run`: `unwrap` of a `None` or an `Err`, an index out of
bounds and a failed assertion are the errors.  `Some` and `None` returned on purpose stay in
`Option`.

* `bind_eq_ok`: a call that returned, with its last step cut off.
* `mapM_ofFn`, `mapM_range`: a loop over `0..n` whose every step returns.
-/

universe u

namespace MaliciousPsu

/-- Why a call panicked. -/
inductive Panic
  /-- `unwrap` on a `None`. -/
  | unwrapNone
  /-- `unwrap` on an `Err`. -/
  | unwrapErr
  /-- An index past the end of a slice. -/
  | outOfBounds
  /-- The assertion that a multiscalar multiplication has as many scalars as points. -/
  | lengthMismatch
  /-- `0 - 1` in `usize`. -/
  | underflow
  /-- `assert!` of a condition that fails. -/
  | assertion
  deriving DecidableEq, Repr

/-- A call that returns or panics. -/
abbrev Run := Except Panic

/-- `Option::unwrap`. -/
def unwrap {α : Type u} : Option α → Run α
  | some a => .ok a
  | none => .error .unwrapNone

/-- `assert!`. -/
def assert (b : Bool) : Run Unit := if b then .ok () else .error .assertion

/-- `xs[i]`. -/
def idx {α : Type u} (xs : List α) (i : ℕ) : Run α :=
  match xs[i]? with
  | some a => .ok a
  | none => .error .outOfBounds

/-- `xs[i] = x`. -/
def setIdx {α : Type u} (xs : List α) (i : ℕ) (x : α) : Run (List α) :=
  if i < xs.length then .ok (xs.set i x) else .error .outOfBounds

/-- `xs.swap(i, j)`. -/
def swap {α : Type u} (xs : List α) (i j : ℕ) : Run (List α) := do
  let a ← idx xs i
  let b ← idx xs j
  setIdx (← setIdx xs i b) j a

section Spec

variable {α β : Type u}

@[simp] theorem unwrap_some (a : α) : unwrap (some a) = .ok a := rfl

theorem unwrap_eq_ok {o : Option α} {a : α} : unwrap o = .ok a ↔ o = some a := by
  cases o <;> simp [unwrap]

theorem idx_eq_ok {xs : List α} {i : ℕ} {a : α} : idx xs i = .ok a ↔ xs[i]? = some a := by
  unfold idx
  split <;> simp [*]

theorem idx_of_lt {xs : List α} {i : ℕ} (h : i < xs.length) : idx xs i = .ok xs[i] :=
  idx_eq_ok.mpr (List.getElem?_eq_getElem h)

theorem lt_of_idx {xs : List α} {i : ℕ} {a : α} (h : idx xs i = .ok a) : i < xs.length :=
  (List.getElem?_eq_some_iff.mp (idx_eq_ok.mp h)).1

@[simp] theorem idx_ofFn {n : ℕ} (f : Fin n → α) (i : Fin n) :
    idx (List.ofFn f) i = .ok (f i) := by
  simp [idx_eq_ok]

theorem setIdx_ofFn {n : ℕ} (f : Fin n → α) (i : Fin n) (x : α) :
    setIdx (List.ofFn f) i x = .ok (List.ofFn (Function.update f i x)) := by
  rw [setIdx, if_pos (by rw [List.length_ofFn]; exact i.isLt)]
  refine congrArg _ (List.ext_getElem (by simp) fun k h₁ h₂ => ?_)
  rw [List.getElem_set, List.getElem_ofFn, List.getElem_ofFn, Function.update_apply]
  simp only [Fin.ext_iff, eq_comm]

theorem bind_eq_ok {x : Run α} {f : α → Run β} {b : β} :
    x >>= f = .ok b ↔ ∃ a, x = .ok a ∧ f a = .ok b := by
  cases x <;> simp [bind, Except.bind]

@[simp] theorem ok_bind (a : α) (f : α → Run β) : (.ok a : Run α) >>= f = f a := rfl

@[simp] theorem pure_eq_ok (a : α) : (pure a : Run α) = .ok a := rfl

/-- The call does not panic. -/
def Returns (x : Run α) : Prop := ∃ a, x = .ok a

@[simp] theorem returns_ok (a : α) : Returns (.ok a : Run α) := ⟨a, rfl⟩

theorem returns_bind {x : Run α} {f : α → Run β} :
    Returns (x >>= f) ↔ ∃ a, x = .ok a ∧ Returns (f a) := by
  simp only [Returns, bind_eq_ok]
  exact ⟨fun ⟨b, a, hx, hb⟩ => ⟨a, hx, b, hb⟩, fun ⟨a, hx, b, hb⟩ => ⟨b, a, hx, hb⟩⟩

end Spec

/-! ### Loops that push one result for each step -/

section Loops

variable {α : Type*} {β : Type u}

theorem mapM_eq_ok {f : α → Run β} : ∀ {xs : List α} {ys : List β},
    xs.mapM f = .ok ys ↔ List.Forall₂ (fun x y => f x = .ok y) xs ys
  | [], ys => by
      cases ys <;> simp [pure, Except.pure]
  | x :: xs, ys => by
      simp only [List.mapM_cons, bind_eq_ok, pure_eq_ok, Except.ok.injEq]
      constructor
      · rintro ⟨y, hy, zs, hzs, rfl⟩
        exact .cons hy (mapM_eq_ok.mp hzs)
      · rintro (_ | ⟨hy, hys⟩)
        exact ⟨_, hy, _, mapM_eq_ok.mpr hys, rfl⟩

/-- A loop ends without a panic when every turn does. -/
theorem returns_mapM {f : α → Run β} {xs : List α} :
    Returns (xs.mapM f) ↔ ∀ x ∈ xs, Returns (f x) := by
  simp only [Returns, mapM_eq_ok]
  induction xs with
  | nil => exact ⟨fun _ _ hx => absurd hx List.not_mem_nil, fun _ => ⟨[], .nil⟩⟩
  | cons x xs ih =>
    rw [List.forall_mem_cons, ← ih]
    constructor
    · rintro ⟨_, hys⟩
      cases hys with
      | cons hy hys => exact ⟨⟨_, hy⟩, ⟨_, hys⟩⟩
    · rintro ⟨⟨y, hy⟩, ys, hys⟩
      exact ⟨y :: ys, .cons hy hys⟩

/-- A list as a family of its entries. -/
theorem exists_ofFn {n : ℕ} {l : List α} (hn : l.length = n) :
    ∃ v : Fin n → α, l = List.ofFn v := by
  subst hn
  exact ⟨l.get, l.ofFn_get.symm⟩

theorem mapM_ofFn {n : ℕ} {f : α → Run β} {a : Fin n → α} {b : Fin n → β}
    (h : ∀ i, f (a i) = .ok (b i)) : (List.ofFn a).mapM f = .ok (List.ofFn b) := by
  rw [mapM_eq_ok, List.forall₂_iff_get]
  exact ⟨by simp, fun i h₁ _ => by simpa using h ⟨i, by simpa using h₁⟩⟩

theorem mapM_range {n : ℕ} {f : ℕ → Run β} {b : Fin n → β} (h : ∀ i : Fin n, f i = .ok (b i)) :
    (List.range n).mapM f = .ok (List.ofFn b) := by
  have hr : List.range n = List.ofFn fun i : Fin n => (i : ℕ) := by
    rw [List.ofFn_eq_map, List.map_coe_finRange_eq_range]
  rw [hr]
  exact mapM_ofFn h

end Loops

end MaliciousPsu
