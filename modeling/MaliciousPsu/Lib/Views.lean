import MaliciousPsu.Lib.Exchange

/-!
# What a peer sees

Two processes are alike when they write the same and ask for as much, whatever they read; their
results may differ.  A peer then takes the same steps with either.

* `Alike.bind`, `Alike.mapM`: programs built alike are alike.
* `Session.alike_run`: every run of a peer with one of two alike processes is one with the other,
  step by step.
-/

variable {σ α β γ δ ε : Type}

namespace Process

/-- The two write the same and ask for as much, whatever they read, and end with results that `R`
relates. -/
inductive Alike (R : α → β → Prop) : Process σ α → Process σ β → Prop
  | done {a : α} {b : β} (h : R a b) : Alike R (done a) (done b)
  | write (xs : List σ) {p : Process σ α} {q : Process σ β} (h : Alike R p q) :
      Alike R (write xs p) (write xs q)
  | read (n : ℕ) {k : Option (List σ) → Process σ α} {k' : Option (List σ) → Process σ β}
      (h : ∀ r, Alike R (k r) (k' r)) : Alike R (read n k) (read n k')

namespace Alike

variable {R : α → β → Prop} {S : γ → δ → Prop} {p : Process σ α} {q : Process σ β}

theorem ended (h : Alike R p q) : p.Ended ↔ q.Ended := by
  cases h <;> exact Iff.rfl

theorem bind {f : α → Process σ γ} {g : β → Process σ δ} (h : Alike R p q)
    (hfg : ∀ {a b}, R a b → Alike S (f a) (g b)) : Alike S (p.bind f) (q.bind g) := by
  induction h with
  | done h => exact hfg h
  | write xs _ ih => exact .write xs ih
  | read n _ ih => exact .read n ih

/-- A step of one is a step of the other. -/
theorem step {closed : Prop} {p' : Process σ α} {i i' xs : List σ} (h : Alike R p q)
    (hs : p.Step closed i p' i' xs) : ∃ q', q.Step closed i q' i' xs ∧ Alike R p' q' := by
  cases hs with
  | write xs k i =>
      cases h with
      | write _ h => exact ⟨_, .write _ _ _, h⟩
  | read k hn =>
      cases h with
      | read _ h => exact ⟨_, .read _ hn, h _⟩
  | eof k hn hc =>
      cases h with
      | read _ h => exact ⟨_, .eof _ hn hc, h _⟩

end Alike

end Process

open Process (Alike)

/-! ### Programs -/

/-- Both fail, and alike, or neither does, with results that `R` relates. -/
inductive Same (R : α → β → Prop) : Except ε α → Except ε β → Prop
  | error (e : ε) : Same R (.error e) (.error e)
  | ok {a : α} {b : β} (h : R a b) : Same R (.ok a) (.ok b)

namespace Program

variable {R : α → β → Prop} {S : γ → δ → Prop} {p : Program σ ε α} {q : Program σ ε β}

/-- Programs that are alike. -/
abbrev Alike (R : α → β → Prop) (p : Program σ ε α) (q : Program σ ε β) : Prop :=
  Process.Alike (Same R) p q

theorem Alike.pure {a : α} {b : β} (h : R a b) :
    Alike R (pure a : Program σ ε α) (pure b) := Process.Alike.done (.ok h)

theorem Alike.write (xs : List σ) :
    Alike (fun _ _ => True) (write xs : Program σ ε Unit) (write xs) :=
  Process.Alike.write xs (.done (.ok trivial))

theorem Alike.read (n : ℕ) (eof : ε) : Alike Eq (read n eof : Program σ ε (List σ)) (read n eof) :=
  Process.Alike.read n fun
  | none => .done (.error eof)
  | some _ => .done (.ok rfl)

theorem Alike.bind {f : α → Program σ ε γ} {g : β → Program σ ε δ} (h : Alike R p q)
    (hfg : ∀ {a b}, R a b → Alike S (f a) (g b)) : Alike S (p >>= f) (q >>= g) := by
  refine Process.Alike.bind h ?_
  intro x y hxy
  cases hxy with
  | error e => exact .done (.error e)
  | ok h => exact hfg h

/-- **Loops whose turns are alike.** -/
theorem Alike.mapM {ξ υ : Type} {f : ξ → Program σ ε α} {g : υ → Program σ ε β} {xs : List ξ}
    {ys : List υ} (h : List.Forall₂ (fun x y => Alike R (f x) (g y)) xs ys) :
    Alike (List.Forall₂ R) (xs.mapM f) (ys.mapM g) := by
  induction h with
  | nil => exact .pure .nil
  | cons hxy _ ih =>
      rw [List.mapM_cons, List.mapM_cons]
      exact .bind hxy fun hx => .bind ih fun hxs => .pure (.cons hx hxs)

end Program

/-! ### Sessions -/

namespace Session

variable {R : β → γ → Prop} {p : Process σ β} {q : Process σ γ} {s t : Session σ α β}

/-- The same session with another process on the right. -/
def withRight (s : Session σ α β) (q : Process σ γ) : Session σ α γ :=
  ⟨s.left, q, s.toRight, s.toLeft⟩

/-- A step with one is a step with the other. -/
theorem alike_step (h : Alike R s.right q) (hs : Step s t) :
    ∃ q', Step (s.withRight q) (t.withRight q') ∧ Alike R t.right q' := by
  cases hs with
  | left hs =>
      rw [propext h.ended] at hs
      exact ⟨q, .left hs, h⟩
  | @right left _ _ _ _ _ _ hs =>
      obtain ⟨q', hq, h'⟩ := h.step hs
      exact ⟨q', .right (p := left) hq, h'⟩

/-- **A peer's runs with one of two alike processes** are its runs with the other. -/
theorem alike_run {n : ℕ} (h : Alike R s.right q) (hs : Steps Step n s t) :
    ∃ q', Steps Step n (s.withRight q) (t.withRight q') ∧ Alike R t.right q' := by
  induction hs generalizing q with
  | refl s => exact ⟨q, .refl _, h⟩
  | more hs _ ih =>
      obtain ⟨q', hq, h'⟩ := alike_step h hs
      obtain ⟨q'', hq', h''⟩ := ih h'
      exact ⟨q'', .more hq hq', h''⟩

end Session
