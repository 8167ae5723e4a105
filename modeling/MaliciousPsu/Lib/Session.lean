import Mathlib.Data.List.Basic
import Mathlib.Order.Basic

/-!
# Two processes and a stream between them

A process writes symbols, reads a number of them that it asks for, and ends with a result; two of
them run against each other, in any order of steps, over a first-in first-out stream in each
direction.  A read of more symbols than there are waits, unless the other process has ended: then
it is handed `none`.

* `Steps.complete`: under a relation whose diverging steps close in one step each, a run that cannot
  be continued has every other run for a beginning.
* `Session.diamond`: steps of a session close in this way.
* `everyRun_of_run`: so one complete run tells how every run ends.
-/

variable {σ α β γ : Type}

/-! ### Runs of a relation -/

/-- `n` steps. -/
inductive Steps (r : α → α → Prop) : ℕ → α → α → Prop
  | refl (a : α) : Steps r 0 a a
  | more {n : ℕ} {a b c : α} (h : r a b) (t : Steps r n b c) : Steps r (n + 1) a c

namespace Steps

variable {r : α → α → Prop} {m n : ℕ} {a b c : α}

theorem one (h : r a b) : Steps r 1 a b := .more h (.refl b)

theorem trans (h : Steps r m a b) (t : Steps r n b c) : Steps r (n + m) a c := by
  induction h with
  | refl a => exact t
  | more h _ ih => exact .more h (ih t)

/-- The first step of any run is, or can be made, the first step of the complete one. -/
theorem step_complete (hr : ∀ {a b c}, r a b → r a c → b = c ∨ ∃ d, r b d ∧ r c d)
    (h : Steps r n a c) (hc : ∀ d, ¬ r c d) (hb : r a b) : ∃ k, n = k + 1 ∧ Steps r k b c := by
  induction h generalizing b with
  | refl a => exact absurd hb (hc b)
  | @more n a a' c h t ih =>
      rcases hr h hb with rfl | ⟨d, hd, hd'⟩
      · exact ⟨n, rfl, t⟩
      · obtain ⟨k, rfl, hk⟩ := ih hc hd
        exact ⟨k + 1, rfl, .more hd' hk⟩

/-- **A run that cannot be continued has every other run for a beginning.** -/
theorem complete (hr : ∀ {a b c}, r a b → r a c → b = c ∨ ∃ d, r b d ∧ r c d)
    (h : Steps r n a c) (hc : ∀ d, ¬ r c d) (t : Steps r m a b) :
    ∃ k, n = k + m ∧ Steps r k b c := by
  induction t generalizing n with
  | refl a => exact ⟨n, rfl, h⟩
  | more hb _ ih =>
      obtain ⟨k, rfl, hk⟩ := step_complete hr h hc hb
      obtain ⟨j, rfl, hj⟩ := ih hk
      exact ⟨j, rfl, hj⟩

end Steps

/-! ### Processes -/

/-- What a process does next. -/
inductive Process (σ α : Type)
  | done (a : α)
  | write (xs : List σ) (k : Process σ α)
  | read (n : ℕ) (k : Option (List σ) → Process σ α)

namespace Process

/-- The process has ended. -/
def Ended : Process σ α → Prop
  | done _ => True
  | _ => False

/-- A step of a process with `inbox` in front of it, towards a process that has `closed` the stream
or not: what it becomes, what is left of the inbox, what it wrote. -/
inductive Step (closed : Prop) : Process σ α → List σ → Process σ α → List σ → List σ → Prop
  | write (xs : List σ) (k : Process σ α) (inbox : List σ) :
      Step closed (write xs k) inbox k inbox xs
  | read {n : ℕ} {inbox : List σ} (k : Option (List σ) → Process σ α) (h : n ≤ inbox.length) :
      Step closed (read n k) inbox (k (some (inbox.take n))) (inbox.drop n) []
  | eof {n : ℕ} {inbox : List σ} (k : Option (List σ) → Process σ α) (h : inbox.length < n)
      (hc : closed) : Step closed (read n k) inbox (k none) [] []

variable {closed : Prop} {p p' p'' : Process σ α} {i i' i'' xs xs' : List σ}

theorem Step.deterministic (h : Step closed p i p' i' xs) (h' : Step closed p i p'' i'' xs') :
    p' = p'' ∧ i' = i'' ∧ xs = xs' := by
  cases h with
  | write _ _ _ => cases h'; exact ⟨rfl, rfl, rfl⟩
  | read _ h =>
      cases h' with
      | read _ _ => exact ⟨rfl, rfl, rfl⟩
      | eof _ h'' _ => omega
  | eof _ h _ =>
      cases h' with
      | read _ h'' => omega
      | eof _ _ _ => exact ⟨rfl, rfl, rfl⟩

theorem Step.not_ended (h : Step closed p i p' i' xs) : ¬ p.Ended := by
  cases h <;> exact id

/-- A step is still there when more has arrived, the stream open or since closed. -/
theorem Step.extend {closed' : Prop} (h : Step closed p i p' i' xs) (hc : ¬ closed)
    (ys : List σ) : Step closed' p (i ++ ys) p' (i' ++ ys) xs := by
  cases h with
  | write _ _ _ => exact .write _ _ _
  | @read n i k h =>
      have hle : n ≤ (i ++ ys).length := by
        rw [List.length_append]
        omega
      have hstep : Step closed' (.read n k) (i ++ ys) (k (some ((i ++ ys).take n)))
          ((i ++ ys).drop n) [] := .read k hle
      rw [List.take_append_of_le_length h, List.drop_append_of_le_length h] at hstep
      exact hstep
  | eof k h hc' => exact absurd hc' hc

end Process

/-! ### Sessions -/

/-- Two processes and what is on its way in either direction. -/
structure Session (σ α β : Type) where
  left : Process σ α
  right : Process σ β
  toRight : List σ
  toLeft : List σ

namespace Session

/-- A session that has not begun. -/
def init (p : Process σ α) (q : Process σ β) : Session σ α β := ⟨p, q, [], []⟩

/-- A step of one process. -/
inductive Step : Session σ α β → Session σ α β → Prop
  | left {p p' : Process σ α} {q : Process σ β} {i i' o xs : List σ}
      (h : p.Step q.Ended i p' i' xs) : Step ⟨p, q, o, i⟩ ⟨p', q, o ++ xs, i'⟩
  | right {p : Process σ α} {q q' : Process σ β} {i i' o xs : List σ}
      (h : q.Step p.Ended i q' i' xs) : Step ⟨p, q, i, o⟩ ⟨p, q', i', o ++ xs⟩

/-- Steps of the two processes commute. -/
theorem commute {p p' : Process σ α} {q q' : Process σ β} {i i' o o' xs ys : List σ}
    (hp : p.Step q.Ended i p' i' xs) (hq : q.Step p.Ended o q' o' ys) :
    ∃ v, Step ⟨p', q, o ++ xs, i'⟩ v ∧ Step ⟨p, q', o', i ++ ys⟩ v :=
  ⟨⟨p', q', o' ++ xs, i' ++ ys⟩, .right (hq.extend hp.not_ended xs),
    .left (hp.extend hq.not_ended ys)⟩

/-- **Diverging steps close in one step each.** -/
theorem diamond {s t u : Session σ α β} (ht : Step s t) (hu : Step s u) :
    t = u ∨ ∃ v, Step t v ∧ Step u v := by
  cases ht with
  | left h =>
      cases hu with
      | left h' =>
          obtain ⟨rfl, rfl, rfl⟩ := h.deterministic h'
          exact Or.inl rfl
      | right h' => exact Or.inr (commute h h')
  | right h =>
      cases hu with
      | left h' =>
          obtain ⟨v, hv, hv'⟩ := commute h' h
          exact Or.inr ⟨v, hv', hv⟩
      | right h' =>
          obtain ⟨rfl, rfl, rfl⟩ := h.deterministic h'
          exact Or.inl rfl

/-- Some run leads from `s` to `t`. -/
def Reaches (s t : Session σ α β) : Prop := ∃ n, Steps Step n s t

variable {s t u : Session σ α β}

theorem Reaches.refl (s : Session σ α β) : Reaches s s := ⟨0, .refl s⟩

theorem Reaches.trans (h : Reaches s t) (h' : Reaches t u) : Reaches s u := by
  obtain ⟨m, hm⟩ := h
  obtain ⟨n, hn⟩ := h'
  exact ⟨n + m, hm.trans hn⟩

theorem Reaches.one (h : Step s t) : Reaches s t := ⟨1, .one h⟩

theorem Reaches.left_write {q : Process σ β} {xs : List σ} {k : Process σ α} {o i : List σ} :
    Reaches ⟨.write xs k, q, o, i⟩ ⟨k, q, o ++ xs, i⟩ := .one (.left (.write xs k i))

theorem Reaches.right_write {p : Process σ α} {xs : List σ} {k : Process σ β} {o i : List σ} :
    Reaches ⟨p, .write xs k, i, o⟩ ⟨p, k, i, o ++ xs⟩ := .one (.right (.write xs k i))

theorem Reaches.left_read {q : Process σ β} {n : ℕ} {xs : List σ}
    {k : Option (List σ) → Process σ α} {o i : List σ} (hn : xs.length = n) :
    Reaches ⟨.read n k, q, o, xs ++ i⟩ ⟨k (some xs), q, o, i⟩ := by
  have h : (Process.read n k).Step q.Ended (xs ++ i) _ _ _ := .read k (by simp [hn])
  have hstep := Step.left (o := o) h
  rw [List.take_left' hn, List.drop_left' hn, List.append_nil] at hstep
  exact .one hstep

theorem Reaches.right_read {p : Process σ α} {n : ℕ} {xs : List σ}
    {k : Option (List σ) → Process σ β} {o i : List σ} (hn : xs.length = n) :
    Reaches ⟨p, .read n k, xs ++ i, o⟩ ⟨p, k (some xs), i, o⟩ := by
  have h : (Process.read n k).Step p.Ended (xs ++ i) _ _ _ := .read k (by simp [hn])
  have hstep := Step.right (o := o) h
  rw [List.take_left' hn, List.drop_left' hn, List.append_nil] at hstep
  exact .one hstep

/-- A process that reads more than there is, once the other has ended. -/
theorem Reaches.left_eof {b : β} {n : ℕ} {k : Option (List σ) → Process σ α} {o i : List σ}
    (hn : i.length < n) : Reaches ⟨.read n k, .done b, o, i⟩ ⟨k none, .done b, o, []⟩ := by
  have h : (Process.read n k).Step (Process.done b : Process σ β).Ended i (k none) [] [] :=
    .eof k hn trivial
  have hstep := Step.left (o := o) h
  rw [List.append_nil] at hstep
  exact .one hstep

theorem Reaches.right_eof {a : α} {n : ℕ} {k : Option (List σ) → Process σ β} {i o : List σ}
    (hn : i.length < n) : Reaches ⟨.done a, .read n k, i, o⟩ ⟨.done a, k none, [], o⟩ := by
  have h : (Process.read n k).Step (Process.done a : Process σ α).Ended i (k none) [] [] :=
    .eof k hn trivial
  have hstep := Step.right (o := o) h
  rw [List.append_nil] at hstep
  exact .one hstep

/-- Every run ends, with both processes at a result and the results related by `P`. -/
def EveryRun (s : Session σ α β) (P : α → β → Prop) : Prop :=
  (∃ N, ∀ n t, Steps Step n s t → n ≤ N) ∧
    ∀ n t, Steps Step n s t → (∀ u, ¬ Step t u) →
      ∃ a b, t.left = .done a ∧ t.right = .done b ∧ P a b

theorem not_step_done {a : α} {b : β} {o i : List σ} (t : Session σ α β) :
    ¬ Step ⟨.done a, .done b, o, i⟩ t := by
  rintro (h | h)
  · exact h.not_ended trivial
  · exact h.not_ended trivial

/-- **One complete run tells how every run ends.** -/
theorem everyRun_of_run {a : α} {b : β} {o i : List σ} {P : α → β → Prop}
    (h : Reaches s ⟨.done a, .done b, o, i⟩) (hP : P a b) : EveryRun s P := by
  obtain ⟨N, hN⟩ := h
  refine ⟨⟨N, fun n t ht => ?_⟩, fun n t ht hstuck => ?_⟩
  · obtain ⟨k, hk, -⟩ := hN.complete diamond not_step_done ht
    omega
  · obtain ⟨k, -, hk⟩ := hN.complete diamond not_step_done ht
    cases hk with
    | refl _ => exact ⟨a, b, rfl, rfl, hP⟩
    | more h _ => exact absurd h (hstuck _)

theorem EveryRun.mono {P Q : α → β → Prop} (h : EveryRun s P) (hPQ : ∀ a b, P a b → Q a b) :
    EveryRun s Q := by
  refine ⟨h.1, fun n t ht hstuck => ?_⟩
  obtain ⟨a, b, ha, hb, hP⟩ := h.2 n t ht hstuck
  exact ⟨a, b, ha, hb, hPQ a b hP⟩

/-- A complete run shows the results of every run. -/
theorem EveryRun.of_run {P : α → β → Prop} (h : EveryRun s P) {a : α} {b : β} {o i : List σ}
    (ht : Reaches s ⟨.done a, .done b, o, i⟩) : P a b := by
  obtain ⟨n, hn⟩ := ht
  obtain ⟨a', b', ha, hb, hP⟩ := h.2 n _ hn not_step_done
  cases ha
  cases hb
  exact hP

theorem right_done_of_run {n : ℕ} {b : β} (h : Steps Step n s t) (hb : s.right = .done b) :
    t.right = .done b := by
  induction h with
  | refl _ => exact hb
  | more h _ ih =>
      refine ih ?_
      cases h with
      | left _ => exact hb
      | right h =>
          obtain rfl : _ = Process.done b := hb
          exact absurd trivial h.not_ended

/-- A session whose runs are bounded has a complete run. -/
theorem exists_complete {N : ℕ} (h : ∀ n t, Steps Step n s t → n ≤ N) :
    ∃ n t, Steps Step n s t ∧ ∀ u, ¬ Step t u := by
  induction N generalizing s with
  | zero =>
      refine ⟨0, s, .refl s, fun u hu => ?_⟩
      have := h 1 u (.one hu)
      omega
  | succ N ih =>
      by_cases hs : ∃ u, Step s u
      · obtain ⟨u, hu⟩ := hs
        obtain ⟨n, t, ht, hstuck⟩ := ih fun n t ht => by
          have := h (n + 1) t (.more hu ht)
          omega
        exact ⟨n + 1, t, .more hu ht, hstuck⟩
      · exact ⟨0, s, .refl s, fun u hu => hs ⟨u, hu⟩⟩

/-- A run in which the right process has ended already shows its result. -/
theorem EveryRun.of_right {P : α → β → Prop} (h : EveryRun s P) (ht : Reaches s t) {b : β}
    (hb : t.right = .done b) : ∃ a, P a b := by
  obtain ⟨⟨N, hN⟩, hP⟩ := h
  obtain ⟨m, hm⟩ := ht
  obtain ⟨n, u, hu, hstuck⟩ := exists_complete (s := t) (N := N) fun n u hu => by
    have := hN _ u (hm.trans hu)
    omega
  obtain ⟨a, b', -, hb', hab⟩ := hP _ u (hm.trans hu) hstuck
  have heq := right_done_of_run hu hb
  rw [hb'] at heq
  cases heq
  exact ⟨a, hab⟩

end Session
