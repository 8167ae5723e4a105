import MaliciousPsu.Lib.Session
import Mathlib.Control.Basic

/-!
# Programs that talk

Processes are a monad, and processes that may fail are programs over it.  Two programs exchange
what they write when some run of the two, with nothing on its way before it and after it, takes
both to a result.

* `Exchange.bind`: exchanges compose.
* `Exchange.mapM`, `Exchange.forM_mapM`: two loops exchange turn by turn.
* `Exchange.symm`: which of the two is called left does not matter.
* `everyRun_of_exchange`: so every run of the two ends with the results of the exchange.
* `Ends.everyRun`: in general one run to the end tells how every run ends.
-/

variable {σ α β γ δ ε ε' : Type}

namespace Process

/-- The process goes on with its result. -/
def bind : Process σ α → (α → Process σ β) → Process σ β
  | done a, f => f a
  | write xs k, f => .write xs (k.bind f)
  | read n k, f => .read n fun r => (k r).bind f

instance : Monad (Process σ) where
  pure := .done
  bind := bind

theorem bind_done : ∀ p : Process σ α, p.bind .done = p
  | done _ => rfl
  | write xs k => congrArg (Process.write xs) (bind_done k)
  | read n k => congrArg (Process.read n) (funext fun r => bind_done (k r))

theorem bind_assoc (f : α → Process σ β) (g : β → Process σ γ) :
    ∀ p : Process σ α, (p.bind f).bind g = p.bind fun a => (f a).bind g
  | done _ => rfl
  | write xs k => congrArg (Process.write xs) (bind_assoc f g k)
  | read n k => congrArg (Process.read n) (funext fun r => bind_assoc f g (k r))

instance : LawfulMonad (Process σ) :=
  LawfulMonad.mk' (Process σ) bind_done (fun _ _ => rfl) fun p f g => bind_assoc f g p

end Process

/-- A process that may fail. -/
abbrev Program (σ ε : Type) := ExceptT ε (Process σ)

namespace Program

/-- The program writes symbols. -/
def write (xs : List σ) : Program σ ε Unit := Process.write xs (.done (.ok ()))

/-- The program reads symbols, and fails with `eof` at the end of the stream. -/
def read (n : ℕ) (eof : ε) : Program σ ε (List σ) :=
  Process.read n fun
  | none => .done (.error eof)
  | some xs => .done (.ok xs)

/-- A result that needs no talk. -/
def lift (x : Except ε α) : Program σ ε α := Process.done x

/-- The program fails with another error. -/
def mapError (f : ε → ε') (p : Program σ ε α) : Program σ ε' α :=
  Process.bind p fun x => .done (x.mapError f)

theorem bind_eq (p : Program σ ε α) (f : α → Program σ ε β) :
    (p >>= f : Program σ ε β) = Process.bind p (ExceptT.bindCont f) := rfl

@[simp] theorem lift_ok (a : α) : (lift (.ok a) : Program σ ε α) = pure a := rfl

end Program

namespace Session

/-- Some run of the two, with nothing on its way before and after it, takes both to a result. -/
def Exchange (p : Program σ ε α) (q : Program σ ε' β) (a : Except ε α) (b : Except ε' β) : Prop :=
  ∀ (γ δ : Type) (k : Except ε α → Process σ γ) (k' : Except ε' β → Process σ δ),
    Reaches ⟨Process.bind p k, Process.bind q k', [], []⟩ ⟨k a, k' b, [], []⟩

variable {p : Program σ ε α} {q : Program σ ε' β} {a : α} {b : β}

theorem Exchange.lift (a : Except ε α) (b : Except ε' β) :
    Exchange (Program.lift a : Program σ ε α) (Program.lift b) a b :=
  fun _ _ _ _ => .refl _

theorem Exchange.pure (a : α) (b : β) :
    Exchange (pure a : Program σ ε α) (pure b : Program σ ε' β) (.ok a) (.ok b) :=
  fun _ _ _ _ => .refl _

/-- **Exchanges compose.** -/
theorem Exchange.bind {f : α → Program σ ε γ} {g : β → Program σ ε' δ} {c : Except ε γ}
    {d : Except ε' δ} (h : Exchange p q (.ok a) (.ok b)) (h' : Exchange (f a) (g b) c d) :
    Exchange (p >>= f) (q >>= g) c d := by
  intro γ' δ' k k'
  rw [Program.bind_eq, Program.bind_eq, Process.bind_assoc, Process.bind_assoc]
  exact (h _ _ _ _).trans (h' _ _ k k')

/-- The left program computes, and goes on. -/
theorem Exchange.lift_left {x : Except ε α} {f : α → Program σ ε γ} {c : Except ε γ}
    {b : Except ε' β} (hx : x = .ok a) (h : Exchange (f a) q c b) :
    Exchange (Program.lift x >>= f) q c b := by
  subst hx
  exact h

/-- The right program computes, and goes on. -/
theorem Exchange.lift_right {x : Except ε' β} {g : β → Program σ ε' δ} {a : Except ε α}
    {d : Except ε' δ} (hx : x = .ok b) (h : Exchange p (g b) a d) :
    Exchange p (Program.lift x >>= g) a d := by
  subst hx
  exact h

theorem Exchange.mapError {ζ ζ' : Type} (h : Exchange p q (.ok a) (.ok b)) (f : ε → ζ)
    (g : ε' → ζ') : Exchange (p.mapError f) (q.mapError g) (.ok a) (.ok b) := by
  intro γ' δ' k k'
  rw [Program.mapError, Program.mapError, Process.bind_assoc, Process.bind_assoc]
  exact h _ _ _ _

/-- What the left program writes, the right one reads. -/
theorem Exchange.write_read {n : ℕ} {xs : List σ} (h : xs.length = n) (eof : ε') :
    Exchange (Program.write xs : Program σ ε Unit) (Program.read n eof) (.ok ()) (.ok xs) := by
  intro γ' δ' k k'
  have hread := Reaches.right_read (p := k (.ok ())) (i := ([] : List σ)) (o := ([] : List σ)) h
    (k := fun r => Process.bind (match r with
      | none => .done (.error eof)
      | some xs => .done (.ok xs)) k')
  rw [List.append_nil] at hread
  exact .trans .left_write hread

/-- **Two loops exchange turn by turn.** -/
theorem Exchange.mapM {ι ξ υ : Type} {f : ξ → Program σ ε α} {g : υ → Program σ ε' β}
    {x : ι → ξ} {y : ι → υ} {a : ι → α} {b : ι → β} : ∀ {zs : List ι},
    (∀ z ∈ zs, Exchange (f (x z)) (g (y z)) (.ok (a z)) (.ok (b z))) →
    Exchange ((zs.map x).mapM f) ((zs.map y).mapM g) (.ok (zs.map a)) (.ok (zs.map b))
  | [], _ => .pure _ _
  | z :: zs, h => by
      have ih := Exchange.mapM fun z' hz' => h z' (List.mem_cons_of_mem z hz')
      rw [List.map_cons, List.map_cons, List.mapM_cons, List.mapM_cons]
      exact .bind (h z (List.mem_cons_self ..)) (.bind ih (.pure _ _))

/-- The right program goes on with its result alone. -/
theorem Exchange.map_right {a : Except ε α} (h : Exchange p q a (.ok b)) (f : β → δ) :
    Exchange p (q >>= fun b => Pure.pure (f b)) a (.ok (f b)) := by
  intro γ' δ' k k'
  rw [Program.bind_eq, Process.bind_assoc]
  exact h _ _ k _

/-- A loop without a result exchanges with one that has a result each turn. -/
theorem Exchange.forM_mapM {ι ξ υ : Type} {f : ξ → Program σ ε PUnit} {g : υ → Program σ ε' β}
    {x : ι → ξ} {y : ι → υ} {b : ι → β} : ∀ {zs : List ι},
    (∀ z ∈ zs, Exchange (f (x z)) (g (y z)) (.ok ()) (.ok (b z))) →
    Exchange ((zs.map x).forM f) ((zs.map y).mapM g) (.ok ()) (.ok (zs.map b))
  | [], _ => .pure _ _
  | z :: zs, h => by
      have ih := Exchange.forM_mapM fun z' hz' => h z' (List.mem_cons_of_mem z hz')
      rw [List.map_cons, List.map_cons, List.mapM_cons]
      exact .bind (h z (List.mem_cons_self ..)) (ih.map_right _)

/-! ### Left and right -/

/-- The session seen from the other side. -/
def swap (s : Session σ α β) : Session σ β α := ⟨s.right, s.left, s.toLeft, s.toRight⟩

theorem Step.swap {s t : Session σ α β} (h : Step s t) : Step s.swap t.swap := by
  cases h with
  | left h => exact .right h
  | right h => exact .left h

theorem Reaches.swap {s t : Session σ α β} (h : Reaches s t) : Reaches s.swap t.swap := by
  obtain ⟨n, hn⟩ := h
  refine ⟨n, ?_⟩
  induction hn with
  | refl s => exact .refl s.swap
  | more h _ ih => exact .more h.swap ih

theorem Exchange.symm {a : Except ε α} {b : Except ε' β} (h : Exchange p q a b) :
    Exchange q p b a :=
  fun _ _ k k' => (h _ _ k' k).swap

/-! ### Runs to the end -/

/-- Some run of the two ends with these results, whatever is left on its way. -/
def Ends (p : Program σ ε α) (q : Program σ ε' β) (a : Except ε α) (b : Except ε' β) : Prop :=
  ∃ o i, Reaches (init p q) ⟨.done a, .done b, o, i⟩

section Ends

variable {x : Except ε α} {y : Except ε' β}

theorem Ends.symm (h : Ends p q x y) : Ends q p y x := by
  obtain ⟨o, i, hrun⟩ := h
  exact ⟨i, o, hrun.swap⟩

theorem Exchange.ends (h : Exchange p q x y) : Ends p q x y := by
  have hreach := h _ _ .done .done
  rw [Process.bind_done, Process.bind_done] at hreach
  exact ⟨[], [], hreach⟩

/-- What comes after an exchange ends the run. -/
theorem Exchange.bind_ends {f : α → Program σ ε γ} {g : β → Program σ ε' δ} {c : Except ε γ}
    {d : Except ε' δ} (h : Exchange p q (.ok a) (.ok b)) (h' : Ends (f a) (g b) c d) :
    Ends (p >>= f) (q >>= g) c d := by
  obtain ⟨o, i, hrun⟩ := h'
  exact ⟨o, i, (h _ _ (ExceptT.bindCont f) (ExceptT.bindCont g)).trans hrun⟩

theorem Ends.lift_left {z : Except ε γ} {c : γ} {f : γ → Program σ ε α} (hz : z = .ok c)
    (h : Ends (f c) q x y) : Ends (Program.lift z >>= f) q x y := by
  subst hz
  exact h

theorem Ends.lift_right {z : Except ε' γ} {c : γ} {g : γ → Program σ ε' β} (hz : z = .ok c)
    (h : Ends p (g c) x y) : Ends p (Program.lift z >>= g) x y := by
  subst hz
  exact h

variable {P : Except ε α → Except ε' β → Prop}

/-- **One run to the end tells how every run ends.** -/
theorem Ends.everyRun (h : Ends p q x y) (hP : P x y) : EveryRun (init p q) P := by
  obtain ⟨o, i, hrun⟩ := h
  exact everyRun_of_run hrun hP

/-- What holds of every run holds of the results of one. -/
theorem EveryRun.of_ends (hevery : EveryRun (init p q) P) (h : Ends p q x y) : P x y := by
  obtain ⟨o, i, hrun⟩ := h
  exact hevery.of_run hrun

/-- **Every run of two programs that exchange** ends with their results. -/
theorem everyRun_of_exchange (h : Exchange p q x y) (hP : P x y) : EveryRun (init p q) P :=
  h.ends.everyRun hP

end Ends

end Session
