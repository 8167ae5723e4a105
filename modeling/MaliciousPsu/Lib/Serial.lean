import Mathlib.Data.List.Basic
import Mathlib.Order.Basic

/-!
# Self-delimiting encodings

An encoding of values as strings of symbols whose decoder takes an encoding off the front of a
string and leaves the rest, and fails on a string that ends inside one.  `Valid` marks the values
it can encode.

* `Serial.fixed`, `pair`, `map`, `list`, `tagged`: encodings of blocks of a fixed length, of pairs,
  through a retraction, of lists behind their length, and of the variants of a sum behind a tag.
-/

/-- An encoding of `α` over the alphabet `σ`. -/
structure Serial (σ α : Type) where
  Valid : α → Prop
  enc : α → List σ
  dec : List σ → Option (α × List σ)
  dec_enc : ∀ {a}, Valid a → ∀ rest, dec (enc a ++ rest) = some (a, rest)
  dec_take : ∀ {a k}, Valid a → k < (enc a).length → dec ((enc a).take k) = none

namespace Serial

variable {σ α β τ : Type}

/-- Blocks of `n` symbols. -/
def fixed (n : ℕ) (enc : α → List σ) (dec : List σ → Option α) (hlen : ∀ a, (enc a).length = n)
    (hdec : ∀ a, dec (enc a) = some a) : Serial σ α where
  Valid _ := True
  enc := enc
  dec xs := if xs.length < n then none else (dec (xs.take n)).map fun a => (a, xs.drop n)
  dec_enc {a} _ rest := by
    have h : ¬ (enc a ++ rest).length < n := by
      rw [List.length_append, hlen]
      omega
    rw [if_neg h, List.take_left' (hlen a), List.drop_left' (hlen a), hdec, Option.map_some]
  dec_take {a k} _ h := by
    rw [if_pos]
    rw [List.length_take]
    have := hlen a
    omega

/-- One value after the other. -/
def pair (A : Serial σ α) (B : Serial σ β) : Serial σ (α × β) where
  Valid x := A.Valid x.1 ∧ B.Valid x.2
  enc x := A.enc x.1 ++ B.enc x.2
  dec xs := (A.dec xs).bind fun a => (B.dec a.2).map fun b => ((a.1, b.1), b.2)
  dec_enc {x} h rest := by
    rw [List.append_assoc, A.dec_enc h.1, Option.bind_some, B.dec_enc h.2, Option.map_some]
  dec_take {x k} h hk := by
    rw [List.take_append]
    by_cases hlt : k < (A.enc x.1).length
    · -- the string ends inside the first value
      rw [show k - (A.enc x.1).length = 0 by omega, List.take_zero, List.append_nil,
        A.dec_take h.1 hlt, Option.bind_none]
    · rw [List.take_of_length_le (by omega), A.dec_enc h.1, Option.bind_some, B.dec_take h.2,
        Option.map_none]
      rw [List.length_append] at hk
      omega

/-- The values `f a`, read back by `g`. -/
def map (A : Serial σ α) (f : α → β) (g : β → α) : Serial σ β where
  Valid b := A.Valid (g b) ∧ f (g b) = b
  enc b := A.enc (g b)
  dec xs := (A.dec xs).map fun a => (f a.1, a.2)
  dec_enc {b} h rest := by rw [A.dec_enc h.1, Option.map_some, h.2]
  dec_take {b k} h hk := by rw [A.dec_take h.1 hk, Option.map_none]

@[simp] theorem length_pair (A : Serial σ α) (B : Serial σ β) (x : α × β) :
    ((A.pair B).enc x).length = (A.enc x.1).length + (B.enc x.2).length := List.length_append

@[simp] theorem enc_map (A : Serial σ α) (f : α → β) (g : β → α) (b : β) :
    (A.map f g).enc b = A.enc (g b) := rfl

/-! ### Lists -/

/-- The encodings of the entries. -/
def encList (A : Serial σ α) (l : List α) : List σ := l.flatMap A.enc

/-- `n` entries. -/
def decList (A : Serial σ α) : ℕ → List σ → Option (List α × List σ)
  | 0, xs => some ([], xs)
  | n + 1, xs =>
      (A.dec xs).bind fun a => (decList A n a.2).map fun l => (a.1 :: l.1, l.2)

/-- Entries of one length. -/
theorem length_encList (A : Serial σ α) {w : ℕ} (h : ∀ a, (A.enc a).length = w) (l : List α) :
    (A.encList l).length = w * l.length := by
  induction l with
  | nil => rfl
  | cons a l ih =>
      rw [encList, List.flatMap_cons, ← encList, List.length_append, h, ih, List.length_cons,
        Nat.mul_succ, Nat.add_comm]

theorem decList_encList (A : Serial σ α) : ∀ {l : List α}, (∀ a ∈ l, A.Valid a) → ∀ rest,
    A.decList l.length (A.encList l ++ rest) = some (l, rest)
  | [], _, rest => rfl
  | a :: l, h, rest => by
      have ih := decList_encList A (fun b hb => h b (List.mem_cons_of_mem a hb)) rest
      rw [List.length_cons, decList, encList, List.flatMap_cons, List.append_assoc,
        A.dec_enc (h a List.mem_cons_self), Option.bind_some, ← encList, ih, Option.map_some]

theorem decList_take (A : Serial σ α) : ∀ {l : List α} {k : ℕ}, (∀ a ∈ l, A.Valid a) →
    k < (A.encList l).length → A.decList l.length ((A.encList l).take k) = none
  | [], k, _, hk => absurd hk (Nat.not_lt_zero k)
  | a :: l, k, h, hk => by
      rw [encList, List.flatMap_cons, ← encList] at hk ⊢
      rw [List.length_cons, decList, List.take_append]
      by_cases hlt : k < (A.enc a).length
      · rw [show k - (A.enc a).length = 0 by omega, List.take_zero, List.append_nil,
          A.dec_take (h a List.mem_cons_self) hlt, Option.bind_none]
      · rw [List.length_append] at hk
        have ih := decList_take A (k := k - (A.enc a).length)
          (fun b hb => h b (List.mem_cons_of_mem a hb)) (by omega)
        rw [List.take_of_length_le (by omega), A.dec_enc (h a List.mem_cons_self),
          Option.bind_some, ih, Option.map_none]

/-- Lists behind their length. -/
def list (count : Serial σ ℕ) (A : Serial σ α) : Serial σ (List α) where
  Valid l := count.Valid l.length ∧ ∀ a ∈ l, A.Valid a
  enc l := count.enc l.length ++ A.encList l
  dec xs := (count.dec xs).bind fun n => A.decList n.1 n.2
  dec_enc {l} h rest := by
    rw [List.append_assoc, count.dec_enc h.1, Option.bind_some, A.decList_encList h.2]
  dec_take {l k} h hk := by
    rw [List.take_append]
    by_cases hlt : k < (count.enc l.length).length
    · rw [show k - (count.enc l.length).length = 0 by omega, List.take_zero, List.append_nil,
        count.dec_take h.1 hlt, Option.bind_none]
    · rw [List.length_append] at hk
      rw [List.take_of_length_le (by omega), count.dec_enc h.1, Option.bind_some,
        A.decList_take h.2 (by omega)]

/-! ### Sums -/

/-- Values behind the tag of their variant, each variant with an encoding of its own. -/
def tagged (tag : Serial σ τ) (tagOf : α → τ) (variant : τ → Option (Serial σ α)) :
    Serial σ α where
  Valid a := tag.Valid (tagOf a) ∧ ∃ A ∈ variant (tagOf a), A.Valid a
  enc a := tag.enc (tagOf a) ++ ((variant (tagOf a)).elim [] fun A => A.enc a)
  dec xs := (tag.dec xs).bind fun t => (variant t.1).bind fun A => A.dec t.2
  dec_enc {a} h rest := by
    obtain ⟨ht, A, hA, ha⟩ := h
    rw [List.append_assoc, tag.dec_enc ht, Option.bind_some, Option.mem_def.mp hA,
      Option.bind_some, Option.elim_some, A.dec_enc ha]
  dec_take {a k} h hk := by
    obtain ⟨ht, A, hA, ha⟩ := h
    rw [Option.mem_def.mp hA, Option.elim_some] at hk ⊢
    rw [List.take_append]
    by_cases hlt : k < (tag.enc (tagOf a)).length
    · rw [show k - (tag.enc (tagOf a)).length = 0 by omega, List.take_zero, List.append_nil,
        tag.dec_take ht hlt, Option.bind_none]
    · rw [List.length_append] at hk
      rw [List.take_of_length_le (by omega), tag.dec_enc ht, Option.bind_some,
        Option.mem_def.mp hA, Option.bind_some, A.dec_take ha (by omega)]

theorem length_tagged {tag : Serial σ τ} {tagOf : α → τ} {variant : τ → Option (Serial σ α)}
    {a : α} {A : Serial σ α} (h : variant (tagOf a) = some A) :
    ((tagged tag tagOf variant).enc a).length =
      (tag.enc (tagOf a)).length + (A.enc a).length := by
  rw [tagged, List.length_append, h, Option.elim_some]

theorem valid_tagged {tag : Serial σ τ} {tagOf : α → τ} {variant : τ → Option (Serial σ α)}
    {a : α} {A : Serial σ α} (ht : tag.Valid (tagOf a)) (h : variant (tagOf a) = some A)
    (ha : A.Valid a) : (tagged tag tagOf variant).Valid a := ⟨ht, A, h, ha⟩

end Serial
