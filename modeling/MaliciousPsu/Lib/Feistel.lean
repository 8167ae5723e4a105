import Mathlib.Data.List.Basic

/-!
# Feistel networks

A network of rounds `(L, R) ↦ (R, L ⋆ f R)`, over any operation `⋆` with `(a ⋆ b) ⋆ b = a`.

* `Feistel.decrypt_encrypt`, `Feistel.encrypt_decrypt`: running the rounds backwards inverts the
  network, whatever the round functions are.
-/

namespace Feistel

variable {α : Type*} (op : α → α → α)

/-- A round: `(L, R) ↦ (R, L ⋆ f R)`. -/
def round (f : α → α) (x : α × α) : α × α := (x.2, op x.1 (f x.2))

/-- A round backwards: `(L, R) ↦ (R ⋆ f L, L)`. -/
def unround (f : α → α) (x : α × α) : α × α := (op x.2 (f x.1), x.1)

/-- The rounds in order. -/
def encrypt : List (α → α) → α × α → α × α
  | [], x => x
  | f :: fs, x => encrypt fs (round op f x)

/-- The rounds backwards, the last one first. -/
def decrypt : List (α → α) → α × α → α × α
  | [], x => x
  | f :: fs, x => unround op f (decrypt fs x)

variable {op} (hop : ∀ a b, op (op a b) b = a)
include hop

theorem unround_round (f : α → α) (x : α × α) : unround op f (round op f x) = x :=
  Prod.ext (hop _ _) rfl

theorem round_unround (f : α → α) (x : α × α) : round op f (unround op f x) = x :=
  Prod.ext rfl (hop _ _)

/-- **Decryption inverts encryption.** -/
theorem decrypt_encrypt : ∀ (fs : List (α → α)) (x : α × α), decrypt op fs (encrypt op fs x) = x
  | [], _ => rfl
  | f :: fs, x => by rw [encrypt, decrypt, decrypt_encrypt fs, unround_round hop]

/-- **Encryption inverts decryption.** -/
theorem encrypt_decrypt : ∀ (fs : List (α → α)) (x : α × α), encrypt op fs (decrypt op fs x) = x
  | [], _ => rfl
  | f :: fs, x => by rw [decrypt, encrypt, round_unround hop, encrypt_decrypt fs]

end Feistel
