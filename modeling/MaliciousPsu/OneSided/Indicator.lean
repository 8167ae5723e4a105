import MaliciousPsu.OneSided.Party

/-!
# The indicator

What the receiver of a one-sided protocol finds when both parties are honest: the items of the
sender that it also has, up to a collision of hashes.  The semi-honest protocol looks abscissas up,
the other encodings of Edwards points.

* `any_shuffled`: looking a point up among shuffled points does not depend on the shuffle.
* `PartyReceiver.compare_eq`, `PartyReceiver1M.compare_eq`: the indicator as a function of the two
  lists of items alone.
* `Exact.of_indicator`: with it the receiver gets the items that it does not have.
-/

namespace MaliciousPsu

/-- The blocks that came with a choice of `false`. -/
def received (out : List Bool × List Block) : List Block :=
  (out.2.zip out.1).filterMap fun x => if x.2 then none else some x.1

/-! ### What each party sends -/

section Messages

variable {n : ℕ} (O : Oracles) (V : List Block) (raw : Bytes32)

theorem PartySender.gen_eq {k : ℕ} (π : Equiv.Perm (Fin k)) :
    (PartySender.gen O (Sender.new (flatten V) n raw π)).1 =
      V.map fun x => toMontgomery (mulClamped (curvePoint O x) (Keys.new raw).sk8) := by
  simp only [PartySender.gen, Sender.new, chunksExact_flatten, List.map_map]
  refine List.map_congr_left fun x _ => ?_
  rw [Function.comp_apply, ← toMontgomery_curvePoint, mulClamped_toMontgomery]

theorem PartyReceiver.gen_eq :
    PartyReceiver.gen O (Receiver.new (flatten V) n raw) =
      V.map fun x => toMontgomery (mulClamped (curvePoint O x) (Keys.new raw).sk8) := by
  simp only [PartyReceiver.gen, Receiver.new, chunksExact_flatten]
  refine List.map_congr_left fun x _ => ?_
  rw [← toMontgomery_curvePoint, mulClamped_toMontgomery]

theorem PartySender.length_gen {k : ℕ} (π : Equiv.Perm (Fin k)) :
    (PartySender.gen O (Sender.new (flatten V) n raw π)).1.length = V.length := by
  rw [PartySender.gen_eq, List.length_map]

theorem PartyReceiver.length_gen :
    (PartyReceiver.gen O (Receiver.new (flatten V) n raw)).length = V.length := by
  rw [PartyReceiver.gen_eq, List.length_map]

theorem mapM_itemToEdwards :
    V.mapM (itemToEdwards O) = .ok (V.map (curvePoint O)) := by
  rw [mapM_eq_ok]
  induction V with
  | nil => exact .nil
  | cons x V ih => exact .cons (itemToEdwards_eq O x) ih

theorem PartySender1M.gen_eq {k : ℕ} (π : Equiv.Perm (Fin k)) :
    PartySender1M.gen O (Sender.new (flatten V) n raw π) =
      .ok (V.map fun x => EdwardsPoint.compress (mulClamped (curvePoint O x) (Keys.new raw).sk8),
        V.map (curvePoint O), V.map fun x => EdwardsPoint.compress (curvePoint O x)) := by
  simp only [PartySender1M.gen, Sender.new, chunksExact_flatten, mapM_itemToEdwards, ok_bind,
    List.map_map, pure_eq_ok]
  rfl

theorem PartyReceiver1M.gen_eq :
    PartyReceiver1M.gen O (Receiver.new (flatten V) n raw) =
      .ok (V.map fun x =>
        EdwardsPoint.compress (mulClamped (curvePoint O x) (Keys.new raw).sk8)) := by
  simp only [PartyReceiver1M.gen, Receiver.new, chunksExact_flatten, itemToEdwards_eq, ok_bind,
    pure_eq_ok]
  exact mapM_eq_ok.mpr (List.forall₂_map_right_iff.mpr (List.forall₂_same.mpr fun _ _ => rfl))

end Messages

/-! ### Shuffles -/

section Shuffle

variable {α : Type} {V : List Block} (π : Equiv.Perm (Fin V.length))

theorem idx_map (g : Block → α) (i : Fin V.length) : idx (V.map g) i = .ok (g V[i]) := by
  have hi : (i : ℕ) < (V.map g).length := (List.length_map g).symm ▸ i.isLt
  rw [idx_of_lt hi, List.getElem_map]
  rfl

/-- The entries that a permutation picks. -/
theorem mapM_permList {f : ℕ → Run α} {g : Block → α}
    (h : ∀ i : Fin V.length, f i = .ok (g V[i])) :
    (permList π).mapM f = .ok (List.ofFn fun i => g V[π i]) :=
  mapM_ofFn fun i => h (π i)

/-- **A lookup among shuffled entries** is one among the entries. -/
theorem any_shuffled (g : Block → α) (test : α → Bool) :
    ((List.ofFn fun i => g V[π i]).any test) = decide (∃ r ∈ V, test (g r) = true) := by
  rw [Bool.eq_iff_iff, List.any_eq_true, decide_eq_true_iff]
  constructor
  · rintro ⟨a, ha, htest⟩
    obtain ⟨i, rfl⟩ := List.mem_ofFn.mp ha
    exact ⟨V[π i], List.getElem_mem _, htest⟩
  · rintro ⟨r, hr, htest⟩
    obtain ⟨j, hj, rfl⟩ := List.getElem_of_mem hr
    exact ⟨g V[j], List.mem_ofFn.mpr ⟨π.symm ⟨j, hj⟩, congrArg (fun k : Fin V.length => g V[k])
      (π.apply_symm_apply ⟨j, hj⟩)⟩, htest⟩

end Shuffle

/-! ### The indicator -/

section Indicator

variable (O : Oracles) (R : List Block)

/-- An item has the hash of an item of the receiver, up to the sign. -/
def Matches (s : Block) : Prop := ∃ r ∈ R, 8 • curvePoint O s = 8 • curvePoint O r ∨
  8 • curvePoint O s = -(8 • curvePoint O r : EdwardsPoint)

/-- An item has the hash of an item of the receiver. -/
def Matches1M (s : Block) : Prop := ∃ r ∈ R, 8 • curvePoint O s = 8 • curvePoint O r

instance (s : Block) : Decidable (Matches O R s) := List.decidableBEx _ _

instance (s : Block) : Decidable (Matches1M O R s) := List.decidableBEx _ _

variable (P Q : EdwardsPoint) (rawS rawR : Bytes32)

theorem mulClamped_neg (P : EdwardsPoint) (b : Bytes32) : mulClamped (-P) b = -mulClamped P b := by
  rw [mulClamped, mulClamped, smul_neg]

theorem doubleBlind_mem (P : EdwardsPoint) (raw : Bytes32) (s : Scalar) :
    mulScalar (mulClamped P (Keys.new raw).sk8) s ∈ primeSubgroup EdwardsPoint :=
  mulScalar_mem (Keys.mulClamped_mem raw (EdwardsPoint.eight_nsmul_mem P)) s

/-- Equal abscissas of double blindings. -/
theorem doubleBlind_toMontgomery :
    (FieldElement.fromBytes (toMontgomery (mulScalar (mulClamped Q (Keys.new rawR).sk8)
        (Keys.new rawS).sk)) ==
      FieldElement.fromBytes (toMontgomery (mulScalar (mulClamped P (Keys.new rawS).sk8)
        (Keys.new rawR).sk))) = true ↔ 8 • P = 8 • Q ∨ 8 • P = -(8 • Q : EdwardsPoint) := by
  have hneg : mulScalar (mulClamped Q (Keys.new rawR).sk8) (Keys.new rawS).sk =
      -mulScalar (mulClamped P (Keys.new rawS).sk8) (Keys.new rawR).sk ↔
        8 • P = -(8 • Q : EdwardsPoint) := by
    rw [← mulScalar_neg, ← mulClamped_neg, doubleBlind_eq_iff, smul_neg, neg_eq_iff_eq_neg]
  rw [beq_iff_eq, toMontgomery_eq, toMontgomery_eq, FieldElement.fromBytes_asBytes,
    FieldElement.fromBytes_asBytes, ← FieldElement.asBytes_injective.eq_iff, ← toMontgomery_eq,
    ← toMontgomery_eq, toMontgomery_eq_iff (doubleBlind_mem _ _ _) (doubleBlind_mem _ _ _),
    doubleBlind_eq_iff, hneg]

/-- Equal encodings of double blindings. -/
theorem doubleBlind_compress :
    (EdwardsPoint.compress (mulScalar (mulClamped Q (Keys.new rawR).sk8) (Keys.new rawS).sk) ==
      EdwardsPoint.compress (mulScalar (mulClamped P (Keys.new rawS).sk8) (Keys.new rawR).sk)) =
        true ↔ 8 • P = 8 • Q := by
  rw [beq_iff_eq, EdwardsPoint.compress_injective.eq_iff, doubleBlind_eq_iff]

variable (S : List Block) (π : Equiv.Perm (Fin R.length))

theorem PartyReceiver1M.blind_map (receiver : Receiver) {α : Type} (V : List α)
    (f : α → EdwardsPoint) :
    PartyReceiver1M.blind receiver (V.map fun x => EdwardsPoint.compress (f x)) =
      .ok (V.map fun x => EdwardsPoint.compress (mulScalar (f x) receiver.sk), V.map f) := by
  have hpoints : (V.map fun x => EdwardsPoint.compress (f x)).mapM
      (fun b => unwrap (EdwardsPoint.decompress b)) = .ok (V.map f) := by
    rw [mapM_eq_ok, List.forall₂_map_left_iff, List.forall₂_map_right_iff, List.forall₂_same]
    intro x _
    rw [EdwardsPoint.decompress_compress, unwrap_some]
  simp only [PartyReceiver1M.blind, hpoints, ok_bind, List.map_map, pure_eq_ok]
  rfl

/-- The receiver's abscissas, blinded by the sender. -/
theorem PartySender.blindAndShuffle_eq (n : ℕ) :
    PartySender.blindAndShuffle (Sender.new (flatten S) n rawS π)
        (R.map fun x => toMontgomery (mulClamped (curvePoint O x) (Keys.new rawR).sk8)) =
      .ok (List.ofFn fun i => toMontgomery (mulScalar
        (mulClamped (curvePoint O R[π i]) (Keys.new rawR).sk8) (Keys.new rawS).sk)) := by
  rw [PartySender.blindAndShuffle]
  refine mapM_permList (g := fun r => toMontgomery (mulScalar
    (mulClamped (curvePoint O r) (Keys.new rawR).sk8) (Keys.new rawS).sk)) π fun i => ?_
  rw [idx_map, ok_bind, pure_eq_ok, mul_toMontgomery]
  rfl

theorem PartyReceiver.blind_map (receiver : Receiver) {α : Type} (V : List α)
    (f : α → EdwardsPoint) :
    PartyReceiver.blind receiver (V.map fun x => toMontgomery (f x)) =
      V.map fun x => toMontgomery (mulScalar (f x) receiver.sk) := by
  rw [PartyReceiver.blind, List.map_map]
  refine List.map_congr_left fun x _ => ?_
  rw [Function.comp_apply, mul_toMontgomery]

/-- **The indicator of abscissas** tells the items that match, whatever the keys, the shuffle and
the order of `R` are. -/
theorem PartyReceiver.compare_eq :
    PartyReceiver.compare
      (S.map fun s => toMontgomery (mulScalar
        (mulClamped (curvePoint O s) (Keys.new rawS).sk8) (Keys.new rawR).sk))
      (List.ofFn fun i => toMontgomery (mulScalar
        (mulClamped (curvePoint O R[π i]) (Keys.new rawR).sk8) (Keys.new rawS).sk)) =
      S.map fun s => decide (Matches O R s) := by
  rw [PartyReceiver.compare, compareBy, List.map_map]
  refine List.map_congr_left fun s _ => ?_
  rw [Function.comp_apply, any_shuffled π (fun r => toMontgomery (mulScalar
    (mulClamped (curvePoint O r) (Keys.new rawR).sk8) (Keys.new rawS).sk))]
  exact decide_eq_decide.mpr (exists_congr fun r => and_congr_right fun _ =>
    doubleBlind_toMontgomery (curvePoint O s) (curvePoint O r) rawS rawR)

/-- The sender's answer to the receiver's abscissas, and the indicator that the receiver gets. -/
theorem PartyReceiver.exists_indicator :
    let sender := Sender.new (flatten S) S.length rawS π
    let receiver := Receiver.new (flatten R) R.length rawR
    ∃ sdM2, PartySender.blindAndShuffle sender (PartyReceiver.gen O receiver) = .ok sdM2 ∧
      sdM2.length = R.length ∧
      PartyReceiver.compare (PartyReceiver.blind receiver (PartySender.gen O sender).1) sdM2 =
        S.map fun s => decide (Matches O R s) := by
  intro sender receiver
  have hanswer := PartySender.blindAndShuffle_eq O R rawS rawR S π S.length
  rw [← PartyReceiver.gen_eq O R rawR (n := R.length)] at hanswer
  refine ⟨_, hanswer, List.length_ofFn, ?_⟩
  rw [PartySender.gen_eq, PartyReceiver.blind_map]
  exact PartyReceiver.compare_eq O R rawS rawR S π

/-- The receiver's points, blinded by the sender. -/
theorem PartySender1M.blindAndShuffle_eq (n : ℕ) :
    PartySender1M.blindAndShuffle (Sender.new (flatten S) n rawS π)
        (R.map fun x => EdwardsPoint.compress (mulClamped (curvePoint O x) (Keys.new rawR).sk8)) =
      .ok (List.ofFn fun i => EdwardsPoint.compress (mulScalar
        (mulClamped (curvePoint O R[π i]) (Keys.new rawR).sk8) (Keys.new rawS).sk)) := by
  rw [PartySender1M.blindAndShuffle]
  refine mapM_permList (g := fun r => EdwardsPoint.compress (mulScalar
    (mulClamped (curvePoint O r) (Keys.new rawR).sk8) (Keys.new rawS).sk)) π fun i => ?_
  rw [idx_map, ok_bind, EdwardsPoint.decompress_compress]
  rfl

/-- **The indicator of encodings.** -/
theorem PartyReceiver1M.compare_eq :
    PartyReceiver1M.compare
      (S.map fun s => EdwardsPoint.compress (mulScalar
        (mulClamped (curvePoint O s) (Keys.new rawS).sk8) (Keys.new rawR).sk))
      (List.ofFn fun i => EdwardsPoint.compress (mulScalar
        (mulClamped (curvePoint O R[π i]) (Keys.new rawR).sk8) (Keys.new rawS).sk)) =
      S.map fun s => decide (Matches1M O R s) := by
  rw [PartyReceiver1M.compare, compareBy, List.map_map]
  refine List.map_congr_left fun s _ => ?_
  rw [Function.comp_apply, any_shuffled π (fun r => EdwardsPoint.compress (mulScalar
    (mulClamped (curvePoint O r) (Keys.new rawR).sk8) (Keys.new rawS).sk))]
  exact decide_eq_decide.mpr (exists_congr fun r => and_congr_right fun _ =>
    doubleBlind_compress (curvePoint O s) (curvePoint O r) rawS rawR)

/-- What comes with a choice of `false` is the first block of its pair. -/
theorem received_otReceive (choice : Block → Bool) : ∀ ms : List (Block × Block),
    received ((ms.map Prod.fst).map choice, otReceive ms ((ms.map Prod.fst).map choice)) =
      (ms.map Prod.fst).filter fun s => !choice s
  | [] => rfl
  | m :: ms => by
      have ih := received_otReceive choice ms
      simp only [received, otReceive] at ih
      simp only [received, otReceive, List.map_cons, List.zipWith_cons_cons, List.zip_cons_cons,
        List.filterMap_cons, List.filter_cons]
      cases choice m.1 with
      | false => simpa using ih
      | true => simpa using ih

end Indicator

/-! ### What the receiver gets -/

/-- The indicator tells the items that `Match`, and the blocks received are the items that are not
in `R`, unless an item outside `R` matches. -/
structure Exact (Match : Block → Prop) [DecidablePred Match] (S R : List Block)
    (ms : List (Block × Block)) (out : List Bool × List Block) : Prop where
  indicator : out.1 = S.map fun s => decide (Match s)
  received : ms.map Prod.fst = S → (∀ s ∈ S, Match s → s ∈ R) → received out = S.filter (· ∉ R)

theorem Exact.of_indicator {Match : Block → Prop} [DecidablePred Match] {S R : List Block}
    (hR : ∀ s ∈ R, Match s) (ms : List (Block × Block)) :
    Exact Match S R ms
      (S.map fun s => decide (Match s), otReceive ms (S.map fun s => decide (Match s))) := by
  refine ⟨rfl, fun hms hcol => ?_⟩
  subst hms
  rw [received_otReceive]
  refine List.filter_congr fun s hs => ?_
  rw [← decide_not, decide_eq_decide]
  exact not_congr ⟨hcol s hs, hR s⟩

theorem matches_of_mem {O : Oracles} {R : List Block} {s : Block} (h : s ∈ R) : Matches O R s :=
  ⟨s, h, Or.inl rfl⟩

theorem matches1M_of_mem {O : Oracles} {R : List Block} {s : Block} (h : s ∈ R) :
    Matches1M O R s := ⟨s, h, rfl⟩

end MaliciousPsu
