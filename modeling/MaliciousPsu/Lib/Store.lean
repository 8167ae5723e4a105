import Mathlib.Data.List.Basic
import Mathlib.Data.List.GetD

/-!
# A store written key by key

A loop writes a value at the key of each turn.  Where every turn that has a key writes the same
value, this is what the key holds in the end.

* `getD_set`: the store that is a list.
* `Writes`: one turn, on the stores that an invariant keeps.
* `Writes.inv_foldl`, `Writes.get_foldl`: the loop.
-/

namespace Store

variable {S K V ι : Type*} [DecidableEq K]

/-- **A list is a store**: a write within its bounds changes that entry alone. -/
theorem getD_set {xs : List V} {i : ℕ} (h : i < xs.length) (x d : V) (j : ℕ) :
    (xs.set i x).getD j d = if j = i then x else xs.getD j d := by
  rw [List.getD_eq_getElem?_getD, List.getElem?_set, List.getD_eq_getElem?_getD]
  rcases eq_or_ne i j with rfl | hne
  · rw [if_pos rfl, if_pos h, if_pos rfl, Option.getD_some]
  · rw [if_neg hne, if_neg hne.symm]

/-- Turn `i` writes `val i` at `key i` and nothing else, and keeps the invariant. -/
structure Writes (Inv : S → Prop) (get : S → K → V) (put : S → ι → S) (key : ι → K) (val : ι → V)
    (i : ι) : Prop where
  keeps : ∀ s, Inv s → Inv (put s i)
  get_put : ∀ s, Inv s → ∀ k, get (put s i) k = if k = key i then val i else get s k

namespace Writes

variable {Inv : S → Prop} {get : S → K → V} {put : S → ι → S} {key : ι → K} {val : ι → V}

theorem inv_foldl : ∀ {is : List ι} {s : S}, (∀ i ∈ is, Writes Inv get put key val i) → Inv s →
    Inv (is.foldl put s)
  | [], _, _, hs => hs
  | i :: _, _, h, hs => by
      rw [List.foldl_cons]
      exact inv_foldl (fun j hj => h j (List.mem_cons_of_mem i hj))
        ((h i (List.mem_cons_self ..)).keeps _ hs)

/-- **What a key holds in the end**: what its turns wrote, or what was there. -/
theorem get_foldl {k : K} {v : V} : ∀ {is : List ι} {s : S},
    (∀ i ∈ is, Writes Inv get put key val i) → Inv s → (∀ i ∈ is, key i = k → val i = v) →
    (∃ i ∈ is, key i = k) ∨ get s k = v → get (is.foldl put s) k = v
  | [], _, _, _, _, h => by
      rcases h with ⟨_, hi, _⟩ | h
      · exact absurd hi List.not_mem_nil
      · exact h
  | i :: is, s, hw, hs, hval, h => by
      have hi := hw i (List.mem_cons_self ..)
      rw [List.foldl_cons]
      refine get_foldl (fun j hj => hw j (List.mem_cons_of_mem i hj)) (hi.keeps s hs)
        (fun j hj => hval j (List.mem_cons_of_mem i hj)) ?_
      by_cases hk : k = key i
      · exact Or.inr (by rw [hi.get_put s hs, if_pos hk, hval i (List.mem_cons_self ..) hk.symm])
      · rcases h with ⟨j, hj, hkj⟩ | h
        · rcases List.mem_cons.mp hj with rfl | hj
          · exact absurd hkj.symm hk
          · exact Or.inl ⟨j, hj, hkj⟩
        · exact Or.inr (by rw [hi.get_put s hs, if_neg hk, h])

end Writes

end Store
