import Mathlib.Algebra.GroupWithZero.Nat
import Mathlib.Data.List.Basic

/-!
# Tables of Slots

A list used as a table of threads: a step reads one slot, and then either
puts something else in it or removes it. `slot_split` turns the index into a
decomposition of the list, which is what `filterMap` and append can work
with, and the two counting lemmas say what the step does to the number of
slots with a property.

## Theorems

* `slot_split`: A read slot splits the table.
* `countP_set`: Replacing a slot moves the count by the difference.
* `countP_eraseIdx`: Removing a slot lowers the count by what it held.
* `countP_lt_of_mem`: A strictly stronger property counts less.
* `two_le_countP`: Two slots with a property count twice.
* `sum_set`, `sum_eraseIdx`: The same for a sum.
* `filterMap_set`, `filterMap_eraseIdx`: Slots that yield nothing drop out.
* `filterMap_slot`: What a slot yields stands between the others.
* `filterMap_sole`: The only slot that yields anything yields it all.
-/

namespace Slots

variable {α β : Type}

/-- A read slot splits the table, and the two updates act between the parts. -/
theorem slot_split {l : List α} {i : Nat} {x : α} (h : l[i]? = some x) :
    ∃ pre post, l = pre ++ x :: post ∧ (∀ y, l.set i y = pre ++ y :: post) ∧
      l.eraseIdx i = pre ++ post := by
  induction l generalizing i with
  | nil => exact absurd h (by simp only [List.getElem?_nil, reduceCtorEq, not_false_eq_true])
  | cons z l ih =>
      cases i with
      | zero =>
          rw [List.getElem?_cons_zero, Option.some.injEq] at h
          rw [h]
          exact ⟨[], l, rfl, fun _ => rfl, rfl⟩
      | succ i =>
          rw [List.getElem?_cons_succ] at h
          rcases ih h with ⟨pre, post, hl, hset, herase⟩
          refine ⟨z :: pre, post, by rw [hl, List.cons_append], fun y => ?_, ?_⟩
          · rw [List.set_cons_succ, hset, List.cons_append]
          · rw [List.eraseIdx_cons_succ, herase, List.cons_append]

theorem countP_set {l : List α} {i : Nat} {x : α} (h : l[i]? = some x) (p : α → Bool) (y : α) :
    (l.set i y).countP p + (p x).toNat = l.countP p + (p y).toNat := by
  rcases slot_split h with ⟨pre, post, hl, hset, _⟩
  rw [hset, hl]
  simp only [List.countP_append, List.countP_cons]
  cases p x <;> cases p y <;> simp only [Bool.false_eq_true, if_true, if_false, Bool.toNat_true,
    Bool.toNat_false] <;> omega

theorem countP_eraseIdx {l : List α} {i : Nat} {x : α} (h : l[i]? = some x) (p : α → Bool) :
    (l.eraseIdx i).countP p + (p x).toNat = l.countP p := by
  rcases slot_split h with ⟨pre, post, hl, _, herase⟩
  rw [herase, hl]
  simp only [List.countP_append, List.countP_cons]
  cases p x <;> simp only [Bool.false_eq_true, if_true, if_false, Bool.toNat_true,
    Bool.toNat_false] <;> omega

theorem filterMap_set {l : List α} {i : Nat} {x : α} (h : l[i]? = some x) (f : α → Option β)
    {y : α} (hxy : f x = f y) : (l.set i y).filterMap f = l.filterMap f := by
  rcases slot_split h with ⟨pre, post, hl, hset, _⟩
  rw [hset, hl]
  simp only [List.filterMap_append, List.filterMap_cons, hxy]

theorem filterMap_eraseIdx {l : List α} {i : Nat} {x : α} (h : l[i]? = some x)
    (f : α → Option β) (hx : f x = none) : (l.eraseIdx i).filterMap f = l.filterMap f := by
  rcases slot_split h with ⟨pre, post, hl, _, herase⟩
  rw [herase, hl]
  simp only [List.filterMap_append, List.filterMap_cons, hx]

/-- Two slots with a property count twice. -/
theorem two_le_countP {l : List α} {i j : Nat} {x y : α} (hi : l[i]? = some x)
    (hj : l[j]? = some y) (hij : j ≠ i) {p : α → Bool} (hpx : p x = true) (hpy : p y = true) :
    2 ≤ l.countP p := by
  have hmem : y ∈ l.eraseIdx i := List.mem_eraseIdx_iff_getElem?.mpr ⟨j, hij, hj⟩
  have hpos := List.countP_pos_iff.mpr ⟨y, hmem, hpy⟩
  have hcount := countP_eraseIdx hi p
  rw [hpx, Bool.toNat_true] at hcount
  omega

/-- Putting an element back into a list: what stood before another element
    stands before it still, with the one put back at most. -/
theorem split_of_erased {l1 l2 pre post : List α} {x y : α} (h : l1 ++ l2 = pre ++ y :: post) :
    ∃ pre' post', l1 ++ x :: l2 = pre' ++ y :: post' ∧ ∀ z ∈ pre', z ∈ pre ∨ z = x := by
  rcases List.append_eq_append_iff.mp h with ⟨mid, hpre, hl2⟩ | ⟨mid, hl1, hpost⟩
  · refine ⟨l1 ++ x :: mid, post, by rw [hl2, List.append_assoc, List.cons_append], fun z hz => ?_⟩
    rw [hpre]
    rcases List.mem_append.mp hz with hz | hz
    · exact Or.inl (List.mem_append_left _ hz)
    · rcases List.mem_cons.mp hz with hz | hz
      · exact Or.inr hz
      · exact Or.inl (List.mem_append_right _ hz)
  · cases mid with
    | nil =>
        rw [List.append_nil] at hl1
        rw [List.nil_append] at hpost
        refine ⟨pre ++ [x], post, ?_, fun z hz => ?_⟩
        · rw [hl1, ← hpost, List.append_assoc, List.singleton_append]
        · rcases List.mem_append.mp hz with hz | hz
          · exact Or.inl hz
          · exact Or.inr (List.mem_singleton.mp hz)
    | cons w mid =>
        simp only [List.cons_append, List.cons.injEq] at hpost
        refine ⟨pre, mid ++ x :: l2, ?_, fun z hz => Or.inl hz⟩
        rw [hl1, hpost.1, List.append_assoc, List.cons_append]

/-- What a slot yields stands between what the others yield. -/
theorem filterMap_slot {l : List α} {i : Nat} {x : α} (h : l[i]? = some x) (f : α → Option β) :
    ∃ pre post, l.filterMap f = pre ++ (f x).toList ++ post ∧
      ∀ y, (l.set i y).filterMap f = pre ++ (f y).toList ++ post := by
  rcases slot_split h with ⟨pre, post, hl, hset, _⟩
  have hmid : ∀ y, (pre ++ y :: post).filterMap f =
      pre.filterMap f ++ (f y).toList ++ post.filterMap f := by
    intro y
    rw [List.filterMap_append, List.filterMap_cons, List.append_assoc]
    cases f y <;> rfl
  exact ⟨_, _, by rw [hl, hmid], fun y => by rw [hset, hmid]⟩

/-- A property that one element of the table has and a stronger one that it
    lacks are counted differently. -/
theorem countP_lt_of_mem {l : List α} {p q : α → Bool} (hpq : ∀ x, p x = true → q x = true)
    {x : α} (hx : x ∈ l) (hp : p x = false) (hq : q x = true) : l.countP p < l.countP q := by
  rcases List.getElem?_of_mem hx with ⟨i, hi⟩
  have hle : (l.eraseIdx i).countP p ≤ (l.eraseIdx i).countP q :=
    List.countP_mono_left fun y _ => hpq y
  have hcp := countP_eraseIdx hi p
  have hcq := countP_eraseIdx hi q
  rw [hp, Bool.toNat_false] at hcp
  rw [hq, Bool.toNat_true] at hcq
  omega

/-- Replacing a slot moves a sum over the table by the difference. -/
theorem sum_set {l : List α} {i : Nat} {x : α} (h : l[i]? = some x) (f : α → Nat) (y : α) :
    ((l.set i y).map f).sum + f x = (l.map f).sum + f y := by
  rcases slot_split h with ⟨pre, post, hl, hset, _⟩
  rw [hset, hl]
  simp only [List.map_append, List.map_cons, List.sum_append_nat, List.sum_cons]
  omega

/-- Removing a slot takes what it adds out of the sum. -/
theorem sum_eraseIdx {l : List α} {i : Nat} {x : α} (h : l[i]? = some x) (f : α → Nat) :
    ((l.eraseIdx i).map f).sum + f x = (l.map f).sum := by
  rcases slot_split h with ⟨pre, post, hl, _, herase⟩
  rw [herase, hl]
  simp only [List.map_append, List.map_cons, List.sum_append_nat, List.sum_cons]
  omega

/-- Where one slot is the only one to yield anything, it yields it all, and so does
    whatever replaces it. -/
theorem filterMap_sole {l : List α} {i : Nat} {x : α} (h : l[i]? = some x) (f : α → Option β)
    (hsole : ∀ j y, l[j]? = some y → j ≠ i → f y = none) :
    l.filterMap f = (f x).toList ∧ ∀ y, (l.set i y).filterMap f = (f y).toList := by
  induction l generalizing i with
  | nil => exact absurd h (by simp only [List.getElem?_nil, reduceCtorEq, not_false_eq_true])
  | cons z l ih =>
      cases i with
      | zero =>
          rw [List.getElem?_cons_zero, Option.some.injEq] at h
          have hnil : l.filterMap f = [] := by
            refine List.filterMap_eq_nil_iff.mpr fun y hy => ?_
            rcases List.mem_iff_getElem?.mp hy with ⟨j, hj⟩
            exact hsole (j + 1) y hj (Nat.succ_ne_zero j)
          refine ⟨?_, fun y => ?_⟩
          · rw [List.filterMap_cons, hnil, h]
            cases f x <;> rfl
          · rw [List.set_cons_zero, List.filterMap_cons, hnil]
            cases f y <;> rfl
      | succ i =>
          rw [List.getElem?_cons_succ] at h
          have hz : f z = none := hsole 0 z rfl (Nat.succ_ne_zero i).symm
          rcases ih h fun j y hj hne => hsole (j + 1) y hj fun he => hne (Nat.succ.inj he) with
            ⟨hread, hset⟩
          refine ⟨?_, fun y => ?_⟩
          · rw [List.filterMap_cons, hz, hread]
          · rw [List.set_cons_succ, List.filterMap_cons, hz, hset]

end Slots
