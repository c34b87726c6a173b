import Mathlib.Data.List.Flatten
import Yaaf.Library.Machine

/-!
# Messages to Many in One Order

A medium that takes a message to any number of boxes at once. A cast is a message and
the boxes it goes to, where a box that is named twice gets it twice, and nothing comes
between two of its arrivals. The state is what has reached each box.

What reached a box is then a function of the casts, one after the other, so there is
one order of all messages that every box agrees with. Two boxes can differ in what
reaches them and not in the order of what reaches both.

## Main definitions

* `Cast`: A message and the boxes it goes to.
* `Cast.machine`: The medium.
* `Cast.inbox`, `Cast.common`: What reaches a box, and what goes to two.

## Theorems

* `run_casts`: What a run leaves in the boxes.
* `inbox_append`: What more casts add.
* `common_sublist`, `common_comm`: Two boxes agree on the order of what goes to both.
-/

/-- A message and the boxes it goes to. -/
structure Cast (β ε : Type) where
  content : ε
  boxes : List β
deriving DecidableEq, Repr

namespace Cast

variable {β ε : Type} [DecidableEq β]

/-- What a cast adds to a box. -/
def copies (c : Cast β ε) (b : β) : List ε :=
  List.replicate (c.boxes.count b) c.content

/-- A medium that takes each message to all its boxes at once. -/
def machine (β ε : Type) [DecidableEq β] : Machine (β → List ε) (Cast β ε) where
  start := fun _ => []
  step f c := some fun b => f b ++ c.copies b

/-- Everything that reaches a box. -/
def inbox (cs : List (Cast β ε)) (b : β) : List ε :=
  cs.flatMap fun c => c.copies b

/-- The messages that go to two boxes. -/
def common (cs : List (Cast β ε)) (b b' : β) : List ε :=
  (cs.filter fun c => b ∈ c.boxes ∧ b' ∈ c.boxes).map content

/-- What a run leaves in the boxes. -/
theorem run_casts (cs : List (Cast β ε)) (f : β → List ε) :
    (machine β ε).run f cs = some fun b => f b ++ inbox cs b := by
  induction cs generalizing f with
  | nil => simp only [Machine.run, inbox, List.flatMap_nil, List.append_nil]
  | cons c cs ih =>
      refine (ih fun b => f b ++ c.copies b).trans ?_
      simp only [inbox, List.flatMap_cons, List.append_assoc]

/-- What more casts add. -/
theorem inbox_append (cs cs' : List (Cast β ε)) (b : β) :
    inbox (cs ++ cs') b = inbox cs b ++ inbox cs' b :=
  List.flatMap_append

theorem common_comm (cs : List (Cast β ε)) (b b' : β) : common cs b b' = common cs b' b := by
  simp only [common, and_comm]

/-- What goes to two boxes reaches each of them in the order of the casts. -/
theorem common_sublist (cs : List (Cast β ε)) (b b' : β) :
    (common cs b b').Sublist (inbox cs b) := by
  induction cs with
  | nil => exact List.Sublist.refl _
  | cons c cs ih =>
      rw [inbox, List.flatMap_cons]
      by_cases hboth : b ∈ c.boxes ∧ b' ∈ c.boxes
      · have hcommon : common (c :: cs) b b' = [c.content] ++ common cs b b' := by
          simp only [common, List.filter_cons, hboth, and_self, decide_true, if_true, List.map_cons,
            List.singleton_append]
        have hone : [c.content].Sublist (c.copies b) :=
          List.singleton_sublist.mpr
            (List.mem_replicate.mpr ⟨Nat.ne_of_gt (List.count_pos_iff.mpr hboth.1), rfl⟩)
        rw [hcommon]
        exact hone.append ih
      · have hcommon : common (c :: cs) b b' = common cs b b' := by
          simp only [common, List.filter_cons, decide_eq_true_eq, hboth, if_false]
        rw [hcommon]
        exact ih.trans (List.sublist_append_right _ _)

end Cast
