import Yaaf.Core.Payload

/-!
# Payloads as Values

A payload is meant to be a variable that holds a typed value or nothing, and
emptiness is a legal state of it: default construction starts there and a move
leaves its source there. The source agrees with that meaning operation by
operation as long as nothing reads an empty payload. Copying one, assigning
from one and casting one each follow the null pointer, since none of the three
tests it, while a move, a swap and being assigned to do not read a holder.

So the two agree on a whole program exactly if no operation of it reads an
object that is empty by then. That is a condition on the program alone: which
objects are empty is said by the meaning of the operations before.

## Main definitions

* `PayloadOp.reads`: The object an operation reads through.
* `Payloads.Full`: The object an operation reads is not empty.
* `Payloads.Filled`: No operation of a program reads an empty object.
* `Payloads.Valued`: A program does what its meaning says.

## Theorems

* `step_of_full`, `step_of_hollow`: One operation.
* `castTo_ok_iff`: When a cast returns, and what.
* `payloads_are_values`: A program does what it means exactly if it is filled.
* `copy_iff`: An envelope is copied exactly if its payload is.
-/

namespace Yaaf

variable {τ : Type} {V : τ → Type}

/-- The object whose holder the operation reads. -/
def PayloadOp.reads : PayloadOp V → Option Nat
  | .copy other => some other
  | .assign _ other => some other
  | .cast _ this => some this
  | _ => none

namespace Payloads

/-- The object the operation reads through is not empty. -/
def Full (s : Payloads V) (op : PayloadOp V) : Prop :=
  ∀ i, op.reads = some i → s.objects[i]? ≠ some none

theorem object_of_get {s : Payloads V} {i : Nat} {p : PayloadT (Holder V)}
    (h : s.objects[i]? = some p) : s.object i = .ok p := by
  unfold object
  rw [h]

theorem object_of_none {s : Payloads V} {i : Nat} (h : s.objects[i]? = none) :
    s.object i = .error .noObject := by
  unfold object
  rw [h]

/-- An object that is read through is missing, or holds something. -/
theorem object_of_full {s : Payloads V} {op : PayloadOp V} {i : Nat} (h : s.Full op)
    (hreads : op.reads = some i) :
    s.object i = .error .noObject ∨ ∃ holder, s.object i = .ok (some holder) := by
  cases hget : s.objects[i]? with
  | none => exact Or.inl (object_of_none hget)
  | some p =>
      cases p with
      | none => exact absurd hget (h i hreads)
      | some holder => exact Or.inr ⟨holder, object_of_get hget⟩

theorem object_error {s : Payloads V} {i : Nat} {f : PayloadFault}
    (h : s.object i = .error f) : f = .noObject := by
  unfold object at h
  cases hget : s.objects[i]? with
  | none =>
      rw [hget] at h
      exact (Except.error.inj h).symm
  | some p =>
      rw [hget] at h
      simp only [reduceCtorEq] at h

theorem get_of_object {s : Payloads V} {i : Nat} {p : PayloadT (Holder V)}
    (h : s.object i = .ok p) : s.objects[i]? = some p := by
  unfold object at h
  cases hget : s.objects[i]? with
  | none =>
      rw [hget] at h
      simp only [reduceCtorEq] at h
  | some q =>
      rw [hget] at h
      simp only [Except.ok.injEq] at h
      rw [h]

/-- Swapping an object with itself, which the source leaves out. -/
theorem set_object {s : Payloads V} {i : Nat} {p : PayloadT (Holder V)}
    (h : s.object i = .ok p) : (s.set i p).set i p = s := by
  rcases List.getElem?_eq_some_iff.mp (get_of_object h) with ⟨hi, hp⟩
  simp only [set, ← hp, List.set_getElem_self]

variable [DecidableEq τ]

theorem castTo_same (U : τ) (t : V U) : PayloadT.castTo U (some ⟨U, t⟩) = .ok (.ok t) :=
  dif_pos rfl

theorem castTo_other {U : τ} {holder : Holder V} (h : holder.typeInfo ≠ U) :
    PayloadT.castTo U (some holder) = .ok (.error badAnyCast) :=
  dif_neg h

/-- A cast returns exactly the value that is there, if it is of the type
    asked for. -/
theorem castTo_ok_iff (U : τ) (t : V U) (p : PayloadT (Holder V)) :
    PayloadT.castTo U p = .ok (.ok t) ↔ p = some ⟨U, t⟩ := by
  constructor
  · intro h
    rcases p with _ | ⟨T, v⟩
    · exact absurd h (by simp only [PayloadT.castTo, reduceCtorEq, not_false_eq_true])
    · by_cases hT : T = U
      · subst hT
        rw [castTo_same] at h
        simp only [Except.ok.injEq] at h
        rw [h]
      · rw [castTo_other hT] at h
        simp only [Except.ok.injEq, reduceCtorEq] at h
  · rintro rfl
    exact castTo_same U t

/-- What a cast of a payload that holds something records. -/
theorem castTo_answer (s : Payloads V) (U : τ) (holder : Holder V) :
    (do
      let r ← PayloadT.castTo U (some holder)
      return s.answer (r.map fun t => ⟨U, t⟩)) =
    (.ok (s.answer (if holder.typeInfo = U then .ok holder else .error badAnyCast)) :
      Except PayloadFault (Payloads V)) := by
  rcases holder with ⟨T, v⟩
  by_cases hT : T = U
  · subst hT
    rw [castTo_same, if_pos rfl]
    rfl
  · rw [castTo_other hT, if_neg hT]
    rfl

theorem swap_eq (s : Payloads V) (left right : Nat) :
    s.step (.swap left right) = s.meaning (.swap left right) := by
  cases hleft : s.object left with
  | error f =>
      rw [step, meaning, hleft]
      rfl
  | ok p =>
      cases hright : s.object right with
      | error f =>
          rw [step, meaning, hleft, hright]
          rfl
      | ok q =>
          rw [step, meaning, hleft, hright]
          by_cases heq : left = right
          · subst heq
            have hpq : p = q := Except.ok.inj (hleft.symm.trans hright)
            subst hpq
            refine (congrArg Except.ok (if_neg fun h => h rfl)).trans ?_
            exact congrArg Except.ok (set_object hleft).symm
          · exact congrArg Except.ok (if_pos heq)

/-- An operation that reads no empty object does what it means. -/
theorem step_of_full {s : Payloads V} {op : PayloadOp V} (h : s.Full op) :
    s.step op = s.meaning op := by
  cases op with
  | default | value U t => rfl
  | move other => rfl
  | copy other =>
      rcases object_of_full h rfl with hobj | ⟨holder, hobj⟩
      · rw [step, meaning, hobj]
        rfl
      · rw [step, meaning, hobj]
        rfl
  | assign this other =>
      rcases object_of_full h rfl with hobj | ⟨holder, hobj⟩
      · rw [step, meaning, hobj]
        rfl
      · rw [step, meaning, hobj]
        rfl
  | swap left right => exact swap_eq s left right
  | cast U this =>
      rcases object_of_full h rfl with hobj | ⟨holder, hobj⟩
      · rw [step, meaning, hobj]
        rfl
      · rw [step, meaning, hobj]
        exact castTo_answer s U holder

/-- An operation that reads an empty object follows the null pointer, where its
    meaning is to go on. -/
theorem step_of_hollow {s s' : Payloads V} {op : PayloadOp V} {i : Nat}
    (hm : s.meaning op = .ok s') (hreads : op.reads = some i) (hnull : s.objects[i]? = some none) :
    s.step op = .error .nullHolder := by
  have hobj := object_of_get hnull
  cases op with
  | default | value U t | move other | swap left right =>
      simp only [PayloadOp.reads, reduceCtorEq] at hreads
  | copy other =>
      simp only [PayloadOp.reads, Option.some.injEq] at hreads
      rw [step, hreads, hobj]
      rfl
  | cast U this =>
      simp only [PayloadOp.reads, Option.some.injEq] at hreads
      rw [step, hreads, hobj]
      rfl
  | assign this other =>
      simp only [PayloadOp.reads, Option.some.injEq] at hreads
      cases hthis : s.object this with
      | error f =>
          -- The object assigned to is there, as the operation has a meaning.
          rw [meaning, hthis] at hm
          exact absurd hm (by simp only [bind, Except.bind, reduceCtorEq, not_false_eq_true])
      | ok p =>
          rw [step, hthis, hreads, hobj]
          rfl

/-- Where an operation has no meaning, it names an object that does not exist,
    and the source is not asked to perform it either. -/
theorem step_of_meaningless {s : Payloads V} {op : PayloadOp V} {f : PayloadFault}
    (hm : s.meaning op = .error f) : f = .noObject ∧ s.step op = .error f := by
  have hfail : ∀ {i g}, s.object i = .error g → Except.error g = s.meaning op →
      s.step op = .error g → f = .noObject ∧ s.step op = .error f := by
    intro i g hobj hmeaning hstep
    have hfg : g = f := Except.error.inj (hmeaning.trans hm)
    exact ⟨hfg ▸ object_error hobj, hfg ▸ hstep⟩
  cases op with
  | default | value U t => simp only [meaning, pure, Except.pure, reduceCtorEq] at hm
  | copy i | move i | cast U i =>
      cases hobj : s.object i with
      | error g =>
          refine hfail hobj ?_ ?_
          · rw [meaning, hobj]
            rfl
          · rw [step, hobj]
            rfl
      | ok p =>
          rw [meaning, hobj] at hm
          cases p <;> simp only [bind, Except.bind, pure, Except.pure, reduceCtorEq] at hm
  | assign i j | swap i j =>
      cases hi : s.object i with
      | error g =>
          refine hfail hi ?_ ?_
          · rw [meaning, hi]
            rfl
          · rw [step, hi]
            rfl
      | ok p =>
          cases hj : s.object j with
          | error g =>
              refine hfail hj ?_ ?_
              · rw [meaning, hi, hj]
                rfl
              · rw [step, hi, hj]
                rfl
          | ok q =>
              rw [meaning, hi, hj] at hm
              simp only [bind, Except.bind, pure, Except.pure, reduceCtorEq] at hm

/-- No operation of the program reads an object that is empty by then. -/
def Filled : Payloads V → List (PayloadOp V) → Prop
  | _, [] => True
  | s, op :: ops => ∀ s', s.meaning op = .ok s' → s.Full op ∧ Filled s' ops

/-- A program dereferences no null holder, and leaves its objects and answers
    its casts as its meaning says. -/
def Valued (s : Payloads V) (ops : List (PayloadOp V)) : Prop :=
  ops.foldlM step s ≠ .error .nullHolder ∧ ops.foldlM step s = ops.foldlM meaning s

theorem valued_iff_filled : ∀ (ops : List (PayloadOp V)) (s : Payloads V),
    Valued s ops ↔ Filled s ops := by
  intro ops
  induction ops with
  | nil =>
      intro s
      exact ⟨fun _ => trivial, fun _ => ⟨nofun, rfl⟩⟩
  | cons op ops ih =>
      intro s
      unfold Valued Filled
      rw [List.foldlM_cons, List.foldlM_cons]
      cases hm : s.meaning op with
      | error f =>
          rcases step_of_meaningless hm with ⟨rfl, hstep⟩
          rw [hstep]
          refine ⟨fun _ s' h => ?_, fun _ => ⟨nofun, rfl⟩⟩
          simp only [reduceCtorEq] at h
      | ok s' =>
          by_cases hfull : s.Full op
          · rw [step_of_full hfull, hm]
            refine (ih s').trans ⟨?_, fun h => (h s' rfl).2⟩
            intro hrest t ht
            exact ⟨hfull, Except.ok.inj ht ▸ hrest⟩
          · refine ⟨fun h => ?_, fun h => absurd (h s' rfl).1 hfull⟩
            -- The null pointer is followed at once.
            simp only [Full, ne_eq, not_forall, not_not, exists_prop] at hfull
            rcases hfull with ⟨i, hreads, hnull⟩
            rw [step_of_hollow hm hreads hnull] at h
            exact absurd rfl h.1

end Payloads

open Payloads

/-- The operations of a program on its payloads do what they mean for values,
    without dereferencing a null holder, exactly if no copy construction, no
    assignment and no cast reads a payload that is empty by then. -/
theorem payloads_are_values [DecidableEq τ] (ops : List (PayloadOp V)) :
    Valued ({} : Payloads V) ops ↔ Filled {} ops :=
  valued_iff_filled ops {}

/-- Copying an empty payload is enough to leave the meaning. -/
theorem payloads_are_values_empty :
    ¬ ∀ ops : List (PayloadOp fun _ : Bool => Nat), Valued {} ops := by
  intro h
  exact (h [.default, .copy 0]).1 rfl

/-- An envelope can be copied exactly if its payload can. -/
theorem copy_iff (e : Envelope (Holder V)) :
    e.copy?.isSome = true ↔ ∃ p, PayloadT.copyOf e.payload = .ok p := by
  rcases e with ⟨_ | holder, sender⟩
  · refine ⟨fun h => absurd h Bool.false_ne_true, ?_⟩
    rintro ⟨p, hp⟩
    simp only [PayloadT.copyOf, reduceCtorEq] at hp
  · exact ⟨fun _ => ⟨_, rfl⟩, fun _ => rfl⟩

end Yaaf
