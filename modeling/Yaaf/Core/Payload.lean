import Yaaf.Core.Types

/-!
# Payload Objects

`payload_t` as a type of objects: its constructors, its assignment, `swap` and
`cast`, and what a program that uses a set of such objects makes of them.

A type of values is a member of `τ`, which stands for what `typeid` answers,
and `V U` is the type of the values of `U`. A holder is a value with its type,
so the `static_cast` behind the comparison of the two types is a transport
along their equality.

Objects are named by the order of their construction. An operation on an
object that was never constructed is no operation of a program, and is kept
apart from the fault of a program: reading through the null pointer of an
empty payload. The source has no move assignment, so an assignment from an
expiring object copies it like any other.

`meaning` is not translated from the source. It says what the objects are for:
each is a variable that holds a typed value or nothing.

## Main definitions

* `Holder`: A value with its type.
* `PayloadT.copyOf`, `PayloadT.castTo`, `PayloadT.assign`: What can dereference.
* `PayloadOp`: The operations of a program.
* `Payloads.step`: An operation, as the source performs it.
* `Payloads.meaning`: The same operation on variables.
-/

namespace Yaaf

variable {τ : Type} {V : τ → Type}

/-- `holder<T>`: a value, and the type that `type_info` answers. -/
structure Holder (V : τ → Type) where
  typeInfo : τ
  t_ : V typeInfo

/-- `base_holder::clone`. -/
def Holder.clone (h : Holder V) : Holder V :=
  ⟨h.typeInfo, h.t_⟩

/-- Why a sequence of operations goes wrong. -/
inductive PayloadFault
  /-- It names an object that does not exist. -/
  | noObject
  /-- It dereferences the null holder of an empty payload. -/
  | nullHolder
deriving DecidableEq, Repr

/-- The message of the exception a wrong `cast` throws. -/
def badAnyCast : String := "Bad any cast"

namespace PayloadT

/-- The copy constructor: `other._holder->clone()`. -/
def copyOf : PayloadT (Holder V) → Except PayloadFault (PayloadT (Holder V))
  | none => .error .nullHolder
  | some holder => .ok (some holder.clone)

/-- The move constructor: the new object, and what it leaves of the other. -/
def moveOf (other : PayloadT (Holder V)) : PayloadT (Holder V) × PayloadT (Holder V) :=
  (other, none)

/-- `swap` of two objects that are not one. -/
def swap (left right : PayloadT (Holder V)) : PayloadT (Holder V) × PayloadT (Holder V) :=
  (right, left)

/-- `operator=`: the object after it. The temporary takes the old holder away. -/
def assign (this other : PayloadT (Holder V)) : Except PayloadFault (PayloadT (Holder V)) := do
  let tmp ← copyOf other
  return (swap this tmp).1

/-- `cast<U>`: the value, or the exception. -/
def castTo [DecidableEq τ] (U : τ) :
    PayloadT (Holder V) → Except PayloadFault (Except String (V U))
  | none => .error .nullHolder
  | some holder =>
      if h : holder.typeInfo = U then .ok (.ok (h ▸ holder.t_)) else .ok (.error badAnyCast)

end PayloadT

/-- The operations of a program on its payloads. -/
inductive PayloadOp (V : τ → Type)
  | default
  | value (U : τ) (t : V U)
  | copy (other : Nat)
  | move (other : Nat)
  | assign (this other : Nat)
  | swap (left right : Nat)
  | cast (U : τ) (this : Nat)

/-- The payloads of a program in the order of their construction, and what
    each `cast` so far gave: a value with the type asked for, or an exception. -/
structure Payloads (V : τ → Type) where
  objects : List (PayloadT (Holder V)) := []
  answers : List (Except String (Holder V)) := []

namespace Payloads

/-- The object of a number. -/
def object (s : Payloads V) (i : Nat) : Except PayloadFault (PayloadT (Holder V)) :=
  match s.objects[i]? with
  | some p => .ok p
  | none => .error .noObject

def construct (s : Payloads V) (p : PayloadT (Holder V)) : Payloads V :=
  { s with objects := s.objects ++ [p] }

def set (s : Payloads V) (i : Nat) (p : PayloadT (Holder V)) : Payloads V :=
  { s with objects := s.objects.set i p }

def answer (s : Payloads V) (r : Except String (Holder V)) : Payloads V :=
  { s with answers := s.answers ++ [r] }

variable [DecidableEq τ]

/-- One operation of the source. -/
def step (s : Payloads V) : PayloadOp V → Except PayloadFault (Payloads V)
  | .default => return s.construct none
  | .value U t => return s.construct (some ⟨U, t⟩)
  | .copy other => do
      let p ← PayloadT.copyOf (← s.object other)
      return s.construct p
  | .move other => do
      let (p, left) := PayloadT.moveOf (← s.object other)
      return (s.set other left).construct p
  | .assign this other => do
      let p ← PayloadT.assign (← s.object this) (← s.object other)
      return s.set this p
  | .swap left right => do
      let (p, q) := PayloadT.swap (← s.object left) (← s.object right)
      -- `&left != &right`
      return if left ≠ right then (s.set left p).set right q else s
  | .cast U this => do
      let r ← PayloadT.castTo U (← s.object this)
      return s.answer (r.map fun t => ⟨U, t⟩)

/-- The operation on variables that hold a typed value or nothing: a copy and
    an assignment copy what there is, a move empties its source, and a cast
    gives the value where the types agree and throws where they do not. -/
def meaning (s : Payloads V) : PayloadOp V → Except PayloadFault (Payloads V)
  | .default => return s.construct none
  | .value U t => return s.construct (some ⟨U, t⟩)
  | .copy other => do
      let p ← s.object other
      return s.construct p
  | .move other => do
      let p ← s.object other
      return (s.set other none).construct p
  | .assign this other => do
      let _ ← s.object this
      let p ← s.object other
      return s.set this p
  | .swap left right => do
      let p ← s.object left
      let q ← s.object right
      return (s.set left q).set right p
  | .cast U this => do
      match ← s.object this with
      | some holder =>
          return s.answer (if holder.typeInfo = U then .ok holder else .error badAnyCast)
      | none => return s.answer (.error badAnyCast)

end Payloads

end Yaaf
