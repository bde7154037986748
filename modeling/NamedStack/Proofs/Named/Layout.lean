import NamedStack.Proofs.Named.Meaning

/-!
# Layouts

Where a program with names has come to, the engine has the stack of expressions on top, and below it
hidden items that hold the values of names. A read is resolved by copying a hidden item, by moving
it if the name is not read again before it is written, or by nothing if the hidden items on top are
what is read. A write hides the item on top. A program that is resolved in this way, piece by piece
from the left, does what its instructions mean.
-/

namespace NamedStack.Named

open Engine
open Script (Piece Writes)

/-! ### Resolving from the left -/

/-- The names whose values lie below the stack of expressions, the top one first; nothing where an
item is the value of no name any more. -/
abbrev Hidden := List (Option Name)

/-- The hidden items after a name was written. -/
def Hidden.write (hidden : Hidden) (name : Name) : Hidden :=
  some name :: hidden.map fun o => if o = some name then none else o

/-- Whether a name is read before it is written next. -/
def live (name : Name) : List Instr → Bool
  | [] => false
  | .assume x :: rest | .var x :: rest => x = name || live name rest
  | .assign x :: rest => x ≠ name && live name rest
  | _ :: rest => live name rest

/-- What a piece of a program is resolved to, given what comes behind it, and the hidden items after
it. Writes stay where they are; they are no part of the code. -/
inductive Segment (shape : Shape) (hidden : Hidden) (rest : List Instr) :
    List Instr → List Instr → Hidden → Prop
  | op (o : Opcode) : Segment shape hidden rest [.op o] [.op o] hidden
  | push (data : Bytes) : Segment shape hidden rest [.push data] [.push data] hidden
  | write (name : Name) :
      Segment shape hidden rest [.assign name] [.assign name] (hidden.write name)
  | copy {i : Instr} {name : Name} {k : Nat} (hi : IsRead i name)
      (hk : hidden[k]? = some (some name)) :
      Segment shape hidden rest [i] [.number (shape.height + k : Nat), .op .pick] hidden
  | move {i : Instr} {name : Name} {k : Nat} (hi : IsRead i name)
      (hk : hidden[k]? = some (some name)) (hopen : shape.arms = [])
      (hdead : live name rest = false) :
      Segment shape hidden rest [i] [.number (shape.height + k : Nat), .op .roll]
        (hidden.eraseIdx k)
  | elide {reads : List Instr} {names : List Name} {below : Hidden}
      (hreads : List.Forall₂ IsRead reads names) (htop : hidden = names.reverse.map some ++ below)
      (hopen : shape.arms = []) (hheight : shape.height = 0)
      (hdead : ∀ name ∈ names, live name rest = false) :
      Segment shape hidden rest reads [] below

/-- How far a program is resolved: the part that is, its code, the hidden items, what is known
there, and the part that is left. -/
inductive Resolves (stack : List Name) (ops : List Instr) :
    List Instr → List Instr → Hidden → Shape → List Instr → Prop
  | start : Resolves stack ops [] [] (stack.reverse.map some) {} ops
  | step {done code seg new rest : List Instr} {hidden hidden' : Hidden} {shape shape' : Shape}
      (h : Resolves stack ops done code hidden shape (seg ++ rest))
      (hseg : Segment shape hidden rest seg new hidden')
      (hshape : Shape.run stack shape seg = some shape') :
      Resolves stack ops (done ++ seg) (code ++ new) hidden' shape' rest

end NamedStack.Named
