/-!
# Programs that ask their environment

A program of type `Prog Op Ans α` asks its environment one operation after the other and goes on
with the answer; `Ans o` is the type of the answers to `o`. Whoever runs it chooses the answers,
so a property of all its traces is a property of the program whatever its environment does.

A `Protocol` is an automaton over the operations: which of them a state allows, which answers it
counts on, and the state after an answer. `Prog.Follows` says that a program asks only what the
protocol allows and ends in a state with a given property, as long as the answers are those that
are counted on. It says nothing of a program after another answer. The rules to prove it:

* `Prog.follows_bind` cuts a program at a bind, and `Prog.Follows.mono` weakens what its end has;
* `Prog.Follows.trace` carries the result over to every trace with the answers counted on.
-/

namespace Resumption

/-- A program: its result, or an operation and what to do with the answer. -/
inductive Prog (Op : Type) (Ans : Op → Type) (α : Type) : Type
  | pure (a : α)
  | op (o : Op) (k : Ans o → Prog Op Ans α)

variable {Op : Type} {Ans : Op → Type} {α β : Type}

namespace Prog

/-- One program after another. -/
def bind : Prog Op Ans α → (α → Prog Op Ans β) → Prog Op Ans β
  | .pure a, f => f a
  | .op o k, f => .op o fun b => (k b).bind f

/-- Ask one operation. -/
def perform (o : Op) : Prog Op Ans (Ans o) := .op o .pure

/-- An operation with the answer it got. -/
abbrev Event (Ans : Op → Type) : Type := (o : Op) × Ans o

/-- The events of a whole run of the program, and its result. -/
inductive Trace : Prog Op Ans α → List (Event Ans) → α → Prop
  | pure (a : α) : Trace (.pure a) [] a
  | op {o : Op} {k : Ans o → Prog Op Ans α} (b : Ans o) {es : List (Event Ans)} {a : α} :
      Trace (k b) es a → Trace (.op o k) (⟨o, b⟩ :: es) a

theorem Trace.bind {p : Prog Op Ans α} {f : α → Prog Op Ans β} {es fs : List (Event Ans)} {a : α}
    {b : β} (h : Trace p es a) (k : Trace (f a) fs b) : Trace (p.bind f) (es ++ fs) b := by
  induction h with
  | pure => exact k
  | op c _ ih => exact .op c (ih k)

end Prog

/-- An automaton over the operations of a program. -/
structure Protocol (Op : Type) (Ans : Op → Type) (S : Type) where
  allows : S → Op → Prop
  expects : S → (o : Op) → Ans o → Prop
  after : S → (o : Op) → Ans o → S

namespace Protocol

variable {S : Type}

/-- The protocol allows every operation of the list where it stands. -/
def Accepts (P : Protocol Op Ans S) : S → List (Prog.Event Ans) → Prop
  | _, [] => True
  | s, e :: es => P.allows s e.1 ∧ P.Accepts (P.after s e.1 e.2) es

/-- The answers of the list are ones the protocol counts on. -/
def Expected (P : Protocol Op Ans S) : S → List (Prog.Event Ans) → Prop
  | _, [] => True
  | s, e :: es => P.expects s e.1 e.2 ∧ P.Expected (P.after s e.1 e.2) es

/-- A protocol that counts on nothing expects every list. -/
theorem expected_of_forall {P : Protocol Op Ans S} (h : ∀ s o b, P.expects s o b) (s : S)
    (es : List (Prog.Event Ans)) : P.Expected s es := by
  induction es generalizing s with
  | nil => trivial
  | cons e es ih => exact ⟨h s e.1 e.2, ih _⟩

/-- The state the list leads to. -/
def reach (P : Protocol Op Ans S) : S → List (Prog.Event Ans) → S
  | s, [] => s
  | s, e :: es => P.reach (P.after s e.1 e.2) es

end Protocol

namespace Prog

variable {S : Type} {P : Protocol Op Ans S}

/-- From the state on, the program keeps to the protocol for all answers counted on, and it ends
with the property. -/
def Follows (P : Protocol Op Ans S) : S → Prog Op Ans α → (S → α → Prop) → Prop
  | s, .pure a, Q => Q s a
  | s, .op o k, Q => P.allows s o ∧ ∀ b, P.expects s o b → Follows P (P.after s o b) (k b) Q

theorem Follows.mono {s : S} {p : Prog Op Ans α} {Q R : S → α → Prop} (h : Follows P s p Q)
    (hQR : ∀ s a, Q s a → R s a) : Follows P s p R := by
  induction p generalizing s with
  | pure a => exact hQR s a h
  | op o k ih => exact ⟨h.1, fun b hb => ih b (h.2 b hb)⟩

/-- A program keeps to the protocol through a bind when both parts do. -/
theorem follows_bind {s : S} {p : Prog Op Ans α} {f : α → Prog Op Ans β} {Q : S → β → Prop} :
    Follows P s (p.bind f) Q ↔ Follows P s p fun s' a => Follows P s' (f a) Q := by
  induction p generalizing s with
  | pure a => exact Iff.rfl
  | op o k ih =>
    exact and_congr_right fun _ => forall_congr' fun b => imp_congr_right fun _ => ih b

/-- What a program keeps to, each of its traces with the answers counted on keeps to. -/
theorem Follows.trace {s : S} {p : Prog Op Ans α} {Q : S → α → Prop} (h : Follows P s p Q)
    {es : List (Event Ans)} {a : α} (t : Trace p es a) (expected : P.Expected s es) :
    P.Accepts s es ∧ Q (P.reach s es) a := by
  induction t generalizing s with
  | pure => exact ⟨trivial, h⟩
  | op b _ ih =>
    obtain ⟨hacc, hend⟩ := ih (h.2 b expected.1) expected.2
    exact ⟨⟨h.1, hacc⟩, hend⟩

end Prog

end Resumption
