import Mathlib.Tactic

/-! Tasks that make requests of a shared environment. A task runs on a state of its own
and may end in an exception. -/
namespace A11

/-- A program is finished, or waits for the reply to a request. -/
inductive Prog (Req : Type) (Resp : Req → Type) (α : Type)
  | ret (a : α)
  | ask (r : Req) (k : Resp r → Prog Req Resp α)

namespace Prog

variable {Req : Type} {Resp : Req → Type} {α β σ : Type}

def bind : Prog Req Resp α → (α → Prog Req Resp β) → Prog Req Resp β
  | .ret a, f => f a
  | .ask r k, f => .ask r fun x => (k x).bind f

/-- The whole program with nobody else around. -/
def run (handle : (r : Req) → σ → Resp r × σ) : Prog Req Resp α → σ → α × σ
  | .ret a, w => (a,w)
  | .ask r k, w => (k (handle r w).1).run handle (handle r w).2

theorem run_bind (handle : (r : Req) → σ → Resp r × σ) (p : Prog Req Resp α)
    (f : α → Prog Req Resp β) (w : σ) :
    (p.bind f).run handle w = (f (p.run handle w).1).run handle (p.run handle w).2 := by
  induction p generalizing w with
  | ret a => rfl
  | ask r k ih => exact ih _ _

end Prog

/-- A task with a state of its own and exceptions. -/
def Task (Req : Type) (Resp : Req → Type) (S ε α : Type) : Type :=
  S → Prog Req Resp (Except ε α × S)

namespace Task

variable {Req : Type} {Resp : Req → Type} {S ε α β σ : Type}

instance : Monad (Task Req Resp S ε) where
  pure a := fun s => .ret (.ok a,s)
  bind m f := fun s => (m s).bind fun
    | (.ok a,s') => f a s'
    | (.error e,s') => .ret (.error e,s')

/-- The state of the task. -/
def own : Task Req Resp S ε S := fun s => .ret (.ok s,s)

def update (f : S → S) : Task Req Resp S ε Unit := fun s => .ret (.ok (),f s)

def lift (x : Except ε α) : Task Req Resp S ε α := fun s => .ret (x,s)

/-- A computation on the state that may leave changes behind when it fails. -/
def change (f : S → Except ε α × S) : Task Req Resp S ε α := fun s => .ret (f s)

def request (r : Req) : Task Req Resp S ε (Resp r) := fun s => .ask r fun x => .ret (.ok x,s)

/-! ### Alone -/

section Run

variable (handle : (r : Req) → σ → Resp r × σ)

def run (m : Task Req Resp S ε α) (s : S) (w : σ) : (Except ε α × S) × σ := (m s).run handle w

@[simp] theorem run_pure (a : α) (s : S) (w : σ) :
    run handle (pure a : Task Req Resp S ε α) s w = ((.ok a,s),w) := rfl

@[simp] theorem run_own (s : S) (w : σ) :
    run handle (own : Task Req Resp S ε S) s w = ((.ok s,s),w) := rfl

@[simp] theorem run_update (f : S → S) (s : S) (w : σ) :
    run handle (update f : Task Req Resp S ε Unit) s w = ((.ok (),f s),w) := rfl

@[simp] theorem run_lift (x : Except ε α) (s : S) (w : σ) :
    run handle (lift x : Task Req Resp S ε α) s w = ((x,s),w) := rfl

@[simp] theorem run_change (f : S → Except ε α × S) (s : S) (w : σ) :
    run handle (change f : Task Req Resp S ε α) s w = (f s,w) := rfl

@[simp] theorem run_request (r : Req) (s : S) (w : σ) :
    run handle (request r : Task Req Resp S ε (Resp r)) s w =
      ((.ok (handle r w).1,s),(handle r w).2) := rfl

theorem run_bind (m : Task Req Resp S ε α) (f : α → Task Req Resp S ε β) (s : S) (w : σ) :
    run handle (m >>= f) s w = match run handle m s w with
      | ((.ok a,s'),w') => run handle (f a) s' w'
      | ((.error e,s'),w') => ((.error e,s'),w') := by
  change ((m s).bind _).run handle w = _
  rw [Prog.run_bind]
  change (match (run handle m s w).1 with
    | (.ok a,s') => f a s'
    | (.error e,s') => Prog.ret (.error e,s')).run handle (run handle m s w).2 = _
  rcases run handle m s w with ⟨⟨_ | a,s'⟩,w'⟩ <;> rfl

end Run

end Task
end A11
