import IdeMode.Fault
set_option autoImplicit false

/-!
# Cooperative programs

An operation that may have to wait is a program: a tree of reads and writes of a shared state and of
waits for something to happen, ending in a result or a fault. Between two waits a program runs
without interruption, so other programs see the state only at its waits.

A program is finite in depth. A loop that goes on for ever is a program for one round, started again
by the scheduler.
-/

namespace IdeMode

/-- Why a wait is over. -/
inductive Signal where
  /-- what was waited for happened -/
  | woken
  /-- the time allowed for it ran out -/
  | expired
  deriving DecidableEq, Repr

/-- A program over the state `σ` that waits for things of type `ω` and returns an `α`. -/
inductive Prog (σ ω α : Type) : Type where
  /-- the end -/
  | done (r : Result α)
  /-- looks at the state -/
  | look (next : σ → Prog σ ω α)
  /-- replaces the state -/
  | store (s : σ) (next : Prog σ ω α)
  /-- waits, at most until a deadline if there is one -/
  | wait (on : ω) (deadline : Option Int) (next : Signal → Prog σ ω α)

namespace Prog

variable {σ ω α β : Type}

/-- Goes on with the result of a program; a fault ends both. -/
def bind (p : Prog σ ω α) (f : α → Prog σ ω β) : Prog σ ω β :=
  match p with
  | .done (.ok a) => f a
  | .done (.error e) => .done (.error e)
  | .look next => .look fun s => bind (next s) f
  | .store s next => .store s (bind next f)
  | .wait on deadline next => .wait on deadline fun signal => bind (next signal) f

/-- Goes on with a handler where a program ends in a fault. -/
def handle (p : Prog σ ω α) (h : Fault → Prog σ ω α) : Prog σ ω α :=
  match p with
  | .done (.ok a) => .done (.ok a)
  | .done (.error e) => h e
  | .look next => .look fun s => handle (next s) h
  | .store s next => .store s (handle next h)
  | .wait on deadline next => .wait on deadline fun signal => handle (next signal) h

/-- The outcome of a program as a value, so that it never ends in a fault. -/
def attempt (p : Prog σ ω α) : Prog σ ω (Result α) :=
  match p with
  | .done r => .done (.ok r)
  | .look next => .look fun s => attempt (next s)
  | .store s next => .store s (attempt next)
  | .wait on deadline next => .wait on deadline fun signal => attempt (next signal)

instance : Monad (Prog σ ω) where
  pure a := .done (.ok a)
  bind := bind

instance : MonadStateOf σ (Prog σ ω) where
  get := .look fun s => .done (.ok s)
  set s := .store s (.done (.ok ()))
  modifyGet f := .look fun s => .store (f s).2 (.done (.ok (f s).1))

instance : MonadExceptOf Fault (Prog σ ω) where
  throw e := .done (.error e)
  tryCatch := handle

/-- A result that is already there. -/
def ofResult (r : Result α) : Prog σ ω α := .done r

/-- Waits for something. -/
def await (on : ω) (deadline : Option Int) : Prog σ ω Signal :=
  .wait on deadline fun signal => .done (.ok signal)

/-- Where a program stands when it cannot go on by itself. -/
inductive Halt (σ ω α : Type) : Type where
  | finished (r : Result α)
  | waiting (on : ω) (deadline : Option Int) (next : Signal → Prog σ ω α)

/-- Runs a program up to its end or its next wait. -/
def run (p : Prog σ ω α) (s : σ) : Halt σ ω α × σ :=
  match p with
  | .done r => (.finished r, s)
  | .look next => run (next s) s
  | .store s next => run next s
  | .wait on deadline next => (.waiting on deadline next, s)

/-! ## Laws -/

@[simp] theorem pure_bind' (a : α) (f : α → Prog σ ω β) : bind (.done (.ok a)) f = f a := rfl

@[simp] theorem fault_bind (e : Fault) (f : α → Prog σ ω β) :
    bind (.done (.error e)) f = .done (.error e) := rfl

theorem bind_assoc' {γ : Type} (p : Prog σ ω α) (f : α → Prog σ ω β) (g : β → Prog σ ω γ) :
    bind (bind p f) g = bind p fun a => bind (f a) g := by
  induction p with
  | done r => cases r <;> rfl
  | look next ih => simp only [bind, ih]
  | store s next ih => simp only [bind, ih]
  | wait on deadline next ih => simp only [bind, ih]

theorem bind_pure' (p : Prog σ ω α) : bind p (fun a => .done (.ok a)) = p := by
  induction p with
  | done r => cases r <;> rfl
  | look next ih => simp only [bind, ih]
  | store s next ih => simp only [bind, ih]
  | wait on deadline next ih => simp only [bind, ih]

instance : LawfulMonad (Prog σ ω) := LawfulMonad.mk' _
  (fun p => bind_pure' p)
  (fun _ _ => rfl)
  (fun p f g => bind_assoc' p f g)

end Prog

end IdeMode
