import Mathlib.Logic.Basic
import Mathlib.Tactic.Common

/-!
# Programs over named operations

A program is a tree: it finishes with a value, gives up with a fault, or asks
for one operation and continues with the answer. What the operations do is
not part of the tree. An interpretation supplies it, and the same program can
be run against several. Everything here is about arbitrary operations.
-/

set_option autoImplicit false

namespace Effects

/-- The operations a program may ask for, each with the type of its answer. -/
structure Signature where
  Op : Type
  Ans : Op → Type

inductive Program (S : Signature) (ε α : Type) : Type where
  | ret (a : α)
  | fail (e : ε)
  | call (o : S.Op) (k : S.Ans o → Program S ε α)

namespace Program

variable {S T : Signature} {ε δ α β : Type}

protected def bind : Program S ε α → (α → Program S ε β) → Program S ε β
  | .ret a, f => f a
  | .fail e, _ => .fail e
  | .call o k, f => .call o fun a => (k a).bind f

instance : Monad (Program S ε) where
  pure := .ret
  bind := Program.bind

def ask (o : S.Op) : Program S ε (S.Ans o) := .call o .ret

@[simp] theorem pure_eq (a : α) : (pure a : Program S ε α) = .ret a := rfl

@[simp] theorem ret_bind (a : α) (f : α → Program S ε β) : (Program.ret a >>= f) = f a := rfl

@[simp] theorem fail_bind (e : ε) (f : α → Program S ε β) :
    ((.fail e : Program S ε α) >>= f) = .fail e := rfl

@[simp] theorem call_bind (o : S.Op) (k : S.Ans o → Program S ε α) (f : α → Program S ε β) :
    (Program.call o k >>= f) = .call o fun a => k a >>= f := rfl

theorem bind_ret (p : Program S ε α) : p >>= Program.ret = p := by
  induction p with
  | ret a => rfl
  | fail e => rfl
  | call o k ih => simp [ih]

theorem bind_assoc {γ : Type} (p : Program S ε α) (f : α → Program S ε β)
    (g : β → Program S ε γ) : (p >>= f) >>= g = p >>= fun a => f a >>= g := by
  induction p with
  | ret a => rfl
  | fail e => rfl
  | call o k ih => simp [ih]

instance : LawfulMonad (Program S ε) :=
  LawfulMonad.mk' _ (fun p => bind_ret p) (fun _ _ => rfl) bind_assoc

/-- Turn a fault into an answer. What was done before the fault stays done. -/
def catching : Program S ε α → Program S δ (Except ε α)
  | .ret a => .ret (.ok a)
  | .fail e => .ret (.error e)
  | .call o k => .call o fun a => (k a).catching

/-- Rename every operation, reading the answers back. -/
def relabel (f : S.Op → T.Op) (g : ∀ o, T.Ans (f o) → S.Ans o) :
    Program S ε α → Program T ε α
  | .ret a => .ret a
  | .fail e => .fail e
  | .call o k => .call (f o) fun a => (k (g o a)).relabel f g

abbrev Exec (S : Signature) (σ : Type) := (o : S.Op) → σ → S.Ans o × σ

/-- One operation as it was performed: the state before, the operation, its answer. -/
structure Visit (S : Signature) (σ : Type) where
  before : σ
  op : S.Op
  ans : S.Ans op

section Running
variable {σ : Type} (x : Exec S σ)

def run : Program S ε α → σ → Except ε α × σ
  | .ret a, s => (.ok a, s)
  | .fail e, s => (.error e, s)
  | .call o k, s => run (k (x o s).1) (x o s).2

def result (p : Program S ε α) (s : σ) : Except ε α := (run x p s).1

def final (p : Program S ε α) (s : σ) : σ := (run x p s).2

def trace : Program S ε α → σ → List (Visit S σ)
  | .ret _, _ => []
  | .fail _, _ => []
  | .call o k, s => ⟨s, o, (x o s).1⟩ :: trace (k (x o s).1) (x o s).2

@[simp] theorem run_ret (a : α) (s : σ) : run x (.ret a : Program S ε α) s = (.ok a, s) := rfl

@[simp] theorem run_fail (e : ε) (s : σ) : run x (.fail e : Program S ε α) s = (.error e, s) := rfl

@[simp] theorem run_call (o : S.Op) (k : S.Ans o → Program S ε α) (s : σ) :
    run x (.call o k) s = run x (k (x o s).1) (x o s).2 := rfl

@[simp] theorem run_ask (o : S.Op) (s : σ) :
    run x (ask o : Program S ε _) s = (.ok (x o s).1, (x o s).2) := rfl

theorem run_ite (c : Prop) [Decidable c] (p q : Program S ε α) (s : σ) :
    run x (if c then p else q) s = if c then run x p s else run x q s := by
  split <;> rfl

theorem run_bind (p : Program S ε α) (f : α → Program S ε β) (s : σ) :
    run x (p >>= f) s = match run x p s with
      | (.ok a, t) => run x (f a) t
      | (.error e, t) => (.error e, t) := by
  induction p generalizing s with
  | ret a => rfl
  | fail e => rfl
  | call o k ih => exact ih _ _

theorem run_bind_ok {p : Program S ε α} {f : α → Program S ε β} {s t : σ} {a : α}
    (h : run x p s = (.ok a, t)) : run x (p >>= f) s = run x (f a) t := by
  rw [run_bind, h]

theorem run_bind_error {p : Program S ε α} {f : α → Program S ε β} {s t : σ} {e : ε}
    (h : run x p s = (.error e, t)) : run x (p >>= f) s = (.error e, t) := by
  rw [run_bind, h]

theorem run_bind_eq_ok {p : Program S ε α} {f : α → Program S ε β} {s u : σ} {b : β}
    (h : run x (p >>= f) s = (.ok b, u)) :
    ∃ a t, run x p s = (.ok a, t) ∧ run x (f a) t = (.ok b, u) := by
  rw [run_bind] at h
  rcases hp : run x p s with ⟨r, t⟩
  cases r with
  | error e => rw [hp] at h; simp at h
  | ok a => rw [hp] at h; exact ⟨a, t, rfl, h⟩

theorem run_bind_eq_error {p : Program S ε α} {f : α → Program S ε β} {s u : σ} {e : ε}
    (h : run x (p >>= f) s = (.error e, u)) : run x p s = (.error e, u) ∨
      ∃ a t, run x p s = (.ok a, t) ∧ run x (f a) t = (.error e, u) := by
  rw [run_bind] at h
  rcases hp : run x p s with ⟨r, t⟩
  cases r with
  | error e' =>
    rw [hp] at h
    obtain ⟨rfl, rfl⟩ := by simpa using h
    exact .inl rfl
  | ok a => rw [hp] at h; exact .inr ⟨a, t, rfl, h⟩

theorem run_catching (p : Program S ε α) (s : σ) :
    run x (p.catching : Program S δ _) s = (.ok (run x p s).1, (run x p s).2) := by
  induction p generalizing s with
  | ret a => rfl
  | fail e => rfl
  | call o k ih => exact ih _ _

theorem trace_bind (p : Program S ε α) (f : α → Program S ε β) (s : σ) :
    trace x (p >>= f) s = trace x p s ++ match run x p s with
      | (.ok a, t) => trace x (f a) t
      | (.error _, _) => [] := by
  induction p generalizing s with
  | ret a => simp [trace]
  | fail e => simp [trace]
  | call o k ih =>
    simp only [call_bind, trace, ih, run_call, List.cons_append]

theorem trace_catching (p : Program S ε α) (s : σ) :
    trace x (p.catching : Program S δ _) s = trace x p s := by
  induction p generalizing s with
  | ret a => rfl
  | fail e => rfl
  | call o k ih => simp [catching, trace, ih]

end Running

end Program
end Effects
