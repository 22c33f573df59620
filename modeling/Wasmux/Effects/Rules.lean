import Wasmux.Effects.Program

/-!
# Rules for programs

What one operation does is lifted to what a whole program does: invariants,
conditions met along a run, two runs compared, and a monitor that reads the
operations as they are performed. Each induction over the tree is here, once.
-/

set_option autoImplicit false

namespace Effects
namespace Program

variable {S T : Signature} {ε δ α β σ : Type}

section Invariants
variable (x : Exec S σ)

/-- Every operation of the run meets `C` in the state it is asked in. -/
def Along (C : S.Op → σ → Prop) : Program S ε α → σ → Prop
  | .ret _, _ => True
  | .fail _, _ => True
  | .call o k, s => C o s ∧ Along C (k (x o s).1) (x o s).2

/-- The states a run passes through, the first and the last among them. -/
inductive Reaches : Program S ε α → σ → σ → Prop
  | here (p : Program S ε α) (s : σ) : Reaches p s s
  | later (o : S.Op) (k : S.Ans o → Program S ε α) (s t : σ) :
      Reaches (k (x o s).1) (x o s).2 t → Reaches (.call o k) s t

/-- What is left of a program where a run of it has come to. -/
inductive Comes : Program S ε α → σ → Program S ε α → σ → Prop
  | here (p : Program S ε α) (s : σ) : Comes p s p s
  | later (o : S.Op) (k : S.Ans o → Program S ε α) (s : σ) (q : Program S ε α) (t : σ) :
      Comes (k (x o s).1) (x o s).2 q t → Comes (.call o k) s q t

theorem Comes.next {o : S.Op} {k : S.Ans o → Program S ε α} {p : Program S ε α} {s t : σ}
    (h : Comes x p s (.call o k) t) : Comes x p s (k (x o t).1) (x o t).2 := by
  generalize hq : Program.call o k = q at h
  induction h with
  | here p t =>
    subst hq
    exact .later _ _ _ _ _ (.here _ _)
  | later o' k' s q t _ ih => exact .later _ _ _ _ _ (ih hq)

theorem Comes.run {p q : Program S ε α} {s t : σ} (h : Comes x p s q t) : run x q t = run x p s := by
  induction h with
  | here p s => rfl
  | later o k s q t _ ih => exact ih

theorem Comes.trans {p q r : Program S ε α} {s t u : σ} (h : Comes x p s q t) (h' : Comes x q t r u) :
    Comes x p s r u := by
  induction h with
  | here p s => exact h'
  | later o k s q t _ ih => exact .later _ _ _ _ _ (ih h')

theorem comes_bind {p : Program S ε α} {f : α → Program S ε β} {s t : σ} {a : α}
    (h : run x p s = (.ok a, t)) :
    Comes x (p >>= f) s (f a) t := by
  induction p generalizing s with
  | ret b =>
    obtain ⟨rfl, rfl⟩ : b = a ∧ s = t := by simpa using h
    exact .here _ _
  | fail e => simp at h
  | call o k ih => exact .later _ _ _ _ _ (ih _ h)

theorem Comes.after {p : Program S ε β} {q : Program S ε α} {f : α → Program S ε β} {s t u : σ} {a : α}
    (h : Comes x p s (q >>= f) t) (hq : Program.run x q t = (.ok a, u)) : Comes x p s (f a) u :=
  h.trans x (comes_bind x hq)

theorem Comes.trace {p q : Program S ε α} {s t : σ} (h : Comes x p s q t) :
    ∃ before, Program.trace x p s = before ++ Program.trace x q t := by
  induction h with
  | here p s => exact ⟨[], rfl⟩
  | later o k s q t _ ih =>
    obtain ⟨before, heq⟩ := ih
    exact ⟨_ :: before, congrArg (List.cons _) heq⟩

theorem along_of_forall {C : S.Op → σ → Prop} (h : ∀ o s, C o s) (p : Program S ε α) (s : σ) :
    Along x C p s := by
  induction p generalizing s with
  | ret a => trivial
  | fail e => trivial
  | call o k ih => exact ⟨h o s, ih _ _⟩

theorem along_bind (C : S.Op → σ → Prop) (p : Program S ε α) (f : α → Program S ε β) (s : σ) :
    Along x C (p >>= f) s ↔ Along x C p s ∧
      ∀ a t, run x p s = (.ok a, t) → Along x C (f a) t := by
  induction p generalizing s with
  | ret a =>
    constructor
    · intro h
      refine ⟨trivial, fun b t hb => ?_⟩
      simp only [run_ret, Prod.mk.injEq, Except.ok.injEq] at hb
      obtain ⟨rfl, rfl⟩ := hb
      exact h
    · exact fun h => h.2 a s rfl
  | fail e => simp [Along]
  | call o k ih =>
    simp only [call_bind, Along, ih, run_call, and_assoc]

theorem along_catching (C : S.Op → σ → Prop) (p : Program S ε α) (s : σ) :
    Along x C (p.catching : Program S δ _) s ↔ Along x C p s := by
  induction p generalizing s with
  | ret a => exact Iff.rfl
  | fail e => exact Iff.rfl
  | call o k ih => simp [catching, Along, ih]

theorem Along.mono {C D : S.Op → σ → Prop} (h : ∀ o s, C o s → D o s) {p : Program S ε α} {s : σ}
    (hp : Along x C p s) : Along x D p s := by
  induction p generalizing s with
  | ret a => trivial
  | fail e => trivial
  | call o k ih => exact ⟨h o s hp.1, ih _ hp.2⟩

theorem Along.and {C D : S.Op → σ → Prop} {p : Program S ε α} {s : σ} (hc : Along x C p s)
    (hd : Along x D p s) : Along x (fun o s => C o s ∧ D o s) p s := by
  induction p generalizing s with
  | ret a => trivial
  | fail e => trivial
  | call o k ih => exact ⟨⟨hc.1, hd.1⟩, ih _ hc.2 hd.2⟩

theorem along_iff_trace (C : S.Op → σ → Prop) (p : Program S ε α) (s : σ) :
    Along x C p s ↔ ∀ v ∈ trace x p s, C v.op v.before := by
  induction p generalizing s with
  | ret a => simp [Along, trace]
  | fail e => simp [Along, trace]
  | call o k ih => simp [Along, trace, ih]

theorem along_of_checks {C : S.Op → σ → Prop} {check : S.Op → σ → Bool}
    (hcheck : ∀ o s, check o s = true → C o s) {p : Program S ε α} {s : σ}
    (h : ((trace x p s).all fun v => check v.op v.before) = true) : Along x C p s :=
  (along_iff_trace x C p s).mpr fun v hv => hcheck v.op v.before (List.all_eq_true.mp h v hv)

theorem reaches_keeps {C : S.Op → σ → Prop} {P : σ → Prop}
    (h : ∀ o s, P s → C o s → P (x o s).2) {p : Program S ε α} {s t : σ}
    (hs : P s) (hc : Along x C p s) (ht : Reaches x p s t) : P t := by
  induction ht with
  | here p s => exact hs
  | later o k s t _ ih => exact ih (h o s hs hc.1) hc.2

theorem reaches_visit {p : Program S ε α} {s : σ} {v : Visit S σ} (h : v ∈ trace x p s) :
    Reaches x p s v.before := by
  induction p generalizing s with
  | ret a => simp [trace] at h
  | fail e => simp [trace] at h
  | call o k ih =>
    rcases List.mem_cons.mp h with rfl | h
    · exact .here _ _
    · exact .later _ _ _ _ (ih _ h)

theorem reaches_final (p : Program S ε α) (s : σ) : Reaches x p s (final x p s) := by
  induction p generalizing s with
  | ret a => exact .here _ _
  | fail e => exact .here _ _
  | call o k ih => exact .later _ _ _ _ (ih _ _)

theorem reaches_along {P : σ → Prop} {p : Program S ε α} {s t : σ} (hp : Along x (fun _ s => P s) p s)
    (hfinal : P (final x p s)) (ht : Reaches x p s t) : P t := by
  induction ht with
  | here p s =>
    cases p with
    | ret a => exact hfinal
    | fail e => exact hfinal
    | call o k => exact hp.1
  | later o k s t _ ih => exact ih hp.2 hfinal

theorem final_keeps_along {C : S.Op → σ → Prop} {P : σ → Prop}
    (h : ∀ o s, P s → C o s → P (x o s).2) {p : Program S ε α} {s : σ}
    (hs : P s) (hc : Along x C p s) : P (final x p s) :=
  reaches_keeps x h hs hc (reaches_final x p s)

theorem final_keeps {P : σ → Prop} (h : ∀ o s, P s → P (x o s).2) (p : Program S ε α) {s : σ}
    (hs : P s) : P (final x p s) :=
  final_keeps_along x (C := fun _ _ => True) (fun o s hs _ => h o s hs) hs
    (along_of_forall x (fun _ _ => trivial) p s)

end Invariants

section Trees

def Only (A : S.Op → Prop) : Program S ε α → Prop
  | .ret _ => True
  | .fail _ => True
  | .call o k => A o ∧ ∀ a, Only A (k a)

variable {A : S.Op → Prop}

theorem only_of_forall (h : ∀ o, A o) (p : Program S ε α) : p.Only A := by
  induction p with
  | ret a => trivial
  | fail e => trivial
  | call o k ih => exact ⟨h o, ih⟩

theorem only_bind {p : Program S ε α} {f : α → Program S ε β} (hp : p.Only A)
    (hf : ∀ a, (f a).Only A) : (p >>= f).Only A := by
  induction p with
  | ret a => exact hf a
  | fail e => trivial
  | call o k ih => exact ⟨hp.1, fun a => ih a (hp.2 a)⟩

theorem only_ite {c : Prop} [Decidable c] {p q : Program S ε α} (hp : p.Only A) (hq : q.Only A) :
    (if c then p else q).Only A := by
  split
  · exact hp
  · exact hq

theorem only_catching {p : Program S ε α} (hp : p.Only A) :
    (p.catching : Program S δ _).Only A := by
  induction p with
  | ret a => trivial
  | fail e => trivial
  | call o k ih => exact ⟨hp.1, fun a => ih a (hp.2 a)⟩

theorem only_relabel {f : S.Op → T.Op} {g : ∀ o, T.Ans (f o) → S.Ans o} {B : T.Op → Prop}
    (h : ∀ o, A o → B (f o)) {p : Program S ε α} (hp : p.Only A) : (p.relabel f g).Only B := by
  induction p with
  | ret a => trivial
  | fail e => trivial
  | call o k ih => exact ⟨h o hp.1, fun a => ih _ (hp.2 _)⟩

theorem Only.mono {B : S.Op → Prop} (h : ∀ o, A o → B o) {p : Program S ε α} (hp : p.Only A) :
    p.Only B := by
  induction p with
  | ret a => trivial
  | fail e => trivial
  | call o k ih => exact ⟨h o hp.1, fun a => ih _ (hp.2 a)⟩

theorem Only.and {B : S.Op → Prop} {p : Program S ε α} (hp : p.Only A) (hq : p.Only B) : p.Only fun o =>
    A o ∧ B o := by
  induction p with
  | ret a => trivial
  | fail e => trivial
  | call o k ih => exact ⟨⟨hp.1, hq.1⟩, fun a => ih _ (hp.2 a) (hq.2 a)⟩

theorem Only.along {p : Program S ε α} (hp : p.Only A) (x : Exec S σ) (s : σ) :
    p.Along x (fun o _ => A o) s := by
  induction p generalizing s with
  | ret a => trivial
  | fail e => trivial
  | call o k ih => exact ⟨hp.1, ih _ (hp.2 _) _⟩

theorem Only.final_keeps {p : Program S ε α} (hp : p.Only A) (x : Exec S σ) {P : σ → Prop}
    (h : ∀ o s, A o → P s → P (x o s).2) {s : σ} (hs : P s) : P (final x p s) :=
  final_keeps_along x (C := fun o _ => A o) (fun o s hP hA => h o s hA hP) hs (hp.along x s)

def Total : Program S ε α → Prop
  | .ret _ => True
  | .fail _ => False
  | .call _ k => ∀ a, Total (k a)

theorem total_bind {p : Program S ε α} {f : α → Program S ε β} (hp : p.Total) (hf : ∀ a, (f a).Total) :
    (p >>= f).Total := by
  induction p with
  | ret a => exact hf a
  | fail e => cases hp
  | call o k ih => exact fun a => ih a (hp a)

theorem total_catching (p : Program S ε α) : (p.catching : Program S δ _).Total := by
  induction p with
  | ret a => trivial
  | fail e => trivial
  | call o k ih => exact ih

theorem total_relabel {f : S.Op → T.Op} {g : ∀ o, T.Ans (f o) → S.Ans o} {p : Program S ε α} (hp : p.Total) :
    (p.relabel f g).Total := by
  induction p with
  | ret a => trivial
  | fail e => cases hp
  | call o k ih => exact fun a => ih _ (hp _)

theorem Total.run_ok {p : Program S ε α} (hp : p.Total) (x : Exec S σ) (s : σ) :
    ∃ a, (run x p s).1 = .ok a := by
  induction p generalizing s with
  | ret a => exact ⟨a, rfl⟩
  | fail e => cases hp
  | call o k ih => exact ih _ (hp _) _

def Throws (B : ε → Prop) : Program S ε α → Prop
  | .ret _ => True
  | .fail e => B e
  | .call _ k => ∀ a, Throws B (k a)

theorem throws_bind {B : ε → Prop} {p : Program S ε α} {f : α → Program S ε β} (hp : p.Throws B)
    (hf : ∀ a, (f a).Throws B) : (p >>= f).Throws B := by
  induction p with
  | ret a => exact hf a
  | fail e => exact hp
  | call o k ih => exact fun a => ih a (hp a)

theorem Throws.run_error {B : ε → Prop} {p : Program S ε α} (hp : p.Throws B) (x : Exec S σ) {s : σ} {e : ε}
    (h : (run x p s).1 = .error e) : B e := by
  induction p generalizing s with
  | ret a => cases h
  | fail f => exact Except.error.inj h ▸ hp
  | call o k ih => exact ih _ (hp _) h

def Fails (x : Exec S σ) (B : ε → Prop) (p : Program S ε α) : Prop := ∀ s e, (run x p s).1 = .error e → B e

theorem Throws.fails {x : Exec S σ} {B : ε → Prop} {p : Program S ε α} (hp : p.Throws B) : p.Fails x B :=
    fun _ _ h => hp.run_error x h

theorem fails_bind {x : Exec S σ} {B : ε → Prop} {p : Program S ε α} {f : α → Program S ε β}
    (hp : p.Fails x B) (hf : ∀ a, (f a).Fails x B) : (p >>= f).Fails x B := by
  intro s e h
  rw [run_bind] at h
  cases hrun : run x p s with
  | mk r t =>
    rw [hrun] at h
    cases r with
    | error e' =>
      obtain rfl : e' = e := Except.error.inj h
      exact hp s e' (by rw [hrun])
    | ok a => exact hf a t e h

end Trees

section TwoRuns
variable (x : Exec S σ)

theorem run_related {E : σ → σ → Prop}
    (h : ∀ o s t, E s t → (x o s).1 = (x o t).1 ∧ E (x o s).2 (x o t).2)
    (p : Program S ε α) {s t : σ} (hst : E s t) :
    (run x p s).1 = (run x p t).1 ∧ E (run x p s).2 (run x p t).2 := by
  induction p generalizing s t with
  | ret a => exact ⟨rfl, hst⟩
  | fail e => exact ⟨rfl, hst⟩
  | call o k ih =>
    obtain ⟨ha, hE⟩ := h o s t hst
    simp only [run_call]
    rw [← ha]
    exact ih _ hE

end TwoRuns

/-- Something that watches a run: what it expects of the answers, and how each
operation moves it. -/
structure Monitor (S : Signature) (τ : Type) where
  allows : (o : S.Op) → S.Ans o → Prop
  next : τ → (o : S.Op) → S.Ans o → τ

section Monitors
variable {τ : Type}

/-- Whatever allowed answers the operations give, the monitor's last state and
the outcome satisfy `Q`. This is a property of the tree alone. -/
def Sat (M : Monitor S τ) : Program S ε α → τ → (τ → Except ε α → Prop) → Prop
  | .ret a, t, Q => Q t (.ok a)
  | .fail e, t, Q => Q t (.error e)
  | .call o k, t, Q => ∀ a, M.allows o a → (k a).Sat M (M.next t o a) Q

variable {M : Monitor S τ}

@[simp] theorem sat_ret (a : α) (t : τ) (Q : τ → Except ε α → Prop) :
    (Program.ret a : Program S ε α).Sat M t Q ↔ Q t (.ok a) := Iff.rfl

@[simp] theorem sat_fail (e : ε) (t : τ) (Q : τ → Except ε α → Prop) :
    (Program.fail e : Program S ε α).Sat M t Q ↔ Q t (.error e) := Iff.rfl

@[simp] theorem sat_call (o : S.Op) (k : S.Ans o → Program S ε α) (t : τ)
    (Q : τ → Except ε α → Prop) :
    (Program.call o k).Sat M t Q ↔ ∀ a, M.allows o a → (k a).Sat M (M.next t o a) Q := Iff.rfl

theorem sat_bind (p : Program S ε α) (f : α → Program S ε β) (t : τ)
    (Q : τ → Except ε β → Prop) :
    (p >>= f).Sat M t Q ↔ p.Sat M t fun u r => match r with
      | .ok a => (f a).Sat M u Q
      | .error e => Q u (.error e) := by
  induction p generalizing t with
  | ret a => exact Iff.rfl
  | fail e => exact Iff.rfl
  | call o k ih => simp [ih]

theorem sat_catching (p : Program S ε α) (t : τ) (Q : τ → Except δ (Except ε α) → Prop) :
    (p.catching : Program S δ _).Sat M t Q ↔ p.Sat M t fun u r => Q u (.ok r) := by
  induction p generalizing t with
  | ret a => exact Iff.rfl
  | fail e => exact Iff.rfl
  | call o k ih => simp [catching, ih]

theorem Sat.mono {p : Program S ε α} {t : τ} {Q R : τ → Except ε α → Prop}
    (h : ∀ u r, Q u r → R u r) (hp : p.Sat M t Q) : p.Sat M t R := by
  induction p generalizing t with
  | ret a => exact h _ _ hp
  | fail e => exact h _ _ hp
  | call o k ih => exact fun a ha => ih a (hp a ha)

theorem Sat.follow {υ : Type} {N : Monitor S υ} {R : τ → υ → Prop}
    (hR : ∀ t u o a, R t u → N.allows o a → M.allows o a ∧ R (M.next t o a) (N.next u o a))
    {p : Program S ε α} {t : τ} {u : υ} {Q : τ → Except ε α → Prop} {P : υ → Except ε α → Prop}
    (hQ : ∀ t u r, R t u → Q t r → P u r) (htu : R t u) (hp : p.Sat M t Q) : p.Sat N u P := by
  induction p generalizing t u with
  | ret a => exact hQ _ _ _ htu hp
  | fail e => exact hQ _ _ _ htu hp
  | call o k ih =>
    intro a ha
    obtain ⟨hm, hnext⟩ := hR t u o a htu ha
    exact ih a hnext (hp a hm)

def Monitor.after (M : Monitor S τ) (t : τ) : List (Visit S σ) → τ
  | [] => t
  | v :: vs => M.after (M.next t v.op v.ans) vs

theorem after_append (M : Monitor S τ) (t : τ) (vs ws : List (Visit S σ)) :
    M.after t (vs ++ ws) = M.after (M.after t vs) ws := by
  induction vs generalizing t with
  | nil => rfl
  | cons v vs ih => exact ih _

theorem sat_run (x : Exec S σ) {P : σ → Prop}
    (hx : ∀ o s, P s → M.allows o (x o s).1 ∧ P (x o s).2)
    {p : Program S ε α} {t : τ} {Q : τ → Except ε α → Prop} (hp : p.Sat M t Q)
    {s : σ} (hs : P s) : Q (M.after t (trace x p s)) (run x p s).1 := by
  induction p generalizing s t with
  | ret a => exact hp
  | fail e => exact hp
  | call o k ih => exact ih _ (hp _ (hx o s hs).1) (hx o s hs).2

end Monitors

end Program
end Effects
