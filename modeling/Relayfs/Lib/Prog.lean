/-
  File:      Relayfs/Lib/Prog.lean
  Subject:   PROGRAMS OVER EFFECTS: a sequential program asks its environment for effects and goes
             on with the answers. What an effect does is no part of the program.

  * `Prog`, `perform` -- programs, with sequencing as a monad;
  * `Sem`, `Exec`, `wp` -- a meaning for the effects, runs to completion under it, and the
    condition on a state under which every such run ends well (`wp_iff_exec`);
  * `Only`, `wp_of_only`, `exec_of_only` -- a program whose effects all keep an invariant keeps it,
    and one whose effects are all answered ends;
  * `Within`, `Returns` -- what a program may perform and end with, where only some answers may
    come; `Exec.simulates` -- such a program under two meanings; `Ensures` -- the two together;
  * `Reaches`, `Always` -- a program under way, with the log of its answers: what it asks for
    next, whatever was answered.
-/
import Mathlib.Logic.Basic

namespace Relayfs.Lib

/-- **A program.** It ends with an `α`, or performs an effect `e` and goes on with the answer, an
    `A e`. -/
inductive Prog (E : Type) (A : E → Type) (α : Type) : Type where
  | done (a : α)
  | ask (e : E) (k : A e → Prog E A α)

namespace Prog

variable {E : Type} {A : E → Type} {α β : Type}

/-- Sequencing. -/
def bind : Prog E A α → (α → Prog E A β) → Prog E A β
  | done a, f => f a
  | ask e k, f => ask e fun a => bind (k a) f

instance : Monad (Prog E A) where
  pure := done
  bind := bind

theorem bind_done (p : Prog E A α) : bind p done = p := by
  induction p with
  | done a => rfl
  | ask e k ih => exact congrArg (ask e) (funext ih)

theorem bind_bind {γ : Type} (p : Prog E A α) (f : α → Prog E A β) (g : β → Prog E A γ) :
    bind (bind p f) g = bind p fun a => bind (f a) g := by
  induction p with
  | done a => rfl
  | ask e k ih => exact congrArg (ask e) (funext ih)

instance : LawfulMonad (Prog E A) := LawfulMonad.mk' _ bind_done (fun _ _ => rfl) bind_bind

/-- The program of one effect. -/
def perform (e : E) : Prog E A (A e) := ask e done

/-! ## 1. Runs to completion -/

/-- A meaning for effects over states `σ`: which answers an effect may get, and the state it may
    leave. -/
abbrev Sem (E : Type) (A : E → Type) (σ : Type) := (e : E) → σ → A e → σ → Prop

section Exec

variable {σ : Type} {sem : Sem E A σ}

/-- A run of a program to completion. -/
inductive Exec (sem : Sem E A σ) : Prog E A α → σ → α → σ → Prop where
  | done (a : α) (s : σ) : Exec sem (.done a) s a s
  | ask {e : E} {k : A e → Prog E A α} {s t u : σ} {a : A e} {b : α} (h : sem e s a t)
      (hk : Exec sem (k a) t b u) : Exec sem (.ask e k) s b u

@[simp] theorem exec_pure {a b : α} {s t : σ} :
    Exec sem (pure a : Prog E A α) s b t ↔ b = a ∧ t = s := by
  constructor
  · intro h
    cases h
    exact ⟨rfl, rfl⟩
  · intro h
    obtain ⟨rfl, rfl⟩ := h
    exact .done b t

@[simp] theorem exec_perform {e : E} {a : A e} {s t : σ} :
    Exec sem (perform e) s a t ↔ sem e s a t := by
  constructor
  · intro h
    cases h with
    | ask hs hk =>
      cases hk
      exact hs
  · exact fun h => .ask h (.done a t)

/-- Runs of a sequence. -/
theorem exec_bind {p : Prog E A α} {f : α → Prog E A β} {s u : σ} {b : β} :
    Exec sem (p >>= f) s b u ↔ ∃ a t, Exec sem p s a t ∧ Exec sem (f a) t b u := by
  induction p generalizing s with
  | done a =>
    constructor
    · exact fun h => ⟨a, s, .done a s, h⟩
    · intro h
      obtain ⟨a', t, hp, hf⟩ := h
      cases hp
      exact hf
  | ask e k ih =>
    constructor
    · intro h
      cases h with
      | ask hs hk =>
        obtain ⟨a, t, hp, hf⟩ := (ih _).mp hk
        exact ⟨a, t, .ask hs hp, hf⟩
    · intro h
      obtain ⟨a, t, hp, hf⟩ := h
      cases hp with
      | ask hs hk => exact .ask hs ((ih _).mpr ⟨a, t, hk, hf⟩)

/-- **The weakest precondition**: from a state with `wp sem p Q` every run of `p` to completion
    ends with `Q`. -/
def wp (sem : Sem E A σ) : Prog E A α → (α → σ → Prop) → σ → Prop
  | done a, Q, s => Q a s
  | ask e k, Q, s => ∀ a t, sem e s a t → wp sem (k a) Q t

theorem wp_iff_exec {p : Prog E A α} {Q : α → σ → Prop} {s : σ} :
    wp sem p Q s ↔ ∀ a t, Exec sem p s a t → Q a t := by
  induction p generalizing s with
  | done a =>
    constructor
    · intro h b t hx
      cases hx
      exact h
    · intro h
      exact h a s (.done a s)
  | ask e k ih =>
    constructor
    · intro h b u hx
      cases hx with
      | ask hs hk => exact (ih _).mp (h _ _ hs) b u hk
    · intro h a t hs
      exact (ih a).mpr fun b u hk => h b u (.ask hs hk)

/-- What every effect does to the state, a run of them does. -/
theorem Exec.rel {R : σ → σ → Prop} (hrefl : ∀ s, R s s)
    (htrans : ∀ s t u, R s t → R t u → R s u) (hsem : ∀ e s a t, sem e s a t → R s t)
    {p : Prog E A α} {a : α} {s t : σ} (h : Exec sem p s a t) : R s t := by
  induction h with
  | done a s => exact hrefl s
  | ask hs _ ih => exact htrans _ _ _ (hsem _ _ _ _ hs) ih

@[simp] theorem wp_done (a : α) (Q : α → σ → Prop) (s : σ) :
    wp sem (done a : Prog E A α) Q s ↔ Q a s := Iff.rfl

@[simp] theorem wp_pure (a : α) (Q : α → σ → Prop) (s : σ) :
    wp sem (pure a : Prog E A α) Q s ↔ Q a s := Iff.rfl

@[simp] theorem wp_perform (e : E) (Q : A e → σ → Prop) (s : σ) :
    wp sem (perform e) Q s ↔ ∀ a t, sem e s a t → Q a t := Iff.rfl

end Exec

/-! ## 2. The effects a program may perform -/

/-- Every effect the program may perform, whatever was answered, has `P`. -/
def Only (P : E → Prop) : Prog E A α → Prop
  | done _ => True
  | ask e k => P e ∧ ∀ a, Only P (k a)

section Only

variable {P : E → Prop}

@[simp] theorem only_done (a : α) : Only P (done a : Prog E A α) := trivial

@[simp] theorem only_pure (a : α) : Only P (pure a : Prog E A α) := trivial

@[simp] theorem only_perform {e : E} : Only P (perform e : Prog E A (A e)) ↔ P e :=
  and_iff_left fun _ => trivial

theorem Only.bind {p : Prog E A α} {f : α → Prog E A β} (hp : Only P p)
    (hf : ∀ a, Only P (f a)) : Only P (p >>= f) := by
  induction p with
  | done a => exact hf a
  | ask e k ih => exact ⟨hp.1, fun a => ih a (hp.2 a)⟩

theorem Only.mono {Q : E → Prop} (h : ∀ e, P e → Q e) {p : Prog E A α} (hp : Only P p) :
    Only Q p := by
  induction p with
  | done a => trivial
  | ask e k ih => exact ⟨h e hp.1, fun a => ih a (hp.2 a)⟩

theorem Only.mapM {f : α → Prog E A β} : ∀ {l : List α}, (∀ a ∈ l, Only P (f a)) →
    Only P (l.mapM f)
  | [], _ => by
      rw [List.mapM_nil]
      exact only_pure _
  | a :: l, h => by
      rw [List.mapM_cons]
      rw [List.forall_mem_cons] at h
      exact h.1.bind fun b => (Only.mapM h.2).bind fun bs => only_pure _

/-- **The frame rule**: a program whose effects all keep an invariant keeps it. -/
theorem wp_of_only {σ : Type} {sem : Sem E A σ} {I : σ → Prop}
    (hsem : ∀ e s a t, P e → I s → sem e s a t → I t) {p : Prog E A α} (hp : Only P p) {s : σ}
    (hs : I s) : wp sem p (fun _ t => I t) s := by
  induction p generalizing s with
  | done a => exact hs
  | ask e k ih => exact fun a t h => ih a (hp.2 a) (hsem e s a t hp.1 hs h)

/-- **A program whose effects are all answered** runs to its end. -/
theorem exec_of_only {σ : Type} {sem : Sem E A σ} (hsem : ∀ e s, P e → ∃ a t, sem e s a t)
    {p : Prog E A α} (hp : Only P p) (s : σ) : ∃ a t, Exec sem p s a t := by
  induction p generalizing s with
  | done a => exact ⟨a, s, .done a s⟩
  | ask e k ih =>
    obtain ⟨a, t, he⟩ := hsem e s hp.1
    obtain ⟨b, u, hk⟩ := ih a (hp.2 a) t
    exact ⟨b, u, .ask he hk⟩

end Only

/-! ## 3. Where only some answers may come -/

/-- Every effect the program may perform has `P`, as long as the answers are among `ok`. -/
def Within (ok : (e : E) → A e → Prop) (P : E → Prop) : Prog E A α → Prop
  | done _ => True
  | ask e k => P e ∧ ∀ a, ok e a → Within ok P (k a)

/-- The program may end with `b`, with answers among `ok`. -/
def Returns (ok : (e : E) → A e → Prop) : Prog E A α → α → Prop
  | done a, b => b = a
  | ask e k, b => ∃ a, ok e a ∧ Returns ok (k a) b

section Within

variable {ok : (e : E) → A e → Prop} {P : E → Prop}

@[simp] theorem within_pure (a : α) : Within ok P (pure a : Prog E A α) := trivial

@[simp] theorem within_perform {e : E} : Within ok P (perform e : Prog E A (A e)) ↔ P e :=
  and_iff_left fun _ _ => trivial

@[simp] theorem returns_pure {a b : α} : Returns ok (pure a : Prog E A α) b ↔ b = a := Iff.rfl

@[simp] theorem returns_perform {e : E} {a : A e} :
    Returns ok (perform e : Prog E A (A e)) a ↔ ok e a := by
  constructor
  · intro h
    obtain ⟨a', ha', heq⟩ := h
    cases heq
    exact ha'
  · exact fun h => ⟨a, h, rfl⟩

/-- A sequence: its first part, and its second part after whatever the first may end with. -/
theorem within_bind {p : Prog E A α} {f : α → Prog E A β} :
    Within ok P (p >>= f) ↔ Within ok P p ∧ ∀ a, Returns ok p a → Within ok P (f a) := by
  induction p with
  | done a =>
    constructor
    · intro h
      refine ⟨trivial, fun b hb => ?_⟩
      cases hb
      exact h
    · exact fun h => h.2 a rfl
  | ask e k ih =>
    constructor
    · intro h
      refine ⟨⟨h.1, fun a ha => ((ih a).mp (h.2 a ha)).1⟩, fun b hb => ?_⟩
      obtain ⟨a, ha, hab⟩ := hb
      exact ((ih a).mp (h.2 a ha)).2 b hab
    · intro h
      exact ⟨h.1.1, fun a ha => (ih a).mpr ⟨h.1.2 a ha, fun b hb => h.2 b ⟨a, ha, hb⟩⟩⟩

theorem returns_bind {p : Prog E A α} {f : α → Prog E A β} {b : β} :
    Returns ok (p >>= f) b ↔ ∃ a, Returns ok p a ∧ Returns ok (f a) b := by
  induction p with
  | done a =>
    constructor
    · exact fun h => ⟨a, rfl, h⟩
    · intro h
      obtain ⟨a', ha', hb⟩ := h
      cases ha'
      exact hb
  | ask e k ih =>
    constructor
    · intro h
      obtain ⟨a, ha, hk⟩ := h
      obtain ⟨c, hc, hb⟩ := (ih a).mp hk
      exact ⟨c, ⟨a, ha, hc⟩, hb⟩
    · intro h
      obtain ⟨c, ⟨a, ha, hc⟩, hb⟩ := h
      exact ⟨a, ha, (ih a).mpr ⟨c, hc, hb⟩⟩

/-- The same program for each element of a list, where none of them can get stuck. -/
theorem within_mapM {f : α → Prog E A β} (hf : ∀ a, ∃ b, Returns ok (f a) b) : ∀ {l : List α},
    Within ok P (l.mapM f) ↔ ∀ a ∈ l, Within ok P (f a)
  | [] => by
      rw [List.mapM_nil]
      exact ⟨fun _ a ha => absurd ha List.not_mem_nil, fun _ => within_pure _⟩
  | a :: l => by
      rw [List.mapM_cons, within_bind, List.forall_mem_cons]
      refine and_congr_right fun _ => ⟨fun h => ?_, fun h b _ => ?_⟩
      · obtain ⟨b, hb⟩ := hf a
        exact (within_mapM hf).mp (within_bind.mp (h b hb)).1
      · exact within_bind.mpr ⟨(within_mapM hf).mpr h, fun _ _ => within_pure _⟩

/-- **Simulation**: where each effect that has `P`, from a state with the invariant `I`, does under one
    meaning what it does under another, keeps the invariant, and is answered among `ok`, a run under
    the first is a run under the second. -/
theorem Exec.simulates {σ τ : Type} {sem : Sem E A σ} {sem' : Sem E A τ} {f : σ → τ}
    {I : σ → Prop}
    (hsem : ∀ e s a t, P e → I s → sem e s a t → sem' e (f s) a (f t) ∧ I t ∧ ok e a)
    {p : Prog E A α} {s t : σ} {b : α} (hx : Exec sem p s b t) (hp : Within ok P p) (hs : I s) :
    Exec sem' p (f s) b (f t) ∧ I t ∧ Returns ok p b := by
  induction hx with
  | done a s => exact ⟨.done a (f s), hs, rfl⟩
  | ask he _ ih =>
    obtain ⟨he', ht, hok⟩ := hsem _ _ _ _ hp.1 hs he
    obtain ⟨hk, hI, hret⟩ := ih (hp.2 _ hok) ht
    exact ⟨.ask he' hk, hI, _, hok, hret⟩

/-- A program of effects that have `P` whatever was answered. -/
theorem Only.within {p : Prog E A α} (hp : Only P p) : Within ok P p := by
  induction p with
  | done a => trivial
  | ask e k ih => exact ⟨hp.1, fun a _ => ih a (hp.2 a)⟩

/-- The program performs effects that have `P`, and what it ends with has `Q`, as long as the
    answers are among `ok`. -/
def Ensures (ok : (e : E) → A e → Prop) (P : E → Prop) (Q : α → Prop) (p : Prog E A α) : Prop :=
  Within ok P p ∧ ∀ b, Returns ok p b → Q b

theorem ensures_pure {Q : α → Prop} {a : α} (h : Q a) : Ensures ok P Q (pure a : Prog E A α) :=
  ⟨within_pure a, fun b hb => by cases hb; exact h⟩

theorem ensures_perform {e : E} {Q : A e → Prop} (he : P e) (h : ∀ a, ok e a → Q a) :
    Ensures ok P Q (perform e : Prog E A (A e)) :=
  ⟨within_perform.mpr he, fun a ha => h a (returns_perform.mp ha)⟩

theorem Ensures.bind {R : α → Prop} {Q : β → Prop} {p : Prog E A α} {f : α → Prog E A β}
    (hp : Ensures ok P R p) (hf : ∀ a, R a → Ensures ok P Q (f a)) : Ensures ok P Q (p >>= f) := by
  refine ⟨within_bind.mpr ⟨hp.1, fun a ha => (hf a (hp.2 a ha)).1⟩, fun b hb => ?_⟩
  obtain ⟨a, ha, hb⟩ := returns_bind.mp hb
  exact (hf a (hp.2 a ha)).2 b hb

theorem Ensures.mono {Q R : α → Prop} {p : Prog E A α} (h : Ensures ok P Q p)
    (hQ : ∀ a, Q a → R a) : Ensures ok P R p :=
  ⟨h.1, fun b hb => hQ b (h.2 b hb)⟩

theorem Ensures.mapM {Q : β → Prop} {f : α → Prog E A β} : ∀ {l : List α},
    (∀ a ∈ l, Ensures ok P Q (f a)) → Ensures ok P (fun bs => ∀ b ∈ bs, Q b) (l.mapM f)
  | [], _ => by
      rw [List.mapM_nil]
      exact ensures_pure (List.forall_mem_nil _)
  | a :: l, h => by
      rw [List.mapM_cons]
      rw [List.forall_mem_cons] at h
      refine h.1.bind fun b hb => (Ensures.mapM h.2).bind fun bs hbs => ensures_pure ?_
      exact List.forall_mem_cons.mpr ⟨hb, hbs⟩

theorem Only.ensures {p : Prog E A α} (hp : Only P p) : Ensures ok P (fun _ => True) p :=
  ⟨hp.within, fun _ _ => trivial⟩

end Within

/-! ## 4. Programs under way -/

/-- An effect with its answer. -/
abbrev Answered (E : Type) (A : E → Type) := Sigma A

/-- What is left of a program after the answers of a log, newest first. -/
inductive Reaches (p : Prog E A α) : List (Answered E A) → Prog E A α → Prop where
  | start : Reaches p [] p
  | step {log : List (Answered E A)} {e : E} {k : A e → Prog E A α}
      (h : Reaches p log (.ask e k)) (a : A e) : Reaches p (⟨e, a⟩ :: log) (k a)

/-- Whatever a program is answered, it asks for the effect `e` after the log `log` only if
    `P log e`. -/
def Always (P : List (Answered E A) → E → Prop) : Prog E A α → List (Answered E A) → Prop
  | done _, _ => True
  | ask e k, log => P log e ∧ ∀ a, Always P (k a) (⟨e, a⟩ :: log)

section Always

variable {P : List (Answered E A) → E → Prop} {log : List (Answered E A)}

theorem always_pure (a : α) : Always P (pure a : Prog E A α) log := trivial

theorem Always.perform_bind {e : E} {f : A e → Prog E A α} (he : P log e)
    (hf : ∀ a, Always P (f a) (⟨e, a⟩ :: log)) : Always P (perform e >>= f) log := ⟨he, hf⟩

/-- A sequence, whose second part asks for what it may whatever was answered before. -/
theorem Always.bind {p : Prog E A α} {f : α → Prog E A β} (hp : Always P p log)
    (hf : ∀ a new, Always P (f a) (new ++ log)) : Always P (p >>= f) log := by
  induction p generalizing log with
  | done a => exact hf a []
  | ask e k ih =>
    refine ⟨hp.1, fun a => ih a (hp.2 a) fun b new => ?_⟩
    have hb := hf b (new ++ [⟨e, a⟩])
    rwa [List.append_assoc] at hb

/-- A program that asks for nothing that needs a log. -/
theorem Only.always {Q : E → Prop} (h : ∀ log e, Q e → P log e) {p : Prog E A α}
    (hp : Only Q p) : Always P p log := by
  induction p generalizing log with
  | done a => trivial
  | ask e k ih => exact ⟨h log e hp.1, fun a => ih a (hp.2 a)⟩

end Always

/-- What is left of such a program is such a program. -/
theorem Reaches.always {P : List (Answered E A) → E → Prop} {p q : Prog E A α}
    {log : List (Answered E A)} (h : Reaches p log q) (hp : Always P p []) : Always P q log := by
  induction h with
  | start => exact hp
  | step _ a ih => exact ih.2 a

end Prog

end Relayfs.Lib
