import Mathlib.Init

namespace SceLibcPosix.Programs

/-- A program that asks its surroundings and goes on with their answers. -/
inductive Program (Q : Type) (A : Q → Type) (α : Type) : Type
  | ret (a : α)
  | ask (q : Q) (next : A q → Program Q A α)

/-- What may be asked in a state, which answers there are, and where they lead. -/
structure Rules (Q : Type) (A : Q → Type) (S : Type) where
  may : S → Q → Prop
  can : S → (q : Q) → A q → Prop
  next : S → (q : Q) → A q → S

variable {Q : Type} {A : Q → Type} {S T α β : Type}

namespace Program

def bind : Program Q A α → (α → Program Q A β) → Program Q A β
  | ret a, f => f a
  | ask q next, f => ask q fun x ↦ (next x).bind f

instance : Monad (Program Q A) where
  pure := ret
  bind := bind

def query (q : Q) : Program Q A (A q) := ask q ret

/-- One question for each element of a list, whatever the answers are. -/
def forEach {X : Type} (q : X → Q) : List X → Program Q A Unit
  | [] => ret ()
  | x :: xs => ask (q x) fun _ ↦ forEach q xs

/-- The questions and answers of a way through a program, and what it ends with. -/
inductive Path : Program Q A α → List ((q : Q) × A q) → α → Prop
  | ret (a : α) : Path (ret a) [] a
  | ask (q : Q) (next : A q → Program Q A α) (x : A q) {tr : List ((q : Q) × A q)} {a : α}
    (h : Path (next x) tr a) : Path (ask q next) (⟨q, x⟩ :: tr) a

/-- The run of a program whose questions are answered by `h`, where it comes to an end. -/
def run (h : (q : Q) → S → Option (A q × S)) : Program Q A α → S → Option (α × S)
  | ret a, s => some (a, s)
  | ask q next, s => (h q s).bind fun r ↦ (next r.1).run h r.2

/-- From the state `s` on, the program keeps to the rules and ends as `post` says. -/
def Obeys (R : Rules Q A S) : Program Q A α → S → (α → S → Prop) → Prop
  | ret a, s, post => post a s
  | ask q next, s, post => R.may s q ∧ ∀ x, R.can s q x → (next x).Obeys R (R.next s q x) post

end Program

namespace Rules

def after (R : Rules Q A S) (s : S) (tr : List ((q : Q) × A q)) : S :=
  tr.foldl (fun s e ↦ R.next s e.1 e.2) s

/-- Two sets of rules at once. -/
def prod (R : Rules Q A S) (R' : Rules Q A T) : Rules Q A (S × T) where
  may s q := R.may s.1 q ∧ R'.may s.2 q
  can s q x := R.can s.1 q x ∧ R'.can s.2 q x
  next s q x := (R.next s.1 q x, R'.next s.2 q x)

/-- All questions may be asked where they are. -/
def Follows (R : Rules Q A S) : S → List ((q : Q) × A q) → Prop
  | _, [] => True
  | s, e :: tr => R.may s e.1 ∧ R.Follows (R.next s e.1 e.2) tr

/-- All answers can be given where they are. -/
def Possible (R : Rules Q A S) : S → List ((q : Q) × A q) → Prop
  | _, [] => True
  | s, e :: tr => R.can s e.1 e.2 ∧ R.Possible (R.next s e.1 e.2) tr

theorem Follows.of_append {R : Rules Q A S} {s : S} {tr tr' : List ((q : Q) × A q)}
    (h : R.Follows s (tr ++ tr')) : R.Follows s tr := by
  induction tr generalizing s with
  | nil => trivial
  | cons e tr ih => exact ⟨h.1, ih h.2⟩

theorem follows_append {R : Rules Q A S} {s : S} {tr tr' : List ((q : Q) × A q)} :
    R.Follows s (tr ++ tr') ↔ R.Follows s tr ∧ R.Follows (R.after s tr) tr' := by
  induction tr generalizing s with
  | nil => exact (iff_of_eq (true_and _)).symm
  | cons e tr ih => exact (and_congr_right fun _ ↦ ih).trans and_assoc.symm

end Rules

namespace Program

variable {R : Rules Q A S} {p : Program Q A α} {f : α → Program Q A β} {s : S}
  {h : (q : Q) → S → Option (A q × S)}

@[simp] theorem pure_eq (a : α) : (Pure.pure a : Program Q A α) = ret a := rfl

@[simp] theorem ret_bind (a : α) : (ret a : Program Q A α) >>= f = f a := rfl

@[simp] theorem ask_bind (q : Q) (next : A q → Program Q A α) :
    ask q next >>= f = ask q fun x ↦ next x >>= f := rfl

@[simp] theorem query_bind (q : Q) (f : A q → Program Q A β) :
    query q >>= f = ask q f := rfl

@[simp] theorem run_ret (a : α) : (ret a : Program Q A α).run h s = some (a, s) := rfl

@[simp] theorem run_ask (q : Q) (next : A q → Program Q A α) :
    (ask q next).run h s = (h q s).bind fun r ↦ (next r.1).run h r.2 := rfl

theorem run_bind : (p >>= f).run h s = (p.run h s).bind fun r ↦ (f r.1).run h r.2 := by
  induction p generalizing s with
  | ret a => rfl
  | ask q next ih =>
    rw [ask_bind, run_ask, run_ask, Option.bind_assoc]
    exact congrArg _ (funext fun r ↦ ih r.1)

@[simp] theorem obeys_ret {a : α} {post : α → S → Prop} :
    (ret a : Program Q A α).Obeys R s post ↔ post a s := Iff.rfl

@[simp] theorem obeys_ask {q : Q} {next : A q → Program Q A α} {post : α → S → Prop} :
    (ask q next).Obeys R s post ↔
      R.may s q ∧ ∀ x, R.can s q x → (next x).Obeys R (R.next s q x) post := Iff.rfl

theorem obeys_bind {post : β → S → Prop} :
    (p >>= f).Obeys R s post ↔ p.Obeys R s fun a s' ↦ (f a).Obeys R s' post := by
  induction p generalizing s with
  | ret a => rfl
  | ask q next ih => exact and_congr_right fun _ ↦ forall₂_congr fun x _ ↦ ih x

theorem Obeys.mono {post post' : α → S → Prop} (hp : p.Obeys R s post)
    (hpost : ∀ a s', post a s' → post' a s') : p.Obeys R s post' := by
  induction p generalizing s with
  | ret a => exact hpost a s hp
  | ask q next ih => exact ⟨hp.1, fun x hx ↦ ih x (hp.2 x hx)⟩

theorem Obeys.prod {R' : Rules Q A T} {t : T} {post : α → S → Prop} {post' : α → T → Prop}
    (hp : p.Obeys R s post) (hp' : p.Obeys R' t post') :
    p.Obeys (R.prod R') (s, t) fun a r ↦ post a r.1 ∧ post' a r.2 := by
  induction p generalizing s t with
  | ret a => exact ⟨hp, hp'⟩
  | ask q next ih =>
    exact ⟨⟨hp.1, hp'.1⟩, fun x hx ↦ ih x (hp.2 x hx.1) (hp'.2 x hx.2)⟩

theorem Obeys.reaches {post : α → S → Prop} (hp : p.Obeys R s post)
    (hans : ∀ s q, R.may s q → ∃ x, R.can s q x) : ∃ a s', post a s' := by
  induction p generalizing s with
  | ret a => exact ⟨a, s, hp⟩
  | ask q next ih =>
    obtain ⟨x, hx⟩ := hans s q hp.1
    exact ih x (hp.2 x hx)

theorem Obeys.and_of {R' : Rules Q A S} {post post' : α → S → Prop} (hp : p.Obeys R s post)
    (hp' : p.Obeys R' s post') (hcan : ∀ s q x, R.can s q x → R'.can s q x)
    (hnext : ∀ s q x, R'.next s q x = R.next s q x) :
    p.Obeys R s fun a s' ↦ post a s' ∧ post' a s' := by
  induction p generalizing s with
  | ret a => exact ⟨hp, hp'⟩
  | ask q next ih =>
    refine ⟨hp.1, fun x hx ↦ ih x (hp.2 x hx) ?_⟩
    rw [← hnext]
    exact hp'.2 x (hcan s q x hx)

theorem Obeys.and {post post' : α → S → Prop} (hp : p.Obeys R s post)
    (hp' : p.Obeys R s post') : p.Obeys R s fun a s' ↦ post a s' ∧ post' a s' :=
  hp.and_of hp' (fun _ _ _ h ↦ h) fun _ _ _ ↦ rfl

theorem Obeys.along {R' : Rules Q A T} (φ : S → T) {post : α → S → Prop} (hp : p.Obeys R s post)
    (hmay : ∀ s q, R.may s q → R'.may (φ s) q) (hcan : ∀ s q x, R'.can (φ s) q x → R.can s q x)
    (hnext : ∀ s q x, R'.next (φ s) q x = φ (R.next s q x)) :
    p.Obeys R' (φ s) fun a t ↦ ∃ s', φ s' = t ∧ post a s' := by
  induction p generalizing s with
  | ret a => exact ⟨s, rfl, hp⟩
  | ask q next ih =>
    refine ⟨hmay s q hp.1, fun x hx ↦ ?_⟩
    rw [hnext]
    exact ih x (hp.2 x (hcan s q x hx))

theorem Path.bind {tr tr' : List ((q : Q) × A q)} {a : α} {b : β} (h : Path p tr a)
    (h' : Path (f a) tr' b) : Path (p >>= f) (tr ++ tr') b := by
  induction h with
  | ret a => exact h'
  | ask q next x _ ih => exact .ask q _ x (ih h')

theorem Path.of_bind {tr : List ((q : Q) × A q)} {b : β} (h : Path (p >>= f) tr b) :
    ∃ tr₁ a tr₂, tr = tr₁ ++ tr₂ ∧ Path p tr₁ a ∧ Path (f a) tr₂ b := by
  induction p generalizing tr with
  | ret a => exact ⟨[], a, tr, rfl, .ret a, h⟩
  | ask q next ih =>
    rw [ask_bind] at h
    cases h with
    | ask _ _ x h =>
      obtain ⟨tr₁, a, tr₂, rfl, h₁, h₂⟩ := ih x h
      exact ⟨_, a, tr₂, rfl, .ask q next x h₁, h₂⟩

/-- Where a question can be answered in one way only, there is one way through the loop. -/
theorem forEach_path {X : Type} {q : X → Q} {y : (x : X) → A (q x)}
    (hy : ∀ x (a : A (q x)), a = y x) {xs : List X} {tr : List ((q : Q) × A q)} {u : Unit}
    (h : Path (forEach q xs) tr u) : tr = xs.map fun x ↦ ⟨q x, y x⟩ := by
  induction xs generalizing tr with
  | nil =>
    cases h
    rfl
  | cons x xs ih =>
    cases h with
    | ask _ _ a h => rw [ih h, hy x a, List.map_cons]

theorem Obeys.path {post : α → S → Prop} (hp : p.Obeys R s post)
    {tr : List ((q : Q) × A q)} {a : α} (htr : Path p tr a) (hcan : R.Possible s tr) :
    R.Follows s tr ∧ post a (R.after s tr) := by
  induction htr generalizing s with
  | ret a => exact ⟨trivial, hp⟩
  | ask q next x _ ih =>
    obtain ⟨hfollows, hpost⟩ := ih (hp.2 x hcan.1) hcan.2
    exact ⟨⟨hp.1, hfollows⟩, hpost⟩

/-- A run stays related to the state of the rules if each answer does. -/
theorem Obeys.run {post : α → S → Prop} (hp : p.Obeys R s post) (rel : S → T → Prop) {t t' : T}
    {h : (q : Q) → T → Option (A q × T)} (ht : rel s t)
    (hstep : ∀ s t q x t', rel s t → R.may s q → h q t = some (x, t') →
      R.can s q x ∧ rel (R.next s q x) t') {a : α} (hrun : p.run h t = some (a, t')) :
    ∃ s', post a s' ∧ rel s' t' := by
  induction p generalizing s t with
  | ret b =>
    obtain ⟨rfl, rfl⟩ := Prod.mk.inj (Option.some.inj hrun)
    exact ⟨s, hp, ht⟩
  | ask q next ih =>
    obtain ⟨⟨x, t₁⟩, hx, hrun⟩ := Option.bind_eq_some_iff.mp hrun
    obtain ⟨hcan, hrel⟩ := hstep s t q x t₁ ht hp.1 hx
    exact ih x (hp.2 x hcan) hrel hrun

theorem Obeys.returns {post : α → S → Prop} (hp : p.Obeys R s post) (rel : S → T → Prop) {t : T}
    {h : (q : Q) → T → Option (A q × T)} (ht : rel s t)
    (hstep : ∀ s t q x t', rel s t → R.may s q → h q t = some (x, t') →
      R.can s q x ∧ rel (R.next s q x) t')
    (hsome : ∀ s t q, rel s t → R.may s q → ∃ r, h q t = some r) : ∃ r, p.run h t = some r := by
  induction p generalizing s t with
  | ret b => exact ⟨(b, t), rfl⟩
  | ask q next ih =>
    obtain ⟨⟨x, t₁⟩, hx⟩ := hsome s t q ht hp.1
    obtain ⟨hcan, hrel⟩ := hstep s t q x t₁ ht hp.1 hx
    rw [run_ask, hx]
    exact ih x (hp.2 x hcan) hrel

end Program

end SceLibcPosix.Programs
