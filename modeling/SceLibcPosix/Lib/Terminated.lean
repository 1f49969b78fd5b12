import Mathlib.Algebra.GroupWithZero.Nat
import Mathlib.Data.List.Basic
import Mathlib.Logic.Function.Basic
import SceLibcPosix.Lib.Loops

namespace SceLibcPosix.Terminated

open Loops Function

variable {σ α : Type*} {mem mem' : ℕ → α} {a b d n k : ℕ} {x : α} {l l' old new : List α}

/-- Nothing outside the `n` places from `d` on has changed. -/
def Kept (d n : ℕ) (mem mem' : ℕ → α) : Prop := ∀ x, ¬ (d ≤ x ∧ x < d + n) → mem' x = mem x

/-- The string of `len` characters at `s` has no place in common with the `n` places at `d`. -/
def Clear (d n s len : ℕ) : Prop := ∀ i ≤ len, ¬ (d ≤ s + i ∧ s + i < d + n)

theorem Kept.trans {mem'' : ℕ → α} (h : Kept d n mem mem') (h' : Kept d n mem' mem'') :
    Kept d n mem mem'' := fun x hx ↦ (h' x hx).trans (h x hx)

theorem Kept.mono (h : Kept b a mem mem') (hlo : d ≤ b) (hhi : b + a ≤ d + n) :
    Kept d n mem mem' := fun x hx ↦ h x (by omega)

theorem kept_update (d k : ℕ) (x : α) : Kept d (k + 1) mem (Function.update mem d x) :=
  fun _ _ ↦ update_of_ne (by omega) _ _

theorem Clear.tail (h : Clear d (n + 1) a (x :: l).length) : Clear (d + 1) n (a + 1) l.length := by
  intro i hi
  have hout := h (i + 1) (Nat.succ_le_succ hi)
  omega

theorem take_take_append (l l' : List α) (k : ℕ) :
    (l.take k ++ l').take k = (l ++ l').take k := by
  rw [List.take_append, List.take_append, List.take_take, Nat.min_self, List.length_take]
  congr 2
  omega

variable [Zero α]

/-- The characters of `l` stand from `a` on, and none of them ends a string. -/
def Spells (mem : ℕ → α) : ℕ → List α → Prop
  | _, [] => True
  | a, x :: l => mem a = x ∧ x ≠ 0 ∧ Spells mem (a + 1) l

/-- The string at `a` is `l`. -/
def Holds (mem : ℕ → α) (a : ℕ) (l : List α) : Prop := Spells mem a l ∧ mem (a + l.length) = 0

theorem Spells.congr (h : Spells mem a l) (heq : ∀ i < l.length, mem' (a + i) = mem (a + i)) :
    Spells mem' a l := by
  induction l generalizing a with
  | nil => trivial
  | cons x l ih =>
    obtain ⟨hx, hne, hl⟩ := h
    refine ⟨(heq 0 (Nat.succ_pos _)).trans hx, hne, ih hl fun i hi ↦ ?_⟩
    rw [Nat.add_assoc, Nat.add_comm 1 i]
    exact heq (i + 1) (Nat.succ_lt_succ hi)

theorem spells_append :
    Spells mem a (l ++ l') ↔ Spells mem a l ∧ Spells mem (a + l.length) l' := by
  induction l generalizing a with
  | nil => exact ⟨fun h ↦ ⟨trivial, h⟩, And.right⟩
  | cons x l ih =>
    simp only [List.cons_append, Spells, ih, List.length_cons, and_assoc, Nat.add_assoc,
      Nat.add_comm 1]

theorem Spells.get (h : Spells mem a l) {i : ℕ} (hi : i < l.length) :
    mem (a + i) = l[i] ∧ l[i] ≠ 0 := by
  induction l generalizing a i with
  | nil => cases hi
  | cons x l ih =>
    obtain ⟨hx, hne, hl⟩ := h
    cases i with
    | zero => exact ⟨hx, hne⟩
    | succ i =>
      have hget := ih hl (Nat.lt_of_succ_lt_succ hi)
      rwa [Nat.add_assoc, Nat.add_comm 1 i] at hget

theorem Holds.congr (h : Holds mem a l) (heq : ∀ i ≤ l.length, mem' (a + i) = mem (a + i)) :
    Holds mem' a l :=
  ⟨h.1.congr fun i hi ↦ heq i (Nat.le_of_lt hi), (heq _ (Nat.le_refl _)).trans h.2⟩

theorem Holds.kept (h : Holds mem a l) (hkept : Kept d n mem mem')
    (hclear : Clear d n a l.length) : Holds mem' a l :=
  h.congr fun i hi ↦ hkept _ (hclear i hi)

theorem Holds.tail (h : Holds mem a (x :: l)) : Holds mem (a + 1) l := by
  obtain ⟨⟨-, -, hl⟩, hnul⟩ := h
  rw [List.length_cons, Nat.add_comm l.length, ← Nat.add_assoc] at hnul
  exact ⟨hl, hnul⟩

theorem Holds.cons (hx : mem a = x) (hne : x ≠ 0) (h : Holds mem (a + 1) l) :
    Holds mem a (x :: l) := by
  refine ⟨⟨hx, hne, h.1⟩, ?_⟩
  rw [List.length_cons, Nat.add_comm l.length, ← Nat.add_assoc]
  exact h.2

theorem Spells.append (h : Spells mem a l) (h' : Holds mem (a + l.length) l') :
    Holds mem a (l ++ l') := by
  refine ⟨spells_append.mpr ⟨h, h'.1⟩, ?_⟩
  rw [List.length_append, ← Nat.add_assoc]
  exact h'.2

theorem Holds.drop (h : Holds mem a l) (hk : k ≤ l.length) : Holds mem (a + k) (l.drop k) := by
  induction k generalizing a l with
  | zero => exact h
  | succ k ih =>
    cases l with
    | nil => cases hk
    | cons x l =>
      rw [Nat.add_comm k, ← Nat.add_assoc, Nat.add_comm 1, List.drop_succ_cons]
      exact ih h.tail (Nat.le_of_succ_le_succ hk)

theorem Spells.update (h : Spells mem a l) : Holds (update mem (a + l.length) 0) a l :=
  ⟨h.congr fun _ _ ↦ update_of_ne (by omega) _ _, update_self _ _ _⟩

theorem Holds.tail_update {y : α} (h : Holds mem a (x :: l))
    (hclear : Clear d (n + 1) a (x :: l).length) : Holds (Function.update mem d y) (a + 1) l := by
  refine h.tail.congr fun i hi ↦ ?_
  have hout := hclear (i + 1) (Nat.succ_le_succ hi)
  exact update_of_ne (by omega) _ _

/-- The strings stand one after the other from `a` on. -/
def Laid (mem : ℕ → α) : ℕ → List (List α) → Prop
  | _, [] => True
  | a, l :: ls => Holds mem a l ∧ Laid mem (a + l.length + 1) ls

/-- The places that the strings take, one after the other. -/
def extent (ls : List (List α)) : ℕ := (ls.map fun l ↦ l.length + 1).sum

omit [Zero α] in
@[simp] theorem extent_nil : extent ([] : List (List α)) = 0 := rfl

omit [Zero α] in
@[simp] theorem extent_cons (l : List α) (ls : List (List α)) :
    extent (l :: ls) = l.length + 1 + extent ls := List.sum_cons

theorem Holds.find? [DecidableEq α] (h : Holds mem a l) (hk : l.length < k) :
    (List.range k).find? (fun i ↦ mem (a + i) = 0) = some l.length := by
  rw [List.find?_range_eq_some]
  refine ⟨by simpa using h.2, List.mem_range.mpr hk, fun i hi ↦ ?_⟩
  obtain ⟨hget, hne⟩ := h.1.get hi
  simpa [hget] using hne

section Routines

/-- A routine that copies or appends the string at `s` to what stands at `d`, in a buffer with room
for `n` characters: it is called with `d`, `s` and `n`, and what it returns is the length that it
has tried to make. -/
def Appends (chars : σ → ℕ → α) (call : σ → ℕ → ℕ → ℕ → ℕ → Option (σ × ℕ))
    (start : σ → ℕ → List α → Prop) : Prop :=
  ∀ m d s n old new, start m d old → old.length < n → Holds (chars m) s new →
    Clear d n s new.length → ∃ m', Returns (call m d s n) (m', old.length + new.length) ∧
      Holds (chars m') d ((old ++ new).take (n - 1)) ∧ Kept d n (chars m) (chars m')

/-- Calls one after the other, with what each of them returns. -/
inductive Calls (call : σ → ℕ → ℕ → ℕ → ℕ → Option (σ × ℕ)) (d n : ℕ) :
    σ → List ℕ → σ → List ℕ → Prop
  | nil (m : σ) : Calls call d n m [] m []
  | cons {m m' m'' : σ} {s r : ℕ} {ss rs : List ℕ} (h : Returns (call m d s n) (m', r))
      (h' : Calls call d n m' ss m'' rs) : Calls call d n m (s :: ss) m'' (r :: rs)

/-- Whatever is appended, the buffer has the first characters of it all, and a call has returned
`n` or more if there have been too many. -/
theorem Appends.calls {chars : σ → ℕ → α} {call : σ → ℕ → ℕ → ℕ → ℕ → Option (σ × ℕ)}
    (hcall : Appends chars call fun m d old ↦ Holds (chars m) d old) {m : σ}
    {pieces : List (ℕ × List α)} (hold : Holds (chars m) d old) (hlen : old.length < n)
    (hpieces : ∀ p ∈ pieces, Holds (chars m) p.1 p.2 ∧ Clear d n p.1 p.2.length) :
    ∃ m' rs, Calls call d n m (pieces.map Prod.fst) m' rs ∧
      Holds (chars m') d ((old ++ (pieces.map Prod.snd).flatten).take (n - 1)) ∧
      Kept d n (chars m) (chars m') ∧
      ((∀ r ∈ rs, r < n) ↔ (old ++ (pieces.map Prod.snd).flatten).length < n) := by
  induction pieces generalizing m old with
  | nil =>
    refine ⟨m, [], .nil m, ?_, fun _ _ ↦ rfl, by simpa using hlen⟩
    rw [List.map_nil, List.flatten_nil, List.append_nil, List.take_of_length_le (by omega)]
    exact hold
  | cons p pieces ih =>
    obtain ⟨hp, hpieces⟩ := List.forall_mem_cons.mp hpieces
    obtain ⟨m', hret, hnew, hkept⟩ := hcall m d p.1 n old p.2 hold hlen hp.1 hp.2
    have hshort : ((old ++ p.2).take (n - 1)).length < n := by
      rw [List.length_take]
      omega
    obtain ⟨m'', rs, hcalls, hholds, hkept', hrs⟩ := ih hnew hshort fun q hq ↦
      ⟨(hpieces q hq).1.kept hkept (hpieces q hq).2, (hpieces q hq).2⟩
    refine ⟨m'', _ :: rs, .cons hret hcalls, ?_, hkept.trans hkept', ?_⟩
    · rw [take_take_append] at hholds
      rwa [List.map_cons, List.flatten_cons, ← List.append_assoc]
    · rw [List.forall_mem_cons, hrs, List.map_cons, List.flatten_cons]
      simp only [List.length_append, List.length_take]
      omega

theorem Appends.builds {chars : σ → ℕ → α} {copy call : σ → ℕ → ℕ → ℕ → ℕ → Option (σ × ℕ)}
    (hcopy : Appends chars copy fun _ _ old ↦ old = [])
    (hcall : Appends chars call fun m d old ↦ Holds (chars m) d old) (m : σ) {s : ℕ}
    {pieces : List (ℕ × List α)} (hn : 0 < n)
    (hpieces : ∀ p ∈ (s, l) :: pieces, Holds (chars m) p.1 p.2 ∧ Clear d n p.1 p.2.length) :
    ∃ m' m'' r rs, Returns (copy m d s n) (m', r) ∧
      Calls call d n m' (pieces.map Prod.fst) m'' rs ∧
      Holds (chars m'') d ((l ++ (pieces.map Prod.snd).flatten).take (n - 1)) ∧
      Kept d n (chars m) (chars m'') ∧
      ((∀ q ∈ r :: rs, q < n) ↔ (l ++ (pieces.map Prod.snd).flatten).length < n) := by
  obtain ⟨⟨hl, hclear⟩, hpieces⟩ := List.forall_mem_cons.mp hpieces
  obtain ⟨m', hret, hholds, hkept⟩ := hcopy m d s n [] l rfl hn hl hclear
  rw [List.nil_append] at hholds
  have hshort : (l.take (n - 1)).length < n := by
    rw [List.length_take]
    omega
  obtain ⟨m'', rs, hcalls, hholds', hkept', hrs⟩ := hcall.calls hholds hshort
    fun p hp ↦ ⟨(hpieces p hp).1.kept hkept (hpieces p hp).2, (hpieces p hp).2⟩
  rw [take_take_append] at hholds'
  refine ⟨m', m'', _, rs, hret, hcalls, hholds', hkept.trans hkept', ?_⟩
  rw [List.forall_mem_cons, hrs]
  simp only [List.length_append, List.length_take, List.length_nil]
  omega

end Routines

end SceLibcPosix.Terminated
