import Mathlib.Data.BitVec
import Mathlib.Logic.Function.Basic
import SceLibcPosix.Lib.Terminated

namespace SceLibcPosix.Strings

open Loops Function Terminated

/-- The memory as wide characters, with the addresses counted in them. -/
abbrev WideMemory := ℕ → BitVec 32

structure WideCursor where
  m : WideMemory
  d : ℕ
  s : ℕ
  n : ℕ

def wcslen (fuel : ℕ) (m : WideMemory) (s : ℕ) : Option ℕ :=
  (run (fun a ↦ if m a ≠ 0 then .next (a + 1) else .stop a) fuel s).map (· - s)

/-- `*d++ = *s++`. -/
def WideCursor.copy (a : WideCursor) : WideCursor :=
  { a with m := update a.m a.d (a.m a.s), d := a.d + 1, s := a.s + 1 }

/-- `do { if ((*d++ = *s++) == 0) break; } while (--n != 0);` -/
def wcslcpyTurn (a : WideCursor) : Turn WideCursor :=
  if a.m a.s = 0 then .stop a.copy
  else if a.n - 1 ≠ 0 then .next { a.copy with n := a.n - 1 }
  else .stop { a.copy with n := a.n - 1 }

/-- `while (*s++);` -/
def skipTurn (m : WideMemory) (s : ℕ) : Turn ℕ :=
  if m s ≠ 0 then .next (s + 1) else .stop (s + 1)

/-- The end of `wcslcpy`, which terminates a string that did not fit and goes over the rest of
it. -/
def WideCursor.finish (a : WideCursor) (src siz fuel : ℕ) : Option (WideMemory × ℕ) :=
  if a.n = 0 then
    let m := if siz ≠ 0 then update a.m a.d 0 else a.m
    (run (skipTurn m) fuel a.s).map fun s ↦ (m, s - src - 1)
  else some (a.m, a.s - src - 1)

def wcslcpy (m : WideMemory) (dst src siz fuel : ℕ) : Option (WideMemory × ℕ) :=
  let n := siz - 1
  (if n ≠ 0 then run wcslcpyTurn fuel ⟨m, dst, src, n⟩ else some ⟨m, dst, src, n⟩).bind
    fun a ↦ a.finish src siz fuel

/-- `while (*d != '\0' && n-- != 0) d++;` -/
def endTurn (m : WideMemory) : ℕ × ℕ → Turn (ℕ × ℕ)
  | (d, n) => if m d ≠ 0 ∧ n ≠ 0 then .next (d + 1, n - 1) else .stop (d, n)

def wcslcatTurn (a : WideCursor) : Turn WideCursor :=
  if a.m a.s ≠ 0 then
    if a.n ≠ 1 then .next { a.copy with n := a.n - 1 } else .next { a with s := a.s + 1 }
  else .stop a

def wcslcat (m : WideMemory) (dst src siz fuel : ℕ) : Option (WideMemory × ℕ) := do
  let (d, _) ← run (endTurn m) fuel (dst, siz)
  let dlen := d - dst
  if siz - dlen = 0 then (wcslen fuel m src).map fun len ↦ (m, dlen + len)
  else
    let a ← run wcslcatTurn fuel ⟨m, d, src, siz - dlen⟩
    some (update a.m a.d 0, dlen + (a.s - src))

section Copied

variable {m : WideMemory} {d s n k : ℕ} {l new old : List (BitVec 32)}

theorem skip_ends (h : Holds m s l) :
    Loops.Ends (skipTurn m) l.length s (s + l.length + 1) := by
  induction l generalizing s with
  | nil => exact .stop (if_neg (not_not.mpr h.2))
  | cons x l ih =>
    obtain ⟨hx, hne, -⟩ := h.1
    rw [List.length_cons, Nat.add_comm l.length, ← Nat.add_assoc, Nat.add_comm 1]
    exact .next (if_pos (hx ▸ hne)) (ih h.tail)

theorem wcslcpy_ends (h : Holds m s new) (hclear : Clear d (k + 2) s new.length) :
    ∃ n r, Loops.Ends wcslcpyTurn n ⟨m, d, s, k + 1⟩ r ∧ Kept d (k + 2) m r.m ∧
      (new.length ≤ k ∧ r.n ≠ 0 ∧ r.s = s + new.length + 1 ∧ Holds r.m d new ∨
        k < new.length ∧ r.n = 0 ∧ r.s = s + (k + 1) ∧ r.d = d + (k + 1) ∧
          Spells r.m d (new.take (k + 1))) := by
  induction new generalizing m d s k with
  | nil =>
    have hzero : m s = 0 := h.2
    refine ⟨0, _, .stop (if_pos hzero), kept_update _ _ _,
      .inl ⟨Nat.zero_le k, Nat.succ_ne_zero k, rfl, trivial, ?_⟩⟩
    exact (update_self _ _ _).trans hzero
  | cons x l ih =>
    have hx := h.1.1
    have hne := h.1.2.1
    have hbyte : m s ≠ 0 := hx ▸ hne
    cases k with
    | zero =>
      refine ⟨0, _, .stop ((if_neg hbyte).trans (if_neg (by simp))), kept_update _ _ _,
        .inr ⟨Nat.succ_pos _, rfl, rfl, rfl, ?_, hne, trivial⟩⟩
      exact (update_self _ _ _).trans hx
    | succ k =>
      have hrest : Holds (update m d (m s)) (s + 1) l := h.tail_update hclear
      obtain ⟨n, r, hends, hkept, hcase⟩ := ih hrest hclear.tail
      have hfirst : r.m d = x := by
        rw [hkept d (by omega)]
        exact (update_self _ _ _).trans hx
      refine ⟨n + 1, r, .next ((if_neg hbyte).trans (if_pos (by simp))) hends,
        (kept_update d _ (m s)).trans (hkept.mono (by omega) (by omega)), ?_⟩
      rcases hcase with ⟨hlen, hn, hs, hholds⟩ | ⟨hlen, hn, hs, hd, hspells⟩
      · refine .inl ⟨by simpa using hlen, hn, ?_, .cons hfirst hne hholds⟩
        rw [hs, List.length_cons]
        omega
      · exact .inr ⟨by simpa using hlen, hn, by omega, by omega, hfirst, hne, hspells⟩

theorem wcslcpy_full {a : WideCursor} (hnew : Holds m s new) (hclear : Clear d (k + 1) s new.length)
    (hrun : Returns (fun fuel ↦ if k ≠ 0 then run wcslcpyTurn fuel ⟨m, d, s, k⟩
      else some ⟨m, d, s, k⟩) a)
    (hkept : Kept d (k + 1) m a.m) (hk : k ≤ new.length) (hn : a.n = 0) (hs : a.s = s + k)
    (hd : a.d = d + k) (hspells : Spells a.m d (new.take k)) :
    ∃ m', Returns (wcslcpy m d s (k + 1)) (m', new.length) ∧ Holds m' d (new.take k) ∧
      Kept d (k + 1) m m' := by
  have hend : a.d = d + (new.take k).length := by
    rw [hd, List.length_take, Nat.min_eq_left hk]
  have hkept' : Kept d (k + 1) m (update a.m a.d 0) := by
    refine hkept.trans (Kept.mono (kept_update a.d 0 0) ?_ ?_) <;> omega
  have hskip := (skip_ends ((hnew.kept hkept' hclear).drop hk)).returns
  have hlen : a.s + (new.drop k).length + 1 - s - 1 = new.length := by
    rw [List.length_drop]
    omega
  rw [← hs] at hskip
  have hfinish : Returns (a.finish s (k + 1)) (update a.m a.d 0, new.length) := by
    have hret := hskip.map fun e ↦ (update a.m a.d 0, e - s - 1)
    rw [hlen] at hret
    exact .ite (fun _ ↦ hret) fun hn' ↦ absurd hn hn'
  exact ⟨_, .bind hrun hfinish, hend ▸ hspells.update, hkept'⟩

theorem wcslcpy_appends : Appends id wcslcpy fun _ _ old ↦ old = [] := by
  rintro m d s n old new rfl hn hnew hclear
  obtain ⟨k, rfl⟩ : ∃ k, n = k + 1 := ⟨n - 1, by rw [List.length_nil] at hn; omega⟩
  rw [List.nil_append, List.length_nil, Nat.zero_add]
  cases k with
  | zero =>
    have hrun : Returns (fun fuel ↦ if 0 ≠ 0 then run wcslcpyTurn fuel ⟨m, d, s, 0⟩
        else some ⟨m, d, s, 0⟩) ⟨m, d, s, 0⟩ := .pure _
    exact wcslcpy_full hnew hclear hrun (fun _ _ ↦ rfl) (Nat.zero_le _) rfl rfl rfl trivial
  | succ k =>
    obtain ⟨j, a, hends, hkept, ⟨hlen, hn, hs, hholds⟩ | ⟨hlen, hn, hs, hd, hspells⟩⟩ :=
      wcslcpy_ends hnew hclear
    · have hsum : a.s - s - 1 = new.length := by omega
      have htake : new.take (k + 1 + 1 - 1) = new := List.take_of_length_le (by omega)
      have hfinish : Returns (a.finish s (k + 1 + 1)) (a.m, new.length) := by
        rw [← hsum]
        exact .ite (fun hn' ↦ absurd hn' hn) fun _ ↦ .pure _
      rw [htake]
      exact ⟨a.m, .bind hends.returns hfinish, hholds, hkept⟩
    · exact wcslcpy_full hnew hclear hends.returns hkept hlen hn hs hd hspells

theorem end_ends (h : Holds m d old) (hlen : old.length < n) :
    Loops.Ends (endTurn m) old.length (d, n) (d + old.length, n - old.length) := by
  induction old generalizing d n with
  | nil => exact .stop (if_neg fun hne ↦ hne.1 h.2)
  | cons x l ih =>
    obtain ⟨hx, hne, -⟩ := h.1
    rw [List.length_cons] at hlen
    have hrest := ih h.tail (Nat.lt_sub_of_add_lt hlen)
    have hd : d + (x :: l).length = d + 1 + l.length := by
      rw [List.length_cons]
      omega
    have hn : n - (x :: l).length = n - 1 - l.length := by
      rw [List.length_cons]
      omega
    rw [hd, hn]
    exact .next (if_pos ⟨hx ▸ hne, by omega⟩) hrest

theorem wcslcat_ends (h : Holds m s new) (hclear : Clear d (k + 1) s new.length) :
    ∃ r, Loops.Ends wcslcatTurn new.length ⟨m, d, s, k + 1⟩ r ∧ Kept d (k + 1) m r.m ∧
      r.s = s + new.length ∧ r.d = d + min k new.length ∧ Spells r.m d (new.take k) := by
  induction new generalizing m d s k with
  | nil =>
    rw [List.length_nil, Nat.min_zero, List.take_nil]
    exact ⟨_, .stop (if_neg (not_not.mpr h.2)), fun _ _ ↦ rfl, rfl, rfl, trivial⟩
  | cons x l ih =>
    obtain ⟨hx, hne, -⟩ := h.1
    have hbyte : m s ≠ 0 := hx ▸ hne
    cases k with
    | zero =>
      have hrestClear : Clear d (0 + 1) (s + 1) l.length := by
        intro i hi
        have hout := hclear (i + 1) (Nat.succ_le_succ hi)
        omega
      obtain ⟨r, hends, hkept, hs, hd, -⟩ := ih h.tail hrestClear
      refine ⟨r, .next ((if_pos hbyte).trans (if_neg (by simp))) hends, hkept, ?_, ?_, trivial⟩
      · rw [hs, List.length_cons]
        omega
      · rw [hd, Nat.zero_min, Nat.zero_min]
    | succ k =>
      have hrest : Holds (update m d (m s)) (s + 1) l := h.tail_update hclear
      obtain ⟨r, hends, hkept, hs, hd, hspells⟩ := ih hrest hclear.tail
      refine ⟨r, .next ((if_pos hbyte).trans (if_pos (by simp))) hends,
        (kept_update d _ (m s)).trans (hkept.mono (by omega) (by omega)), ?_, ?_, ?_, hne, hspells⟩
      · rw [hs, List.length_cons]
        omega
      · rw [hd, List.length_cons]
        omega
      · rw [hkept d (by omega)]
        exact (update_self _ _ _).trans hx

theorem wcslcat_appends : Appends id wcslcat fun m d old ↦ Holds m d old := by
  intro m d s n old new hold hlen hnew hclear
  obtain ⟨k, hk⟩ : ∃ k, n - old.length = k + 1 := ⟨n - old.length - 1, by omega⟩
  have htail : Clear (d + old.length) (k + 1) s new.length := by
    intro i hi
    have hout := hclear i hi
    omega
  obtain ⟨a, hends, hkept, hs, hd, hspells⟩ := wcslcat_ends hnew htail
  have hend : a.d = d + old.length + (new.take k).length := by rw [hd, List.length_take]
  have hkept' : Kept (d + old.length) (k + 1) m (update a.m a.d 0) := by
    refine hkept.trans (Kept.mono (kept_update a.d 0 0) ?_ ?_) <;> omega
  have htake : (old ++ new).take (n - 1) = old ++ new.take k := by
    rw [List.take_append, List.take_of_length_le (by omega)]
    congr 2
    omega
  refine ⟨update a.m a.d 0, ?_, ?_, hkept'.mono (by omega) (by omega)⟩
  · have hdlen : n - (d + old.length - d) = k + 1 := by omega
    have hret : d + old.length - d + (a.s - s) = old.length + new.length := by omega
    have hrest : Returns (fun fuel ↦ if n - (d + old.length - d) = 0 then
        (wcslen fuel m s).map fun len ↦ (m, d + old.length - d + len)
        else (run wcslcatTurn fuel ⟨m, d + old.length, s, n - (d + old.length - d)⟩).bind fun a ↦
          some (update a.m a.d 0, d + old.length - d + (a.s - s)))
        (update a.m a.d 0, old.length + new.length) := by
      rw [hdlen, ← hret]
      exact .ite (fun hn ↦ absurd hn (Nat.succ_ne_zero k)) fun _ ↦ .bind hends.returns (.pure _)
    exact .bind (end_ends hold hlen).returns hrest
  · rw [htake]
    refine (hold.1.congr fun i hi ↦ hkept' _ (by omega)).append ?_
    exact hend ▸ hspells.update

end Copied

/-- A buffer of wide characters that is filled by `wcslcpy` and `wcslcat` has the first `n - 1`
characters of all the strings; only the buffer has changed, and a call has returned `n` or more if
and only if something has been cut off. -/
theorem wcslcat_builds (m : WideMemory) {d n s : ℕ} {l : List (BitVec 32)}
    {pieces : List (ℕ × List (BitVec 32))} (hn : 0 < n)
    (hpieces : ∀ p ∈ (s, l) :: pieces, Holds m p.1 p.2 ∧ Clear d n p.1 p.2.length) :
    ∃ m' m'' r rs, Returns (wcslcpy m d s n) (m', r) ∧
      Calls wcslcat d n m' (pieces.map Prod.fst) m'' rs ∧
      Holds m'' d ((l ++ (pieces.map Prod.snd).flatten).take (n - 1)) ∧ Kept d n m m'' ∧
      ((∀ q ∈ r :: rs, q < n) ↔ (l ++ (pieces.map Prod.snd).flatten).length < n) :=
  wcslcpy_appends.builds wcslcat_appends m hn hpieces

/-- Two letters fill a buffer of three characters. -/
theorem wcslcat_builds_letters : ∃ m' m'' r rs,
    Returns (wcslcpy (fun a ↦ if a % 4 = 0 then 0x61 else 0) 9 104 3) (m', r) ∧
      Calls wcslcat 9 3 m' [108] m'' rs ∧ Holds m'' 9 [0x61, 0x61] ∧
      Kept 9 3 (fun a ↦ if a % 4 = 0 then 0x61 else 0) m'' ∧
      ((∀ q ∈ r :: rs, q < 3) ↔ 2 < 3) := by
  have hpieces : ∀ p ∈ (104, [0x61]) :: [(108, [0x61])],
      Holds (fun a : ℕ ↦ if a % 4 = 0 then (0x61 : BitVec 32) else 0) p.1 p.2 ∧
        Clear 9 3 p.1 p.2.length := by
    intro p hp
    have hp : p = (104, [0x61]) ∨ p = (108, [0x61]) := by simpa using hp
    rcases hp with rfl | rfl <;>
      exact ⟨⟨⟨by decide, by decide, trivial⟩, by decide⟩, fun i hi ↦ by simp at hi ⊢; omega⟩
  exact wcslcat_builds _ (by decide) hpieces

end SceLibcPosix.Strings
