import SceLibcPosix.Strings.Copies

namespace SceLibcPosix.Strings

open Loops

/-- `for (; *s && *s != c; s++);` -/
def scanTurn (m : Memory) (c : BitVec 8) (s : ℕ) : Turn ℕ :=
  if m.bytes s ≠ 0 ∧ m.bytes s ≠ c then .next (s + 1) else .stop s

/-- The loop of `__strchrnul` up to the first word. -/
def scanAlignTurn (m : Memory) (c : BitVec 8) (s : ℕ) : Turn ℕ :=
  if s % 4 ≠ 0 then
    if m.bytes s = 0 ∨ m.bytes s = c then .stop s else .next (s + 1)
  else .stop s

def scanWordTurn (m : Memory) (k : BitVec 32) (w : ℕ) : Turn ℕ :=
  if HASZERO (m.loadWord w) = 0 ∧ HASZERO (m.loadWord w ^^^ k) = 0 then .next (w + 4) else .stop w

/-- `__strchrnul`. Its first loop returns where it stops at an `s` that is not aligned. -/
def strchrnul (m : Memory) (s : ℕ) (c : BitVec 32) (fuel : ℕ) : Option ℕ := do
  let c := c.setWidth 8
  if c = 0 then (strlen fuel m s).map (s + ·)
  else
    let s ← run (scanAlignTurn m c) fuel s
    if s % 4 ≠ 0 then some s
    else
      let k := ONES * c.setWidth 32
      let s ← run (scanWordTurn m k) fuel s
      run (scanTurn m c) fuel s

/-- The last loop of `__strchrnul` alone. -/
def strchrnulBytes (m : Memory) (s : ℕ) (c : BitVec 32) (fuel : ℕ) : Option ℕ :=
  run (scanTurn m (c.setWidth 8)) fuel s

section Scan

variable {m : Memory} {s r len n k : ℕ} {c : BitVec 8}

theorem scanTurn_ends (hnul : m.bytes (s + len) = 0) :
    ∃ n r, Ends (scanTurn m c) n s r ∧ s ≤ r := by
  have hnext (a b : ℕ) (ha : s ≤ a ∧ a ≤ s + len) (hturn : scanTurn m c a = .next b) :
      (s ≤ b ∧ b ≤ s + len) ∧ s + len - b < s + len - a := by
    unfold scanTurn at hturn
    split at hturn
    · next hbyte =>
      cases hturn
      have hne : a ≠ s + len := by
        rintro rfl
        exact hbyte.1 hnul
      omega
    · cases hturn
  have hstart : s ≤ s ∧ s ≤ s + len := by omega
  obtain ⟨n, r, hr⟩ := exists_ends hnext hstart
  refine ⟨n, r, hr, hr.invariant hstart (fun a b ha hturn ↦ (hnext a b ha hturn).1) ?_⟩
  intro a b ha hturn
  unfold scanTurn at hturn
  split at hturn
  · cases hturn
  · cases hturn
    exact ha.1

theorem scan_align (h : Ends (scanTurn m c) n s r) : ∃ k b j, Ends (scanAlignTurn m c) k s b ∧
    Ends (scanTurn m c) j b r ∧ (b % 4 ≠ 0 → b = r) := by
  have hnext (a b : ℕ) (_ : True) (hturn : scanAlignTurn m c a = .next b) :
      True ∧ Leads (scanTurn m c) a b := by
    unfold scanAlignTurn at hturn
    split at hturn
    · split at hturn
      · cases hturn
      · next hbyte =>
        cases hturn
        refine ⟨trivial, .single (if_pos ?_)⟩
        exact ⟨fun h ↦ hbyte (.inl h), fun h ↦ hbyte (.inr h)⟩
    · cases hturn
  have hstop (a b n : ℕ) (_ : True) (hturn : scanAlignTurn m c a = .stop b)
      (h : Ends (scanTurn m c) n a r) : (b % 4 ≠ 0 → b = r) ∧ ∃ j, Ends (scanTurn m c) j b r := by
    unfold scanAlignTurn at hturn
    split at hturn
    · split at hturn
      · next hbyte =>
        cases hturn
        have hend : scanTurn m c a = .stop a := if_neg fun h ↦ hbyte.elim h.1 h.2
        exact ⟨fun _ ↦ (h.of_stop hend).symm, n, h⟩
      · cases hturn
    · next hs =>
      cases hturn
      exact ⟨fun h ↦ absurd h hs, n, h⟩
  obtain ⟨k, b, j, hk, hj, hb⟩ := h.absorb (P := fun _ ↦ True) trivial hnext hstop
  exact ⟨k, b, j, hk, hj, hb⟩

theorem leads_scan (h : ∀ i < 4, m.bytes (s + i) ≠ 0 ∧ m.bytes (s + i) ≠ c) :
    Leads (scanTurn m c) s (s + 4) := by
  have hturn (i : ℕ) (hi : i < 4) : scanTurn m c (s + i) = .next (s + i + 1) := if_pos (h i hi)
  have hfirst : Leads (scanTurn m c) s (s + 1) := .single (hturn 0 (by omega))
  exact ((hfirst.tail (hturn 1 (by omega))).tail (hturn 2 (by omega))).tail (hturn 3 (by omega))

theorem scan_words (h : Ends (scanTurn m c) n s r) :
    ∃ k b j, Ends (scanWordTurn m (ONES * c.setWidth 32)) k s b ∧ Ends (scanTurn m c) j b r := by
  have hnext (a b : ℕ) (_ : True) (hturn : scanWordTurn m (ONES * c.setWidth 32) a = .next b) :
      True ∧ Leads (scanTurn m c) a b := by
    unfold scanWordTurn at hturn
    split at hturn
    · next hword =>
      cases hturn
      refine ⟨trivial, leads_scan fun i hi ↦ ?_⟩
      rw [← byteOf_loadWord m a hi]
      exact ⟨test_zero _ hword.1 i hi, test_char _ hword.2 i hi⟩
    · cases hturn
  have hstop (a b n : ℕ) (_ : True) (hturn : scanWordTurn m (ONES * c.setWidth 32) a = .stop b)
      (h : Ends (scanTurn m c) n a r) : True ∧ ∃ j, Ends (scanTurn m c) j b r := by
    unfold scanWordTurn at hturn
    split at hturn
    · cases hturn
    · cases hturn
      exact ⟨trivial, n, h⟩
  obtain ⟨k, b, j, hk, hj, -⟩ :=
    h.absorb (P := fun _ ↦ True) (Q := fun _ ↦ True) trivial hnext hstop
  exact ⟨k, b, j, hk, hj⟩

end Scan

section Routines

variable {m : Memory} {d s n len : ℕ} {c : BitVec 32}

theorem strchrnul_returns (hnul : m.bytes (s + len) = 0) :
    ∃ r, Returns (strchrnul m s c) r ∧ Returns (strchrnulBytes m s c) r := by
  obtain ⟨n, r, hr, hle⟩ := scanTurn_ends (c := c.setWidth 8) hnul
  refine ⟨r, .ite (fun hc ↦ ?_) fun _ ↦ ?_, hr.returns⟩
  · rw [hc] at hr
    have hscan : (fun a ↦ if m.bytes a ≠ 0 then .next (a + 1) else .stop a) = scanTurn m 0 := by
      funext a
      simp only [scanTurn, and_self]
    have hstrlen : Returns (fun fuel ↦ strlen fuel m s) (r - s) := by
      unfold strlen
      rw [hscan]
      exact hr.returns.map (· - s)
    have hsum := hstrlen.map (s + ·)
    rwa [Nat.add_sub_cancel' hle] at hsum
  · obtain ⟨k₁, a, k₂, halign, hrest, hstop⟩ := scan_align hr
    refine .bind halign.returns (.ite (fun ha ↦ ?_) fun _ ↦ ?_)
    · rw [hstop ha]
      exact .pure _
    · obtain ⟨k₃, b, k₄, hwords, hrest⟩ := scan_words hrest
      exact .bind hwords.returns hrest.returns

theorem memccpy_returns (gnuc : Bool) (m : Memory) (d s n : ℕ) (c : BitVec 32) :
    Returns (memccpy gnuc m d s c n) (memccpyBytes m d s c n) := by
  obtain ⟨k, hends⟩ := byteLoop_ends (c.setWidth 8) n m d s
  unfold memccpyBytes
  generalize byteLoop (c.setWidth 8) n m d s = x at hends ⊢
  obtain ⟨m', e, t, left⟩ := x
  have htail : memccpyTail ⟨m', e, t, some left⟩ =
      (m', if left = 0 then none else some (e + 1)) := by
    cases left <;> simp [memccpyTail, Cursor.room]
  dsimp only at hends ⊢
  rw [← htail]
  cases gnuc with
  | true => exact memccpy_words hends
  | false => exact memccpy_bytes hends

theorem stpcpy_returns (gnuc : Bool) (hnul : m.bytes (s + len) = 0)
    (hapart : ∀ i ≤ len, ∀ j ≤ len, s + i ≠ d + j) :
    ∃ r, Returns (stpcpy gnuc m d s) r ∧ Returns (stpcpyBytes m d s) r := by
  obtain ⟨k, r, hr, -⟩ := ends_inside none hnul fun i hi j hj _ ↦ hapart i hi j hj
  refine ⟨(r.m, r.d), ?_, stpcpyBytes_returns hr rfl⟩
  cases gnuc with
  | true => exact stpcpy_words hr
  | false => exact stpcpy_bytes hr

theorem strlcpy_returns (gnuc : Bool) (hnul : m.bytes (s + len) = 0)
    (hapart : ∀ i ≤ len, ∀ j ≤ len, j < n → s + i ≠ d + j) :
    ∃ r, Returns (strlcpy gnuc m d s n) r ∧ Returns (strlcpyBytes m d s n) r := by
  cases n with
  | zero =>
    obtain ⟨l, hl⟩ := strlen_returns hnul (Nat.le_add_right s len)
    exact ⟨(m, l), .ite (fun _ ↦ hl.map fun l ↦ (m, l)) fun h ↦ absurd rfl h,
      hl.map fun l ↦ (m, l)⟩
  | succ n =>
    obtain ⟨k, r, hr, t, ht, hle, hs, hd, -, hbytes⟩ := ends_inside (d := d)
      (some n) hnul fun i hi j hj hlt ↦ hapart i hi j hj (by
        rw [Option.all_some, decide_eq_true_iff] at hlt
        omega)
    have hlast : (r.m.store r.d 0).bytes (s + len) = 0 := by
      rw [Option.all_some, decide_eq_true_iff] at hle
      rw [Memory.bytes_store_ne, hbytes len (Nat.le_refl len), hnul]
      rw [hd]
      exact (hapart len (Nat.le_refl len) t ht (by omega)).symm
    obtain ⟨l, hl⟩ := strlen_returns hlast (by omega : r.s ≤ s + len)
    -- the plain loop ends where the one of the routine does
    obtain ⟨k', hloop⟩ := byteLoop_ends 0 n m d s
    have heq := hloop.returns.unique hr.returns
    have hbytes : Returns (strlcpyBytes m d s (n + 1)) (r.m.store r.d 0, r.d - d + l) := by
      rw [← heq] at hl ⊢
      exact hl.map _
    refine ⟨_, ?_, hbytes⟩
    cases gnuc with
    | true => exact strlcpy_words (Nat.succ_ne_zero n) hr hl
    | false => exact strlcpy_bytes (Nat.succ_ne_zero n) hr hl

end Routines

/-- The word test is right on every word, and the routines return what their byte loops return,
with the same memory and the same addresses stored to. -/
theorem word_routines :
    (∀ x, HASZERO x ≠ 0 ↔ ∃ i < 4, byteOf x i = 0) ∧
    (∀ x (c : BitVec 8), HASZERO (x ^^^ ONES * c.setWidth 32) ≠ 0 ↔ ∃ i < 4, byteOf x i = c) ∧
    (∀ gnuc m d s n c, Returns (memccpy gnuc m d s c n) (memccpyBytes m d s c n)) ∧
    ∀ m s len, m.bytes (s + len) = 0 →
      (∀ c, ∃ r, Returns (strchrnul m s c) r ∧ Returns (strchrnulBytes m s c) r) ∧
      (∀ gnuc d, (∀ i ≤ len, ∀ j ≤ len, s + i ≠ d + j) →
        ∃ r, Returns (stpcpy gnuc m d s) r ∧ Returns (stpcpyBytes m d s) r) ∧
      ∀ gnuc d n, (∀ i ≤ len, ∀ j ≤ len, j < n → s + i ≠ d + j) →
        ∃ r, Returns (strlcpy gnuc m d s n) r ∧ Returns (strlcpyBytes m d s n) r := by
  refine ⟨haszero_iff, haszero_xor_iff, memccpy_returns, fun m s len hnul ↦ ⟨?_, ?_, ?_⟩⟩
  · exact fun c ↦ strchrnul_returns hnul
  · exact fun gnuc d ↦ stpcpy_returns gnuc hnul
  · exact fun gnuc d n ↦ strlcpy_returns gnuc hnul

/-- A string of nine characters at 102, and room for it at 206. -/
def nineBytes : Memory := ⟨fun a ↦ if a < 111 then 0x61 else 0, fun _ ↦ false⟩

/-- The routines on it; `memccpy` stops behind the terminator. -/
theorem word_routines_nineBytes :
    (∃ m, Returns (memccpy true nineBytes 206 102 0 32) (m, some 216) ∧ m.bytes 214 = 0x61) ∧
    (∃ r, Returns (strchrnul nineBytes 102 0x62) r ∧
      Returns (strchrnulBytes nineBytes 102 0x62) r) ∧
    (∃ r, Returns (stpcpy true nineBytes 206 102) r ∧ Returns (stpcpyBytes nineBytes 206 102) r) ∧
    ∃ r, Returns (strlcpy true nineBytes 206 102 8) r ∧
      Returns (strlcpyBytes nineBytes 206 102 8) r := by
  have hcopied := word_routines.2.2.1 true nineBytes 206 102 32 0
  have h := word_routines.2.2.2 nineBytes 102 9 rfl
  refine ⟨⟨(memccpyBytes nineBytes 206 102 0 32).1, ?_, by decide +kernel⟩, h.1 0x62,
    h.2.1 true 206 fun i hi j hj ↦ by omega, h.2.2 true 206 8 fun i hi j hj hn ↦ by omega⟩
  have hend : (memccpyBytes nineBytes 206 102 0 32).2 = some 216 := by decide +kernel
  rwa [← hend]

end SceLibcPosix.Strings
