import SceLibcPosix.Lib.Terminated
import SceLibcPosix.Strings.Copies

namespace SceLibcPosix.Strings

open Loops Function Terminated

/-- `memchr`: the first place with this character among the `n` from `s` on. -/
def memchr (m : Memory) (s : ℕ) (c : BitVec 8) (n : ℕ) : Option ℕ :=
  ((List.range n).find? fun i ↦ m.bytes (s + i) = c).map (s + ·)

def strnlen (m : Memory) (s n : ℕ) : ℕ :=
  match memchr m s 0 n with
  | some p => p - s
  | none => n

def strlcat (gnuc : Bool) (m : Memory) (d s n fuel : ℕ) : Option (Memory × ℕ) :=
  let l := strnlen m d n
  if l = n then (strlen fuel m s).map fun len ↦ (m, l + len)
  else (strlcpy gnuc m (d + l) s (n - l) fuel).map fun r ↦ (r.1, l + r.2)

section Copied

variable {m : Memory} {d s n k : ℕ} {l new old : List (BitVec 8)}

theorem kept_store (x : BitVec 8) : Kept d (k + 1) m.bytes (m.store d x).bytes :=
  kept_update d k x

theorem strlen_holds (h : Holds m.bytes s l) : Returns (fun fuel ↦ strlen fuel m s) l.length := by
  suffices hend : Loops.Ends (fun a ↦ if m.bytes a ≠ 0 then .next (a + 1) else .stop a) l.length s
      (s + l.length) by
    have hret := hend.returns.map (· - s)
    rwa [Nat.add_sub_cancel_left] at hret
  induction l generalizing s with
  | nil => exact .stop (if_neg (not_not.mpr h.2))
  | cons x l ih =>
    obtain ⟨hx, hne, -⟩ := h.1
    rw [List.length_cons, Nat.add_comm l.length, ← Nat.add_assoc, Nat.add_comm 1]
    exact .next (if_pos (hx ▸ hne)) (ih h.tail)

theorem copies (h : Holds m.bytes s new) (hclear : Clear d (k + 1) s new.length) :
    ∃ r, Loops.Ends (byteTurn 0) (min k new.length) ⟨m, d, s, some k⟩ r ∧
      r.d = d + min k new.length ∧ r.s = s + min k new.length ∧
      Spells r.m.bytes d (new.take k) ∧ Kept d (k + 1) m.bytes r.m.bytes := by
  induction new generalizing m d s k with
  | nil =>
    rw [List.length_nil, Nat.min_zero, List.take_nil]
    cases k with
    | zero => exact ⟨_, .stop rfl, rfl, rfl, trivial, fun _ _ ↦ rfl⟩
    | succ k =>
      refine ⟨_, .stop ((if_pos (by simp [Cursor.room])).trans (if_neg ?_)), rfl, rfl, trivial,
        kept_store _⟩
      exact not_not.mpr h.2
  | cons x l ih =>
    cases k with
    | zero =>
      rw [Nat.zero_min]
      exact ⟨_, .stop rfl, rfl, rfl, trivial, fun _ _ ↦ rfl⟩
    | succ k =>
      obtain ⟨hx, hne, -⟩ := h.1
      have hrest : Holds (m.store d x).bytes (s + 1) l := h.tail_update hclear
      obtain ⟨r, hends, hrd, hrs, hspells, hkept⟩ := ih hrest hclear.tail
      have hturn : byteTurn 0 ⟨m, d, s, some (k + 1)⟩ =
          .next ⟨m.store d x, d + 1, s + 1, some k⟩ := by
        have hbyte : (⟨m, d, s, some (k + 1)⟩ : Cursor).m.bytes s ≠ 0 := hx ▸ hne
        rw [byteTurn_of (by simp [Cursor.room]) hbyte]
        simp [Cursor.copy, Cursor.advance, hx]
      rw [List.length_cons, Nat.succ_min_succ]
      refine ⟨r, .next hturn hends, by omega, by omega, ⟨?_, hne, hspells⟩, ?_⟩
      · rw [hkept d (by omega)]
        exact Memory.bytes_store_self x
      · exact Kept.trans (kept_store x) (hkept.mono (by omega) (by omega))

theorem strlcpy_appends (gnuc : Bool) :
    Appends Memory.bytes (strlcpy gnuc) fun _ _ old ↦ old = [] := by
  rintro m d s n old new rfl hn hnew hclear
  obtain ⟨k, rfl⟩ : ∃ k, n = k + 1 := ⟨n - 1, by rw [List.length_nil] at hn; omega⟩
  obtain ⟨r, hends, hrd, hrs, hspells, hkept⟩ := copies hnew hclear
  have hend : r.d = d + (new.take k).length := by rw [hrd, List.length_take]
  have hholds : Holds (r.m.store r.d 0).bytes d (new.take k) := hend ▸ hspells.update
  have hkept' : Kept d (k + 1) m.bytes (r.m.store r.d 0).bytes := by
    refine hkept.trans (Kept.mono (kept_store 0 : Kept r.d (0 + 1) _ _) ?_ ?_) <;> omega
  have hlen : Returns (fun fuel ↦ strlen fuel (r.m.store r.d 0) r.s)
      (new.length - min k new.length) := by
    rw [← List.length_drop, hrs]
    exact strlen_holds ((hnew.kept hkept' hclear).drop (Nat.min_le_right _ _))
  have hsum : r.d - d + (new.length - min k new.length) = ([] : List (BitVec 8)).length +
      new.length := by
    rw [List.length_nil]
    omega
  refine ⟨_, hsum ▸ ?_, hholds, hkept'⟩
  cases gnuc with
  | false => exact strlcpy_bytes (Nat.succ_ne_zero k) hends hlen
  | true => exact strlcpy_words (Nat.succ_ne_zero k) hends hlen

theorem strnlen_holds (h : Holds m.bytes d old) (hlen : old.length < n) :
    strnlen m d n = old.length := by
  simp only [strnlen, memchr, h.find? hlen, Option.map_some, Nat.add_sub_cancel_left]

theorem strlcat_appends (gnuc : Bool) :
    Appends Memory.bytes (strlcat gnuc) fun m d old ↦ Holds m.bytes d old := by
  intro m d s n old new hold hlen hnew hclear
  have hroom : ([] : List (BitVec 8)).length < n - old.length := by
    rw [List.length_nil]
    omega
  have htail : Clear (d + old.length) (n - old.length) s new.length := by
    intro i hi
    have hout := hclear i hi
    omega
  obtain ⟨m', hret, hholds, hkept⟩ :=
    strlcpy_appends gnuc m (d + old.length) s (n - old.length) [] new rfl hroom hnew htail
  have hlast : n - old.length - 1 = n - 1 - old.length := by omega
  have htake : (old ++ new).take (n - 1) = old ++ new.take (n - old.length - 1) := by
    rw [List.take_append, List.take_of_length_le (by omega), hlast]
  rw [List.nil_append] at hholds
  refine ⟨m', ?_, ?_, hkept.mono (by omega) (by omega)⟩
  · have hcall : strlcat gnuc m d s n = fun fuel ↦
        (strlcpy gnuc m (d + old.length) s (n - old.length) fuel).map
          fun r ↦ (r.1, old.length + r.2) := by
      funext fuel
      simp only [strlcat, strnlen_holds hold hlen, if_neg (Nat.ne_of_lt hlen)]
    have hmap := hret.map fun r ↦ (r.1, old.length + r.2)
    rw [List.length_nil, Nat.zero_add] at hmap
    rw [hcall]
    exact hmap
  · rw [htake]
    exact (hold.1.congr fun i hi ↦ hkept _ (by omega)).append hholds

end Copied

/-- A buffer with room for `n` characters that is filled by `strlcpy` and `strlcat` has the first
`n - 1` characters of all the strings, whichever way they are copied; only the buffer has changed,
and a call has returned `n` or more if and only if something has been cut off. -/
theorem strlcat_builds (gnuc : Bool) (m : Memory) {d n s : ℕ} {l : List (BitVec 8)}
    {pieces : List (ℕ × List (BitVec 8))} (hn : 0 < n)
    (hpieces : ∀ p ∈ (s, l) :: pieces, Holds m.bytes p.1 p.2 ∧ Clear d n p.1 p.2.length) :
    ∃ m' m'' r rs, Returns (strlcpy gnuc m d s n) (m', r) ∧
      Terminated.Calls (strlcat gnuc) d n m' (pieces.map Prod.fst) m'' rs ∧
      Holds m''.bytes d ((l ++ (pieces.map Prod.snd).flatten).take (n - 1)) ∧
      Kept d n m.bytes m''.bytes ∧
      ((∀ q ∈ r :: rs, q < n) ↔ (l ++ (pieces.map Prod.snd).flatten).length < n) :=
  (strlcpy_appends gnuc).builds (strlcat_appends gnuc) m hn hpieces

def letterBytes : Memory := ⟨fun a ↦ if a % 4 = 0 then 0x61 else 0, fun _ ↦ false⟩

/-- Three letters in a buffer of three bytes are one too many. -/
theorem strlcat_builds_letters : ∃ m' m'' r rs,
    Returns (strlcpy true letterBytes 8 104 3) (m', r) ∧
      Terminated.Calls (strlcat true) 8 3 m' [108, 112] m'' rs ∧
      Holds m''.bytes 8 [0x61, 0x61] ∧ Kept 8 3 letterBytes.bytes m''.bytes ∧
      ((∀ q ∈ r :: rs, q < 3) ↔ 3 < 3) := by
  have hpieces : ∀ p ∈ (104, [0x61]) :: [(108, [0x61]), (112, [0x61])],
      Holds letterBytes.bytes p.1 p.2 ∧ Clear 8 3 p.1 p.2.length := by
    intro p hp
    have hp : p = (104, [0x61]) ∨ p = (108, [0x61]) ∨ p = (112, [0x61]) := by simpa using hp
    rcases hp with rfl | rfl | rfl <;>
      exact ⟨⟨⟨by decide, by decide, trivial⟩, by decide⟩, fun i hi ↦ by simp at hi ⊢; omega⟩
  exact strlcat_builds true letterBytes (by decide) hpieces

end SceLibcPosix.Strings
