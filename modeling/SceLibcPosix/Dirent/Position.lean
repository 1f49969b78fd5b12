import SceLibcPosix.Dirent.Steps

namespace SceLibcPosix.Dirents

open Errno VitaError Programs Descriptor Heaps

/-- What the routines on directories do where the directory does not change. `pos` gives the number
of entries that have been read from a handle of it, and `dirPath` is its path. -/
structure Directory {σ : Type} (entries : List SceFiosDirEntry) (K : Oracle σ)
    (pos : σ → ℤ → Option ℕ) (dirPath : ℤ) : Prop where
  next : ∀ i dh k n e, pos k dh = some n → entries[n]? = some e →
    0 < (K (.dhRead i dh) k).1.1 ∧ (K (.dhRead i dh) k).1.2 = e ∧
      pos (K (.dhRead i dh) k).2 dh = some (n + 1)
  finish : ∀ i dh k n, pos k dh = some n → entries[n]? = none →
    (K (.dhRead i dh) k).1.1 = 0 ∧ pos (K (.dhRead i dh) k).2 dh = some n
  path : ∀ i dh k n, pos k dh = some n →
    (K (.use (some i) dh .sceFiosDHGetPath) k).1 = dirPath ∧
      pos (K (.use (some i) dh .sceFiosDHGetPath) k).2 dh = some n
  refused : ∀ dh k n, pos k dh = some n → (K (.dhOpen dirPath) k).1.1 < 0 →
    pos (K (.dhOpen dirPath) k).2 dh = some n
  opened : ∀ k, 0 ≤ (K (.dhOpen dirPath) k).1.1 →
    0 ≤ (K (.dhOpen dirPath) k).1.2 ∧ pos k (K (.dhOpen dirPath) k).1.2 = none ∧
      pos (K (.dhOpen dirPath) k).2 (K (.dhOpen dirPath) k).1.2 = some 0
  close : ∀ i dh dh' k n, dh' ≠ dh → pos k dh' = some n →
    pos (K (.use (some i) dh .sceFiosDHCloseSync) k).2 dh' = some n

/-- What stands in the record of `readdir` after the read, an entry or what was there before, has a
name that fits into `d_name`. -/
def Fitting {σ : Type} (K : Oracle σ) (pos : σ → ℤ → Option ℕ) : Prop :=
  ∀ i dh k n, pos k dh = some n → (K (.dhRead i dh) k).1.2.nameLength ≤ 256

def Listing.Fits {σ : Type} (K : Oracle σ) (i : Entry) (st : Listing σ) : Prop :=
  (K (.dhRead i (st.handle i)) st.kernel).1.2.nameLength ≤ 256

/-- The index of the stream and the handle agree. -/
structure Listing.At {σ : Type} (entries : List SceFiosDirEntry) (pos : σ → ℤ → Option ℕ) (s : Slot)
    (i : Entry) (st : Listing σ) (n : ℕ) : Prop extends st.Opened s i where
  index : st.dir.index = n
  position : pos st.kernel (st.handle i) = some n
  within : n ≤ entries.length
  buffer : st.dir.dir.dName.length = 256

inductive StreamCall
  | readdir
  | telldir
  | seekdir (index : ℤ)
  | rewinddir
deriving DecidableEq, Repr

inductive Returned
  | entry (de : Option Dirent)
  | position (n : ℤ)
  | nothing
deriving DecidableEq, Repr

inductive Step {σ : Type} (net : NetErrno → ℤ) (K : Oracle σ) :
    Listing σ → StreamCall → Returned → Listing σ → Prop
  | readdir {st st' : Listing σ} {out : Outcome}
    (h : st.run net K (Descriptor.readdir net) = some (out, st')) :
    Step net K st .readdir (.entry (if out.ret = 0 then none else some st'.dir.dir)) st'
  | telldir (st : Listing σ) :
    Step net K st .telldir (.position (Dirents.telldir (some st.dir)).ret) st
  | seekdir {st st' : Listing σ} {fuel : ℕ} {index : ℤ} {e : Option ℤ}
    (h : st.run net K (Dirents.seekdir net fuel index) = some (some e, st')) :
    Step net K st (.seekdir index) .nothing st'
  | rewinddir {st st' : Listing σ} {e : ℤ}
    (h : st.run net K (Descriptor.rewinddir net) = some (e, st')) :
    Step net K st .rewinddir .nothing st'

inductive Run {σ : Type} (net : NetErrno → ℤ) (K : Oracle σ) (st : Listing σ) :
    List (StreamCall × Returned) → Listing σ → Prop
  | refl : Run net K st [] st
  | tail {log : List (StreamCall × Returned)} {st' st'' : Listing σ} {c : StreamCall}
    {r : Returned} (h : Run net K st log st') (hstep : Step net K st' c r st'') :
    Run net K st (log ++ [(c, r)]) st''

/-- The names fit in all that the calls can lead to. -/
def Listing.Safe {σ : Type} (net : NetErrno → ℤ) (K : Oracle σ) (i : Entry) (st : Listing σ) :
    Prop :=
  ∀ st', Relation.ReflTransGen (fun st st' ↦ ∃ c r, Step net K st c r st') st st' → st'.Fits K i

section

variable {σ α β : Type} {net : NetErrno → ℤ} {K : Oracle σ} {entries : List SceFiosDirEntry}
  {pos : σ → ℤ → Option ℕ} {dirPath : ℤ} {st st' : Listing σ} {s : Slot} {i : Entry} {n : ℕ}

theorem Listing.Safe.step {c : StreamCall} {r : Returned} (h : st.Safe net K i)
    (hstep : Step net K st c r st') : st'.Safe net K i :=
  fun st'' hreach ↦ h st'' (.head ⟨c, r, hstep⟩ hreach)

theorem strncpy_length {dst src : List UInt8} {n : ℕ} (h : n ≤ dst.length) :
    (strncpy dst src n).length = dst.length := by
  have hle : ((src.take n).takeWhile (· ≠ 0)).length ≤ n :=
    (List.takeWhile_sublist _).length_le.trans (List.length_take_le _ _)
  simp only [strncpy, List.length_append, List.length_replicate, List.length_drop]
  omega

theorem store_length {dir : Dir} {e : SceFiosDirEntry} (h : e.nameLength ≤ dir.dir.dName.length) :
    (dir.store e).dir.dName.length = dir.dir.dName.length := strncpy_length h

theorem Listing.At.fits (hK : Fitting K pos) (h : st.At entries pos s i n) : st.Fits K i :=
  hK i _ _ _ h.position

theorem Listing.At.read_next (net : NetErrno → ℤ) (hK : Directory entries K pos dirPath)
    (h : st.At entries pos s i n) (hfits : st.Fits K i) {e : SceFiosDirEntry}
    (he : entries[n]? = some e) :
    ∃ k, st.run net K (readdir net) =
        some (⟨1, none⟩, ⟨{ st.dir.store e with index := n + 1 }, st.table, k⟩) ∧
      (⟨{ st.dir.store e with index := n + 1 }, st.table, k⟩ : Listing σ).At entries pos s i
        (n + 1) := by
  obtain ⟨hpos, heq, hnext⟩ := hK.next i _ _ _ e h.position he
  unfold Listing.Fits at hfits
  refine ⟨_, ?_, ⟨h.opened, h.refs⟩, rfl, hnext, ?_, ?_⟩
  · rw [readdir_run h.toOpened, Listing.read, heq, if_neg (by omega), h.buffer,
      if_neg (by rw [← heq]; omega), if_neg (by omega), h.index]
  · exact (List.getElem?_eq_some_iff.mp he).1
  · rw [heq] at hfits
    exact (store_length (h.buffer ▸ hfits)).trans h.buffer

theorem Listing.At.read_end (net : NetErrno → ℤ) (hK : Directory entries K pos dirPath)
    (h : st.At entries pos s i n) (hfits : st.Fits K i) (he : entries[n]? = none) :
    ∃ e k, st.run net K (readdir net) =
        some (⟨0, none⟩, ⟨st.dir.store e, st.table, k⟩) ∧
      (⟨st.dir.store e, st.table, k⟩ : Listing σ).At entries pos s i n := by
  obtain ⟨hzero, hsame⟩ := hK.finish i _ _ _ h.position he
  unfold Listing.Fits at hfits
  refine ⟨(K (.dhRead i (st.handle i)) st.kernel).1.2, (K (.dhRead i (st.handle i)) st.kernel).2,
    ?_, ⟨h.opened, h.refs⟩, h.index, hsame, h.within, ?_⟩
  · rw [readdir_run h.toOpened, Listing.read, if_neg (by omega), h.buffer, if_neg (by omega),
      if_pos hzero]
  · exact (store_length (h.buffer ▸ hfits)).trans h.buffer

theorem Listing.At.fits_of_run (hK : Directory entries K pos dirPath)
    (h : st.At entries pos s i n) {out : Outcome}
    (hrun : st.run net K (readdir net) = some (out, st')) : st.Fits K i := by
  have hret : 0 ≤ (K (.dhRead i (st.handle i)) st.kernel).1.1 := by
    cases he : entries[n]? with
    | some e => exact (hK.next i _ _ _ e h.position he).1.le
    | none => exact (hK.finish i _ _ _ h.position he).1.ge
  by_contra hlong
  unfold Listing.Fits at hlong
  rw [readdir_run h.toOpened, Listing.read, if_neg (by omega), h.buffer, if_pos (by omega)] at hrun
  cases hrun

theorem Directory.reopen (hK : Directory entries K pos dirPath)
    (h : pos st.kernel (st.handle i) = some n) :
    ((st.reopen K i).1.1 < 0 → pos (st.reopen K i).2 (st.handle i) = some n) ∧
    (0 ≤ (st.reopen K i).1.1 → 0 ≤ (st.reopen K i).1.2 ∧ (st.reopen K i).1.2 ≠ st.handle i ∧
      pos (st.reopen K i).2 (st.reopen K i).1.2 = some 0) := by
  obtain ⟨hpath, hpos⟩ := hK.path i _ _ _ h
  rw [Listing.reopen, hpath]
  refine ⟨hK.refused _ _ _ hpos, fun hret ↦ ?_⟩
  obtain ⟨hhandle, hnew, hzero⟩ := hK.opened _ hret
  refine ⟨hhandle, fun heq ↦ ?_, hzero⟩
  rw [heq, hpos] at hnew
  cases hnew

theorem Listing.At.rewind_refused (net : NetErrno → ℤ) (hK : Directory entries K pos dirPath)
    (h : st.At entries pos s i n) (hret : (st.reopen K i).1.1 < 0) :
    ∃ e, st.run net K (rewinddir net) = some (e, { st with kernel := (st.reopen K i).2 }) ∧
      ({ st with kernel := (st.reopen K i).2 } : Listing σ).At entries pos s i n := by
  have hrun : st.run net K (rewinddir net) = some (sceErrnoToErrno net (st.reopen K i).1.1 .FIOS,
      { st with kernel := (st.reopen K i).2 }) := by
    rw [rewinddir_run h.toOpened, Listing.rewind, if_pos hret, if_pos hret]
  exact ⟨_, hrun, ⟨h.opened, h.refs⟩, h.index, (hK.reopen h.position).1 hret, h.within, h.buffer⟩

theorem Listing.At.rewind_opened (net : NetErrno → ℤ) (hK : Directory entries K pos dirPath)
    (h : st.At entries pos s i n) (hret : 0 ≤ (st.reopen K i).1.1) :
    ∃ st', st.run net K (rewinddir net) = some (0, st') ∧ st'.At entries pos s i 0 := by
  obtain ⟨hhandle, hnew, hzero⟩ := (hK.reopen h.position).2 hret
  refine ⟨⟨{ st.dir with index := 0 }, moved st.table i (st.reopen K i).1.2,
    (K (.use (some i) (st.handle i) .sceFiosDHCloseSync) (st.reopen K i).2).2⟩, ?_,
    ⟨h.opened, ?_⟩, rfl, ?_, Nat.zero_le _, h.buffer⟩
  · rw [rewinddir_run h.toOpened, Listing.rewind, if_neg (not_lt.mpr hret),
      if_neg (not_lt.mpr hhandle)]
  · simpa [moved] using h.refs
  · have huid : (Listing.handle ⟨{ st.dir with index := 0 },
        moved st.table i (st.reopen K i).1.2, (K (.use (some i) (st.handle i)
          .sceFiosDHCloseSync) (st.reopen K i).2).2⟩ i) = (st.reopen K i).1.2 := by
      simp [Listing.handle, moved]
    rw [huid]
    exact hK.close i _ _ _ _ hnew hzero

theorem Listing.run_bind {p : Option Dir → Call (α × Option Dir)} {a : α}
    (h : st.run net K p = some (a, st')) (f : α → Option Dir → Call (β × Option Dir)) :
    st.run net K (fun dirp ↦ p dirp >>= fun x ↦ f x.1 x.2) = st'.run net K (f a) := by
  unfold Listing.run at h ⊢
  rw [Program.run_bind]
  split at h
  · next heq =>
    cases h
    rw [heq]
    rfl
  · cases h

theorem Listing.run_congr {p q : Option Dir → Call (α × Option Dir)}
    (h : p (some st.dir) = q (some st.dir)) : st.run net K p = st.run net K q := by
  unfold Listing.run
  rw [h]

theorem Listing.run_seekLoop_none (h : st.Opened s i) {index : ℤ} (hindex : index ≠ st.dir.index)
    (fuel : ℕ) (e : Option ℤ) (hrun : st.run net K (readdir net) = none) :
    st.run net K (seekLoop net index (fuel + 1) e) = none := by
  refine (Listing.run_congr ?_).trans (run_readdir_none h hrun fun out dirp ↦
    if out.ret = 0 then pure (some (some ENOENT), dirp) else seekLoop net index fuel e dirp)
  rw [seekLoop, if_neg hindex]

theorem Listing.run_seekLoop {index : ℤ} (hindex : index ≠ st.dir.index) (fuel : ℕ) (e : Option ℤ)
    {out : Outcome} (h : st.run net K (readdir net) = some (out, st')) :
    st.run net K (seekLoop net index (fuel + 1) e) =
      if out.ret = 0 then some (some (some ENOENT), st')
      else st'.run net K (seekLoop net index fuel e) := by
  have hbind := Listing.run_bind h fun out dirp ↦
    if out.ret = 0 then pure (some (some ENOENT), dirp) else seekLoop net index fuel e dirp
  refine (Listing.run_congr ?_).trans (hbind.trans ?_)
  · rw [seekLoop, if_neg hindex]
  · split <;> simp [Listing.run]

/-- Wherever the loop of `seekdir` stops, it has come to its index or to the end. -/
theorem Listing.At.seekLoop (hK : Directory entries K pos dirPath) {index : ℤ} {fuel : ℕ}
    {e : Option ℤ} {r : Option (Option ℤ)} (h : st.At entries pos s i n) (hindex : n ≤ index)
    (hrun : st.run net K (seekLoop net index fuel e) = some (r, st')) :
    ∃ m, st'.At entries pos s i m ∧ (r ≠ none → (m : ℤ) = min index entries.length) ∧
      (entries.length - n < fuel → r ≠ none) := by
  induction fuel generalizing st n with
  | zero =>
    cases hrun
    exact ⟨n, h, fun h ↦ absurd rfl h, fun h ↦ absurd h (Nat.not_lt_zero _)⟩
  | succ fuel ih =>
    have hwithin := h.within
    by_cases hat : index = st.dir.index
    · have hstop : st.run net K (Dirents.seekLoop net index (fuel + 1) e) = some (some e, st) := by
        unfold Listing.run
        simp [Dirents.seekLoop, hat]
      cases hstop.symm.trans hrun
      refine ⟨n, h, fun _ ↦ ?_, fun _ ↦ nofun⟩
      rw [hat, h.index]
      omega
    have hne : index ≠ n := fun heq ↦ hat (heq.trans h.index.symm)
    cases hread : st.run net K (readdir net) with
    | none =>
      rw [Listing.run_seekLoop_none h.toOpened hat fuel e hread] at hrun
      cases hrun
    | some x =>
      obtain ⟨out, st₁⟩ := x
      rw [Listing.run_seekLoop hat fuel e hread] at hrun
      have hfits := h.fits_of_run hK hread
      cases he : entries[n]? with
      | some a =>
        obtain ⟨k, hrun', hnext⟩ := h.read_next net hK hfits he
        cases hread.symm.trans hrun'
        rw [if_neg (by decide)] at hrun
        obtain ⟨m, hm, hstop, hfuel⟩ := ih hnext (by omega) hrun
        refine ⟨m, hm, hstop, fun hlt ↦ hfuel ?_⟩
        have := (List.getElem?_eq_some_iff.mp he).1
        omega
      | none =>
        obtain ⟨a, k, hrun', hend⟩ := h.read_end net hK hfits he
        have hlen := List.getElem?_eq_none_iff.mp he
        cases hread.symm.trans hrun'
        rw [if_pos rfl] at hrun
        cases hrun
        exact ⟨n, hend, fun _ ↦ by omega, fun _ ↦ nofun⟩

theorem Listing.At.seekLoop_returns (hK : Directory entries K pos dirPath) {index : ℤ} (fuel : ℕ)
    (e : Option ℤ) (h : st.At entries pos s i n) (hsafe : st.Safe net K i) :
    ∃ x, st.run net K (Dirents.seekLoop net index fuel e) = some x := by
  induction fuel generalizing st n with
  | zero => exact ⟨_, rfl⟩
  | succ fuel ih =>
    by_cases hat : index = st.dir.index
    · refine ⟨(some e, st), ?_⟩
      unfold Listing.run
      simp [Dirents.seekLoop, hat]
    cases he : entries[n]? with
    | some a =>
      obtain ⟨k, hrun, hnext⟩ := h.read_next net hK (hsafe st .refl) he
      rw [Listing.run_seekLoop hat fuel e hrun, if_neg (by decide)]
      exact ih hnext (hsafe.step (.readdir hrun))
    | none =>
      obtain ⟨a, k, hrun, -⟩ := h.read_end net hK (hsafe st .refl) he
      rw [Listing.run_seekLoop hat fuel e hrun, if_pos rfl]
      exact ⟨_, rfl⟩

theorem Listing.run_seekdir {index : ℤ} {e : Option ℤ} (fuel : ℕ)
    (h : st.run net K (fun _ ↦ seekBack net index st.dir) = some (e, st')) :
    st.run net K (seekdir net fuel index) =
      if index < st'.dir.index then some (some e, st')
      else st'.run net K (seekLoop net index fuel e) := by
  refine (Listing.run_congr ?_).trans ((Listing.run_bind h (seekRest net index fuel)).trans ?_)
  · rfl
  · unfold Listing.run
    rw [seekRest]
    by_cases hback : index < st'.dir.index
    · rw [if_pos hback, if_pos hback]
      rfl
    · rw [if_neg hback, if_neg hback]

theorem Listing.run_seekBack {index : ℤ} (hindex : index < st.dir.index) {e : ℤ}
    (h : st.run net K (rewinddir net) = some (e, st')) :
    st.run net K (fun _ ↦ seekBack net index st.dir) = some (some e, st') := by
  have hbind := Listing.run_bind h fun e dirp ↦ pure (some e, dirp)
  refine (Listing.run_congr ?_).trans (hbind.trans rfl)
  rw [seekBack, if_pos hindex]

theorem Listing.At.seekBack (net : NetErrno → ℤ) (hK : Directory entries K pos dirPath)
    (h : st.At entries pos s i n) (index : ℤ) :
    ∃ e st' m, st.run net K (fun _ ↦ seekBack net index st.dir) = some (e, st') ∧
      st'.At entries pos s i m ∧
      ((index < st.dir.index → 0 ≤ (st.reopen K i).1.1) → 0 ≤ index → (m : ℤ) ≤ index) ∧
      (st' = st ∨ ∃ r, Step net K st .rewinddir r st') := by
  by_cases hindex : index < st.dir.index
  · by_cases hret : 0 ≤ (st.reopen K i).1.1
    · obtain ⟨st', hrun, h'⟩ := h.rewind_opened net hK hret
      exact ⟨_, st', 0, Listing.run_seekBack hindex hrun, h', fun _ hpos ↦ hpos,
        .inr ⟨_, .rewinddir hrun⟩⟩
    · obtain ⟨e, hrun, h'⟩ := h.rewind_refused net hK (not_le.mp hret)
      exact ⟨_, _, n, Listing.run_seekBack hindex hrun, h', fun hopen ↦ absurd (hopen hindex) hret,
        .inr ⟨_, .rewinddir hrun⟩⟩
  · refine ⟨none, st, n, ?_, h, fun _ _ ↦ by rw [← h.index]; omega, .inl rfl⟩
    unfold Listing.run
    rw [Dirents.seekBack, if_neg hindex]
    rfl

theorem Listing.At.seekdir (hK : Directory entries K pos dirPath) (h : st.At entries pos s i n)
    {fuel : ℕ} {index : ℤ} {r : Option (Option ℤ)}
    (hrun : st.run net K (seekdir net fuel index) = some (r, st')) :
    ∃ m, st'.At entries pos s i m ∧ (entries.length < fuel → r ≠ none) ∧
      (r ≠ none → 0 ≤ index → index ≤ entries.length →
        (index < st.dir.index → 0 ≤ (st.reopen K i).1.1) → (m : ℤ) = index) := by
  obtain ⟨e, st₁, n₁, hback, h₁, hle, -⟩ := h.seekBack net hK index
  rw [Listing.run_seekdir fuel hback] at hrun
  by_cases hlt : index < st₁.dir.index
  · rw [if_pos hlt] at hrun
    cases hrun
    refine ⟨n₁, h₁, fun _ ↦ nofun, fun _ hpos _ hopen ↦ ?_⟩
    have := hle hopen hpos
    have := h₁.index
    omega
  · rw [if_neg hlt] at hrun
    obtain ⟨m, hm, hstop, hfuel⟩ := h₁.seekLoop hK (by rw [← h₁.index]; omega) hrun
    refine ⟨m, hm, fun hlen ↦ hfuel (by omega), fun hr _ hlen _ ↦ ?_⟩
    have := hstop hr
    omega

theorem Listing.At.seekdir_returns (hK : Directory entries K pos dirPath)
    (h : st.At entries pos s i n) (hsafe : st.Safe net K i) (fuel : ℕ) (index : ℤ) :
    ∃ x, st.run net K (Dirents.seekdir net fuel index) = some x := by
  obtain ⟨e, st₁, n₁, hback, h₁, -, hstep⟩ := h.seekBack net hK index
  have hsafe₁ : st₁.Safe net K i := by
    obtain rfl | ⟨r, hrewind⟩ := hstep
    · exact hsafe
    · exact hsafe.step hrewind
  rw [Listing.run_seekdir fuel hback]
  split
  · exact ⟨_, rfl⟩
  · exact h₁.seekLoop_returns hK fuel e hsafe₁

theorem Listing.At.readdir (net : NetErrno → ℤ) (hK : Directory entries K pos dirPath)
    (h : st.At entries pos s i n) (hfits : st.Fits K i) :
    ∃ out st' m, st.run net K (Descriptor.readdir net) = some (out, st') ∧
      st'.At entries pos s i m := by
  cases he : entries[n]? with
  | some e =>
    obtain ⟨k, hrun, hnext⟩ := h.read_next net hK hfits he
    exact ⟨_, _, n + 1, hrun, hnext⟩
  | none =>
    obtain ⟨e, k, hrun, hend⟩ := h.read_end net hK hfits he
    exact ⟨_, _, n, hrun, hend⟩

theorem Listing.At.rewinddir (net : NetErrno → ℤ) (hK : Directory entries K pos dirPath)
    (h : st.At entries pos s i n) :
    ∃ e st' m, st.run net K (Descriptor.rewinddir net) = some (e, st') ∧
      st'.At entries pos s i m := by
  by_cases hret : 0 ≤ (st.reopen K i).1.1
  · obtain ⟨st', hrun, hzero⟩ := h.rewind_opened net hK hret
    exact ⟨0, st', 0, hrun, hzero⟩
  · obtain ⟨e, hrun, hn⟩ := h.rewind_refused net hK (not_le.mp hret)
    exact ⟨e, _, n, hrun, hn⟩

theorem Step.at (hK : Directory entries K pos dirPath) (h : st.At entries pos s i n)
    {c : StreamCall} {r : Returned} (hstep : Step net K st c r st') :
    ∃ m, st'.At entries pos s i m := by
  cases hstep with
  | readdir hrun =>
    obtain ⟨out, st'', m, hrun', hm⟩ := h.readdir net hK (h.fits_of_run hK hrun)
    cases hrun.symm.trans hrun'
    exact ⟨m, hm⟩
  | telldir => exact ⟨n, h⟩
  | seekdir hrun =>
    obtain ⟨m, hm, -⟩ := h.seekdir hK hrun
    exact ⟨m, hm⟩
  | rewinddir hrun =>
    obtain ⟨e, st'', m, hrun', hm⟩ := h.rewinddir net hK
    cases hrun.symm.trans hrun'
    exact ⟨m, hm⟩

theorem Step.telldir_inv {r : Returned} (h : Step net K st .telldir r st') :
    r = .position st.dir.index ∧ st' = st := by
  cases h
  exact ⟨rfl, rfl⟩

theorem Listing.At.step (hK : Directory entries K pos dirPath) (h : st.At entries pos s i n)
    (hsafe : st.Safe net K i) (c : StreamCall) : ∃ r st', Step net K st c r st' := by
  cases c with
  | readdir =>
    obtain ⟨out, st', m, hrun, -⟩ := h.readdir net hK (hsafe st .refl)
    exact ⟨_, _, .readdir hrun⟩
  | telldir => exact ⟨_, _, .telldir st⟩
  | seekdir index =>
    obtain ⟨⟨r, st'⟩, hrun⟩ := h.seekdir_returns hK hsafe (entries.length + 1) index
    obtain ⟨m, -, hfuel, -⟩ := h.seekdir hK hrun
    obtain ⟨e, rfl⟩ := Option.ne_none_iff_exists'.mp (hfuel (Nat.lt_succ_self _))
    exact ⟨_, _, .seekdir hrun⟩
  | rewinddir =>
    obtain ⟨e, st', m, hrun, -⟩ := h.rewinddir net hK
    exact ⟨_, _, .rewinddir hrun⟩

theorem Run.at (hK : Directory entries K pos dirPath) (h : st.At entries pos s i n)
    {log : List (StreamCall × Returned)} (hrun : Run net K st log st') :
    (∃ m, st'.At entries pos s i m) ∧
      ∀ p : ℤ, (.telldir, .position p) ∈ log → 0 ≤ p ∧ p ≤ entries.length := by
  induction hrun with
  | refl => exact ⟨⟨n, h⟩, fun p hp ↦ by cases hp⟩
  | tail _ hstep ih =>
    obtain ⟨⟨m, hm⟩, htell⟩ := ih
    refine ⟨hstep.at hK hm, fun p hp ↦ ?_⟩
    rcases List.mem_append.mp hp with hp | hp
    · exact htell p hp
    · obtain ⟨rfl, rfl⟩ := Prod.mk.inj (List.mem_singleton.mp hp)
      have hp := Returned.position.inj hstep.telldir_inv.1
      have := hm.index
      have := hm.within
      omega

end

/-- A kernel with one directory, whose handles are numbered. Its state are their positions. A read
at the end of the listing leaves `rest` in the record. -/
def volumeLeaving (rest : SceFiosDirEntry) (entries : List SceFiosDirEntry) : Oracle (List ℕ)
  | .dhRead _ dh, k =>
    match entries[k.getD dh.toNat 0]? with
    | some e => ((1, e), k.set dh.toNat (k.getD dh.toNat 0 + 1))
    | none => ((0, rest), k)
  | .dhOpen _, k => ((0, k.length), k ++ [0])
  | q, k => (q.quiet, k)

def volume (entries : List SceFiosDirEntry) : Oracle (List ℕ) := volumeLeaving ⟨0, 0, []⟩ entries

def volumePos (k : List ℕ) (dh : ℤ) : Option ℕ := if 0 ≤ dh then k[dh.toNat]? else none

theorem volumePos_some {k : List ℕ} {dh : ℤ} {n : ℕ} (h : volumePos k dh = some n) :
    k[dh.toNat]? = some n ∧ k.getD dh.toNat 0 = n := by
  unfold volumePos at h
  split at h
  · exact ⟨h, by rw [List.getD_eq_getElem?_getD, h]; rfl⟩
  · cases h

section

variable {rest e : SceFiosDirEntry} {entries : List SceFiosDirEntry} {i : Entry} {dh : ℤ}
  {k : List ℕ} {n : ℕ}

theorem volume_next (hpos : volumePos k dh = some n) (he : entries[n]? = some e) :
    volumeLeaving rest entries (.dhRead i dh) k = ((1, e), k.set dh.toNat (n + 1)) := by
  simp only [volumeLeaving, (volumePos_some hpos).2, he]

theorem volume_end (hpos : volumePos k dh = some n) (he : entries[n]? = none) :
    volumeLeaving rest entries (.dhRead i dh) k = ((0, rest), k) := by
  simp only [volumeLeaving, (volumePos_some hpos).2, he]

end

theorem volume_directory (rest : SceFiosDirEntry) (entries : List SceFiosDirEntry) :
    Directory entries (volumeLeaving rest entries) volumePos 0 where
  next := by
    intro i dh k n e hpos he
    have hlt := (List.getElem?_eq_some_iff.mp (volumePos_some hpos).1).1
    rw [volume_next hpos he]
    refine ⟨Int.one_pos, rfl, ?_⟩
    unfold volumePos at hpos ⊢
    split at hpos
    · next hdh => rw [if_pos hdh, List.getElem?_set_self hlt]
    · cases hpos
  finish := by
    intro i dh k n hpos he
    rw [volume_end hpos he]
    exact ⟨rfl, hpos⟩
  path := fun i dh k n hpos ↦ ⟨rfl, hpos⟩
  refused := fun dh k n _ hret ↦ absurd hret (Int.lt_irrefl 0)
  opened := by
    intro k _
    simp [volumeLeaving, volumePos]
  close := fun i dh dh' k n _ hpos ↦ hpos

theorem volume_fitting {entries : List SceFiosDirEntry} (h : ∀ e ∈ entries, e.nameLength ≤ 256) :
    Fitting (volume entries) volumePos := by
  intro i dh k n hpos
  simp only [volume, volumeLeaving, (volumePos_some hpos).2]
  split
  · next e he => exact h e (List.mem_of_getElem? he)
  · exact Nat.zero_le _

def twoNames : List SceFiosDirEntry := [⟨1, 0, [97, 0]⟩, ⟨1, 0, [98, 0]⟩]

def oneDirectory : Table := ((initFd 0 1 2).setSlot 3 (some 3)).setEntry 3 ⟨0, .DIRECTORY, 1⟩

theorem oneDirectory_at (entries : List SceFiosDirEntry) :
    (⟨newDir 3, oneDirectory, [0]⟩ : Listing (List ℕ)).At entries volumePos 3 3 0 :=
  ⟨⟨by decide +kernel, by decide⟩, rfl, rfl, Nat.zero_le _, List.length_replicate⟩

end SceLibcPosix.Dirents
