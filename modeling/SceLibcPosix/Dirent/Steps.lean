import SceLibcPosix.Dirent.Calls

namespace SceLibcPosix.Dirents

open Errno VitaError Programs Descriptor Heaps

structure Listing.Opened {σ : Type} (st : Listing σ) (s : Slot) (i : Entry) : Prop where
  opened : openAt st.table st.dir.fd = some (s, i)
  refs : 0 < (st.table.pool i).refCount

def Listing.handle {σ : Type} (st : Listing σ) (i : Entry) : ℤ := (st.table.pool i).sceUid

/-- What `readdir` makes of the answer of `sceFiosDHReadSync`. -/
def Listing.read {σ : Type} (net : NetErrno → ℤ) (st : Listing σ)
    (x : (ℤ × SceFiosDirEntry) × σ) : Option (Outcome × Listing σ) :=
  if x.1.1 < 0 then
    some (⟨0, some (sceErrnoToErrno net x.1.1 .FIOS)⟩, { st with kernel := x.2 })
  else if st.dir.dir.dName.length < x.1.2.nameLength then none
  else if x.1.1 = 0 then some (⟨0, none⟩, ⟨st.dir.store x.1.2, st.table, x.2⟩)
  else some (⟨1, none⟩,
    ⟨{ st.dir.store x.1.2 with index := st.dir.index + 1 }, st.table, x.2⟩)

section

variable {σ α β : Type} {net : NetErrno → ℤ} {K : Oracle σ} {st st' : Listing σ} {t : Table} {k : σ}
  {s : Slot} {i : Entry} {n : ℕ}

theorem run_storeUid (uid : ℤ) (p : Call α) :
    (ask (.storeUid i uid) >>= fun _ ↦ p).run (serve net K) (t, k) =
      p.run (serve net K) (t.setEntry i { t.pool i with sceUid := uid }, k) := rfl

theorem readdir_steps (h : st.Opened s i) :
    (readdir net (some st.dir)).run (serve net K) (st.table, st.kernel) =
      (st.read net (K (.dhRead i (st.handle i)) st.kernel)).map fun x ↦
        ((x.1, some x.2.dir), x.2.table, x.2.kernel) := by
  have huid : ((st.table.addRef i 1).pool i).sceUid = st.handle i := by
    simp [Table.addRef, Listing.handle]
  rw [readdir, run_withFd_some (fdGrab_open h.opened), run_kernel, huid]
  generalize K (.dhRead i (st.handle i)) st.kernel = x
  obtain ⟨⟨res, tempdir⟩, k⟩ := x
  dsimp only
  rw [run_drop_grabbed h.refs, Listing.read]
  by_cases hneg : res < 0
  · rw [if_pos hneg, if_pos hneg]
    rfl
  rw [if_neg hneg, if_neg hneg]
  by_cases hlong : st.dir.dir.dName.length < tempdir.nameLength
  · rw [if_pos hlong, if_pos hlong]
    rfl
  rw [if_neg hlong, if_neg hlong]
  by_cases hend : res = 0
  · rw [if_pos hend, if_pos hend]
    rfl
  · rw [if_neg hend, if_neg hend]
    rfl

theorem readdir_run (h : st.Opened s i) : st.run net K (readdir net) =
    st.read net (K (.dhRead i (st.handle i)) st.kernel) := by
  rw [Listing.run, readdir_steps h]
  cases st.read net (K (.dhRead i (st.handle i)) st.kernel) <;> rfl

theorem run_readdir_none (h : st.Opened s i) (hrun : st.run net K (readdir net) = none)
    (f : Outcome → Option Dir → Call (α × Option Dir)) :
    st.run net K (fun dirp ↦ readdir net dirp >>= fun x ↦ f x.1 x.2) = none := by
  rw [readdir_run h] at hrun
  rw [Listing.run, Program.run_bind, readdir_steps h, hrun]
  rfl

theorem Listing.Opened.read (h : st.Opened s i) {out : Outcome}
    (hrun : st.run net K (readdir net) = some (out, st')) :
    st'.table = st.table ∧ st'.dir.fd = st.dir.fd := by
  rw [readdir_run h, Listing.read] at hrun
  split at hrun
  · cases hrun
    exact ⟨rfl, rfl⟩
  split at hrun
  · cases hrun
  split at hrun
  · cases hrun
    exact ⟨rfl, rfl⟩
  · cases hrun
    exact ⟨rfl, rfl⟩

/-- The table with another handle in an entry. -/
def moved (t : Table) (i : Entry) (uid : ℤ) : Table :=
  t.setEntry i { t.pool i with sceUid := uid }

theorem moved_grabbed (uid : ℤ) : (t.addRef i 1).setEntry i
    { (t.addRef i 1).pool i with sceUid := uid } = (moved t i uid).addRef i 1 := by
  simp [moved, Table.addRef, Table.setEntry]

def Listing.reopen (K : Oracle σ) (st : Listing σ) (i : Entry) : (ℤ × ℤ) × σ :=
  let path := K (.use (some i) (st.handle i) .sceFiosDHGetPath) st.kernel
  K (.dhOpen path.1) path.2

def Listing.rewind (net : NetErrno → ℤ) (K : Oracle σ) (st : Listing σ) (i : Entry)
    (x : (ℤ × ℤ) × σ) : ℤ × Listing σ :=
  let dirfd := if x.1.1 < 0 then x.1.1 else x.1.2
  if dirfd < 0 then (sceErrnoToErrno net dirfd .FIOS, { st with kernel := x.2 })
  else (0, ⟨{ st.dir with index := 0 }, moved st.table i dirfd,
    (K (.use (some i) (st.handle i) .sceFiosDHCloseSync) x.2).2⟩)

theorem rewinddir_run (h : st.Opened s i) : st.run net K (rewinddir net) =
    some (st.rewind net K i (st.reopen K i)) := by
  have huid : ((st.table.addRef i 1).pool i).sceUid = st.handle i := by
    simp [Table.addRef, Listing.handle]
  have hrefs : 0 < ((moved st.table i (st.reopen K i).1.2).pool i).refCount := by
    simpa [moved] using h.refs
  have hreopen : ∀ path, path = K (.use (some i) (st.handle i) .sceFiosDHGetPath) st.kernel →
      K (.dhOpen path.1) path.2 = st.reopen K i := fun path h ↦ h ▸ rfl
  rw [Listing.run, rewinddir, run_withFd_some (fdGrab_open h.opened), use, run_kernel,
    run_kernel, huid, hreopen _ rfl, Listing.rewind]
  generalize st.reopen K i = x at hrefs ⊢
  obtain ⟨⟨ret, handle⟩, k⟩ := x
  dsimp only at hrefs ⊢
  by_cases hneg : (if ret < 0 then ret else handle) < 0
  · rw [if_pos hneg, if_pos hneg, run_drop_grabbed h.refs]
    rfl
  · rw [if_neg hneg, if_neg hneg, use, run_kernel, huid]
    have hhandle : (if ret < 0 then ret else handle) = handle := if_neg fun hret ↦ hneg (by
      rwa [if_pos hret])
    rw [hhandle, run_storeUid, moved_grabbed, run_drop_grabbed hrefs]
    rfl

end

end SceLibcPosix.Dirents
