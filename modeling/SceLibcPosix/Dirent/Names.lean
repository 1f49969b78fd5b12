import SceLibcPosix.Dirent.Reports

namespace SceLibcPosix.Dirents

open Errno VitaError Programs Descriptor Heaps

def nameIn (de : Dirent) : List UInt8 := de.dName.takeWhile (· ≠ 0)

/-- The name that the file system has stored. -/
def entryName (e : SceFiosDirEntry) : List UInt8 :=
  (e.fullPath.drop e.offsetToName).take e.nameLength

/-- A name of at most 255 characters, with its length. -/
structure Named (e : SceFiosDirEntry) : Prop where
  nonzero : 0 ∉ entryName e
  length : (entryName e).length = e.nameLength
  short : e.nameLength ≤ 255

/-- The entries that `readdir_r` copies out, up to the end of the listing. -/
inductive ListsR {σ : Type} (net : NetErrno → ℤ) (K : Oracle σ) :
    Listing σ → List Dirent → Prop
  | finish {st st' : Listing σ} (h : st.run net K (readdirR net) = some ((0, none), st')) :
    ListsR net K st []
  | entry {st st' : Listing σ} {de : Dirent} {ds : List Dirent}
    (h : st.run net K (readdirR net) = some ((0, some de), st')) (hrest : ListsR net K st' ds) :
    ListsR net K st (de :: ds)

/-- Where `scandir` has opened the stream, it copies these entries out, as far as it comes. -/
def Scans {σ : Type} (net : NetErrno → ℤ) (K : Oracle σ) (st : Listing σ) (ds : List Dirent) :
    Prop :=
  ∀ qsort grants r fuel t h k fullPath sel cmp p e h' x, Sorts qsort →
    opendir net t k fullPath h (grants 0) r = (some (p, st.dir), e, st.table, h') →
    scandir net K qsort grants r fuel t st.kernel h k fullPath sel cmp = some x →
    ∀ names ∈ x.res, ∃ l, (names.map Prod.snd).Perm l ∧ l <+: accepted sel ds

/-- `readdir`, `readdir_r` and `scandir` give out each entry with its own name. -/
def OwnNames {σ : Type} (net : NetErrno → ℤ) (K : Oracle σ) (entries : List SceFiosDirEntry)
    (st : Listing σ) : Prop :=
  ∃ ds, Lists net K st ds none ∧ ListsR net K st ds ∧ Scans net K st ds ∧
    ds.map nameIn = entries.map entryName

section

variable {σ : Type} {net : NetErrno → ℤ} {K : Oracle σ} {st st' : Listing σ} {ds : List Dirent}
  {e : SceFiosDirEntry} {es : List SceFiosDirEntry} {w : List UInt8} {n : ℕ}

def buffer (w : List UInt8) : List UInt8 := w ++ List.replicate (256 - w.length) 0

theorem takeWhile_append (hw : 0 ∉ w) (l : List UInt8) :
    (w ++ l).takeWhile (· ≠ 0) = w ++ l.takeWhile (· ≠ 0) :=
  List.takeWhile_append_of_pos fun _ hc ↦ decide_eq_true fun h ↦ hw (h ▸ hc)

theorem takeWhile_nonzero (hw : 0 ∉ w) : w.takeWhile (· ≠ 0) = w := by
  have happ := takeWhile_append hw []
  rwa [List.append_nil, List.takeWhile_nil, List.append_nil] at happ

theorem takeWhile_buffer (hw : 0 ∉ w) : (buffer w).takeWhile (· ≠ 0) = w := by
  have hzeros : (List.replicate (256 - w.length) (0 : UInt8)).takeWhile (· ≠ 0) = [] := by
    cases 256 - w.length with
    | zero => rfl
    | succ n => rfl
  rw [buffer, takeWhile_append hw, hzeros, List.append_nil]

theorem strncpy_buffer (he : Named e) :
    strncpy (buffer w) (e.fullPath.drop e.offsetToName) e.nameLength =
      buffer (entryName e ++ w.drop e.nameLength) := by
  have hlength := he.length
  have htake : (e.fullPath.drop e.offsetToName).take e.nameLength = entryName e := rfl
  have hzeros : 256 - w.length - (e.nameLength - w.length) =
      256 - (entryName e ++ w.drop e.nameLength).length := by
    rw [List.length_append, List.length_drop, hlength]
    omega
  simp only [strncpy, htake, takeWhile_nonzero he.nonzero, hlength, Nat.sub_self,
    List.replicate_zero, List.append_nil]
  rw [buffer, List.drop_append, List.drop_replicate, hzeros, buffer, List.append_assoc]

theorem pairwise_cons_cons {a b : ℕ} {l : List ℕ} :
    (a :: b :: l).Pairwise (· ≤ ·) ↔ a ≤ b ∧ (b :: l).Pairwise (· ≤ ·) := by
  rw [List.pairwise_cons, List.forall_mem_cons]
  refine ⟨fun h ↦ ⟨h.1.1, h.2⟩, fun h ↦ ⟨⟨h.1, fun c hc ↦ ?_⟩, h.2⟩⟩
  exact h.1.trans ((List.pairwise_cons.mp h.2).1 c hc)

/-- Each name comes out as it is if and only if none of them is shorter than one before it. -/
theorem delivered_names (hes : ∀ e ∈ es, Named e) (hw : 0 ∉ w) :
    (delivered (buffer w) es).map nameIn = es.map entryName ↔
      (w.length :: es.map SceFiosDirEntry.nameLength).Pairwise (· ≤ ·) := by
  induction es generalizing w with
  | nil => simp [delivered]
  | cons e es ih =>
    obtain ⟨he, hes⟩ := List.forall_mem_cons.mp hes
    have hname : 0 ∉ entryName e ++ w.drop e.nameLength := fun h ↦
      (List.mem_append.mp h).elim he.nonzero fun h ↦ hw (List.mem_of_mem_drop h)
    have hfirst : nameIn ⟨0, buffer (entryName e ++ w.drop e.nameLength)⟩ = entryName e ↔
        w.length ≤ e.nameLength := by
      rw [nameIn, takeWhile_buffer hname, List.append_right_eq_self, List.drop_eq_nil_iff]
    rw [delivered, strncpy_buffer he, List.map_cons, List.map_cons, List.map_cons,
      List.cons.injEq, hfirst, pairwise_cons_cons]
    refine and_congr_right fun hle ↦ ?_
    rw [List.drop_eq_nil_of_le hle, List.append_nil, ih hes he.nonzero, he.length]

theorem readdirR_run {out : Outcome} (hrun : st.run net K (readdir net) = some (out, st')) :
    st.run net K (readdirR net) =
      some (if out.errno.getD 0 ≠ 0 ∧ out.ret = 0 then (out.errno.getD 0, none)
        else if out.ret ≠ 0 then (0, some st'.dir.dir) else (0, none), st') := by
  have hbind := Listing.run_bind hrun fun out dirp ↦
    if out.errno.getD 0 ≠ 0 ∧ out.ret = 0 then pure ((out.errno.getD 0, none), dirp)
    else if out.ret ≠ 0 then pure ((0, dirp.map Dir.dir), dirp) else pure ((0, none), dirp)
  refine (Listing.run_congr rfl).trans (hbind.trans ?_)
  unfold Listing.run
  by_cases hfail : out.errno.getD 0 ≠ 0 ∧ out.ret = 0
  · simp only [if_pos hfail]
    rfl
  · by_cases hret : out.ret ≠ 0
    · simp only [if_neg hfail, if_pos hret]
      rfl
    · simp only [if_neg hfail, if_neg hret]
      rfl

theorem Lists.readdirR {last : Option ℤ} (h : Lists net K st ds last) (hlast : last = none) :
    ListsR net K st ds := by
  induction h with
  | @finish st st' out hrun hret =>
    refine @ListsR.finish σ net K st st' ?_
    rw [readdirR_run hrun, hlast]
    simp [hret]
  | @entry st st' out ds e hrun hret _ ih =>
    refine @ListsR.entry σ net K st st' st'.dir.dir ds ?_ (ih hlast)
    rw [readdirR_run hrun]
    simp [hret]

theorem Lists.scans {last : Option ℤ} (hlist : Lists net K st ds last) : Scans net K st ds := by
  intro qsort grants r fuel t h k fullPath sel cmp p e h' x hqsort hopen hscan names hnames
  cases hloop : scanLoop net K sel grants fuel st { heap := h', asked := 1 } with
  | none =>
    rw [scandir, hopen] at hscan
    dsimp only at hscan
    rw [hloop] at hscan
    cases hscan
  | some res =>
    obtain ⟨stop, st', s⟩ := res
    rw [scandir_opened hopen hloop] at hscan
    cases hscan
    unfold Scan.finish at hnames
    split at hnames
    · cases hnames
    · cases hnames
      refine ⟨s.records.map Prod.snd, (sorted_perm cmp hqsort s.records).1.map Prod.snd, ?_⟩
      exact scanLoop_prefix hlist hloop

theorem newDir_buffer (fd : ℤ) : (newDir fd).dir.dName = buffer [] := rfl

end

/-- A stream on a new handle of a directory with such names. -/
theorem own_names_iff {σ : Type} (net : NetErrno → ℤ) (K : Oracle σ)
    (entries : List SceFiosDirEntry) (pos : σ → ℤ → Option ℕ) (dirPath : ℤ)
    (hK : Directory entries K pos dirPath) (hfits : Fitting K pos)
    (hnamed : ∀ e ∈ entries, Named e) (fd : ℤ) (t : Table) (k : σ) (s : Slot) (i : Entry)
    (hopen : openAt t fd = some (s, i)) (href : 0 < (t.pool i).refCount)
    (hpos : pos k (t.pool i).sceUid = some 0) :
    OwnNames net K entries ⟨newDir fd, t, k⟩ ↔
      (entries.map SceFiosDirEntry.nameLength).Pairwise (· ≤ ·) := by
  have hat : (⟨newDir fd, t, k⟩ : Listing σ).At entries pos s i 0 :=
    ⟨⟨hopen, href⟩, rfl, hpos, Nat.zero_le _, List.length_replicate⟩
  have hlist := hat.lists net hK hfits
  rw [List.drop_zero, newDir_buffer] at hlist
  have hnames := delivered_names hnamed List.not_mem_nil
  have hzero :
      (([] : List UInt8).length :: entries.map SceFiosDirEntry.nameLength).Pairwise (· ≤ ·) ↔
        (entries.map SceFiosDirEntry.nameLength).Pairwise (· ≤ ·) := by
    rw [List.pairwise_cons]
    exact and_iff_right fun n _ ↦ Nat.zero_le n
  rw [← hzero, ← hnames]
  constructor
  · rintro ⟨ds, hds, -, -, hown⟩
    rw [(hlist.unique hds).1] at hown
    exact hown
  · exact fun hown ↦ ⟨_, hlist, hlist.readdirR rfl, hlist.scans, hown⟩

theorem own_names_twoNames :
    OwnNames 0 (volume twoNames) twoNames ⟨newDir 3, oneDirectory, [0]⟩ := by
  have hnamed : ∀ e ∈ twoNames, Named e := by
    rw [twoNames, List.forall_mem_cons, List.forall_mem_singleton]
    exact ⟨⟨by decide, rfl, by decide⟩, ⟨by decide, rfl, by decide⟩⟩
  have hiff := own_names_iff 0 (volume twoNames) twoNames volumePos 0 (volume_directory _ _)
    (volume_fitting (by decide)) hnamed 3 oneDirectory [0] 3 3 (by decide +kernel) (by decide) rfl
  exact hiff.mpr (by decide)

def longShort : List SceFiosDirEntry := [⟨2, 0, [97, 98, 0]⟩, ⟨1, 0, [99, 0]⟩]

/-- The last letter of the first name stands behind the second one. -/
theorem own_names_longShort :
    (∀ e ∈ longShort, Named e) ∧
      ¬ OwnNames 0 (volume longShort) longShort ⟨newDir 3, oneDirectory, [0]⟩ := by
  constructor
  · rw [longShort, List.forall_mem_cons, List.forall_mem_singleton]
    exact ⟨⟨by decide, rfl, by decide⟩, ⟨by decide, rfl, by decide⟩⟩
  rintro ⟨ds, hds, -, -, hown⟩
  have hlist := (oneDirectory_at longShort).lists 0 (volume_directory _ _)
    (volume_fitting (by decide))
  rw [(hlist.unique hds).1] at hown
  have hnames : (delivered (newDir 3).dir.dName longShort).map nameIn = [[97, 98], [99, 98]] := by
    decide +kernel
  have heq : [[97, 98], [99, 98]] = longShort.map entryName := hnames.symm.trans hown
  revert heq
  decide

end SceLibcPosix.Dirents
