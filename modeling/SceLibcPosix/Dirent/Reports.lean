import SceLibcPosix.Dirent.Scandir

namespace SceLibcPosix.Dirents

open Errno VitaError Programs Descriptor Heaps

/-- A comparison function for `qsort`. -/
structure Consistent (cmp : Dirent → Dirent → ℤ) : Prop where
  total : ∀ a b, cmp a b ≤ 0 ∨ cmp b a ≤ 0
  trans : ∀ a b c, cmp a b ≤ 0 → cmp b c ≤ 0 → cmp a c ≤ 0

def Ordered (cmp : Dirent → Dirent → ℤ) (l : List (Pointer × Dirent)) : Prop :=
  l.Pairwise fun x y ↦ cmp x.2 y.2 ≤ 0

def Sorts (qsort : (Dirent → Dirent → ℤ) → List (Pointer × Dirent) → List (Pointer × Dirent)) :
    Prop :=
  ∀ cmp l, (qsort cmp l).Perm l ∧ (Consistent cmp → Ordered cmp (qsort cmp l))

def Scanned.Failed (x : Scanned) : Prop :=
  x.stop = none ∨ (∃ e, x.stop = some (.readdir e)) ∨ x.stop = some .noMemory ∨ x.closed = -1

/-- `scandir` tells its caller what has become of a directory with the entries `ds`. -/
structure Reports (sel : Option (Dirent → Bool)) (cmp : Option (Dirent → Dirent → ℤ))
    (ds : List Dirent) (h : Heap) (x : Scanned) : Prop where
  failure : x.ret = -1 ↔ x.Failed
  undone : x.ret = -1 → x.res = none ∧ ∀ p, x.heap.Live p ↔ h.Live p
  listing : x.ret ≠ -1 → ∃ names, x.res = some names ∧ x.ret = names.length ∧
    (names.map Prod.snd).Perm (accepted sel ds) ∧ (names.map Prod.fst).Nodup ∧
    (∀ p ∈ names.map Prod.fst, x.heap.Live p) ∧
    ∀ c ∈ cmp, Consistent c → Ordered c names

section

variable {net : NetErrno → ℤ} {t t' : Table} {k : Answers} {r : ℤ} {h h' : Heap} {p : Pointer}
  {dir dir' : Dir}

theorem install_ok {uid : ℤ} {type : DescriptorTypes} {undo : Table → Table} {fd : Slot}
    (heq : install t uid type undo = (.ok fd, t')) :
    ∃ i, openAt t' fd.val = some (fd, i) ∧ t'.pool i = ⟨uid, type, 1⟩ ∧ 3 ≤ fd.val := by
  have hout := acquireDescriptor_outcome t
  unfold install at heq
  generalize acquireDescriptor t = res at hout heq
  cases hout with
  | full => cases heq
  | taken s i hs hi =>
    cases heq
    refine ⟨i, ?_, ?_, ?_⟩
    · rw [openAt_eq_some, fillSlot_fdmap]
      simp
    · simp [Table.fillSlot, Table.fill]
    · have habove := hs.above
      omega

theorem open_ok {fullPath : Except ℤ String} {flags : BitVec 32} {fd : Slot}
    (heq : open' net t k fullPath flags = (.ok fd, t')) :
    ∃ i, openAt t' fd.val = some (fd, i) ∧ (t'.pool i).refCount = 1 ∧ 3 ≤ fd.val := by
  cases fullPath with
  | error e => cases heq
  | ok path =>
    -- what follows the creation of the handle
    have hend : ∀ {uid : ℤ} {t₁ : Table} {e : ℤ} {type : DescriptorTypes} {undo : Table → Table},
        (if uid < 0 then (.error e, t₁) else install t₁ uid type undo) = (.ok fd, t') →
        ∃ i, openAt t' fd.val = some (fd, i) ∧ (t'.pool i).refCount = 1 ∧ 3 ≤ fd.val := by
      intro uid t₁ e type undo h
      split at h
      · cases h
      · obtain ⟨i, hopen, hpool, hfd⟩ := install_ok h
        exact ⟨i, hopen, congrArg DescriptorTranslation.refCount hpool, hfd⟩
    unfold open' at heq
    dsimp only at heq
    split at heq
    · cases heq
    split at heq
    · exact hend heq
    · exact hend heq

theorem opendir_some {fullPath : Except ℤ String} {ok : Bool} {e : ℤ}
    (heq : opendir net t k fullPath h ok r = (some (p, dir), e, t', h')) :
    ∃ fd i, dir = newDir fd ∧ fd ≠ 0 ∧ (∃ s, openAt t' fd = some (s, i)) ∧
      0 < (t'.pool i).refCount ∧ p = .block h.next ∧ h' = { h with next := h.next + 1 } := by
  unfold opendir at heq
  generalize hopen : open' net t k fullPath (O_RDONLY ||| O_DIRECTORY) = res at heq
  obtain ⟨fd | fd, t₁⟩ := res
  · cases heq
  · obtain ⟨i, hat, href, hfd⟩ := open_ok hopen
    cases ok with
    | false => simp [opendirCommon, Heap.malloc] at heq
    | true =>
      simp only [opendirCommon, Heap.malloc, if_true, Prod.mk.injEq, Option.some.injEq] at heq
      obtain ⟨⟨rfl, rfl⟩, -, rfl, rfl⟩ := heq
      exact ⟨fd.val, i, rfl, by omega, ⟨fd, hat⟩, by omega, rfl, rfl⟩

theorem opendir_none {fullPath : Except ℤ String} {ok : Bool} {e : ℤ}
    (heq : opendir net t k fullPath h ok r = (none, e, t', h')) : h' = h := by
  unfold opendir at heq
  generalize open' net t k fullPath (O_RDONLY ||| O_DIRECTORY) = res at heq
  obtain ⟨fd | fd, t₁⟩ := res
  · cases heq
    rfl
  · cases ok with
    | false =>
      simp only [opendirCommon, Heap.malloc, Bool.false_eq_true, if_false, Prod.mk.injEq] at heq
      exact heq.2.2.2.symm
    | true => simp [opendirCommon, Heap.malloc] at heq

theorem closedir_cases (net : NetErrno → ℤ) (hfd : dir.fd ≠ 0) :
    (closedir net t h (some (p, dir)) r).2.2 = h.free (some p) ∧
      ((closedir net t h (some (p, dir)) r).1 = ⟨-1, some EBADF⟩ ∨
        (closedir net t h (some (p, dir)) r).1 = ⟨0, some 0⟩) := by
  unfold closedir close
  dsimp only
  rw [if_neg hfd]
  refine ⟨rfl, ?_⟩
  by_cases hneg : (releaseDescriptor net t dir.fd r).1 < 0
  · simp [hneg, fail]
  · simp [hneg]

theorem closedir_congr (net : NetErrno → ℤ) (hfd : dir'.fd = dir.fd) (h h' : Heap) :
    (closedir net t h' (some (p, dir')) r).1 = (closedir net t h (some (p, dir)) r).1 := by
  unfold closedir
  dsimp only
  rw [hfd]
  split <;> rfl

theorem Scan.Holds.freed {s : Scan} (hs : s.Holds { h with next := h.next + 1 }) (hh : h.Sound)
    (q : Pointer) :
    (((if s.names = none then s.heap.free (some (.block h.next))
        else s.records.foldr (fun x h ↦ h.free (some x.1))
          (s.heap.free (some (.block h.next)))).free s.names).Live q ↔ h.Live q) := by
  have hnew : ¬ h.Live (.block h.next) := fun hlive ↦ Heap.not_allocated_next hlive.1
  have hrecords : ((if s.names = none then s.heap.free (some (.block h.next))
      else s.records.foldr (fun x h ↦ h.free (some x.1))
        (s.heap.free (some (.block h.next)))).Live q ↔
      (s.heap.Live q ∧ q ≠ .block h.next) ∧ q ∉ s.records.map Prod.fst) := by
    split
    · next hnames => simp [hs.empty hnames, Heap.live_free]
    · rw [← Heap.live_free, ← Heap.live_foldr_free, List.foldr_map]
  have hfresh : ∀ q ∈ s.own, ¬ h.Live q := fun q hq hlive ↦
    hs.fresh q hq (hh.live_succ.mpr (.inl hlive))
  rw [Heap.live_free_option, hrecords, hs.live, hh.live_succ]
  constructor
  · rintro ⟨⟨⟨(hlive | heq) | hown, hne⟩, hrec⟩, hnames⟩
    · exact hlive
    · exact absurd heq hne
    · rcases List.mem_append.mp hown with hown | hown
      · exact absurd (Option.mem_toList.mp hown) hnames
      · exact absurd hown hrec
  · intro hlive
    refine ⟨⟨⟨.inl (.inl hlive), fun heq ↦ hnew (heq ▸ hlive)⟩, fun hrec ↦ ?_⟩, fun hnames ↦ ?_⟩
    · exact hfresh q (List.mem_append_right _ hrec) hlive
    · exact hfresh q (List.mem_append_left _ (Option.mem_toList.mpr hnames)) hlive

theorem reports_unclosed {sel : Option (Dirent → Bool)} {cmp : Option (Dirent → Dirent → ℤ)}
    {qsort : (Dirent → Dirent → ℤ) → List (Pointer × Dirent) → List (Pointer × Dirent)}
    {ds : List Dirent} {s : Scan} (hs : s.Holds { h with next := h.next + 1 }) (hh : h.Sound)
    (e : ℤ) (stop : Stop) :
    Reports sel cmp ds h ({ s with heap := s.heap.free (some (.block h.next)) }.finish qsort cmp e
      stop ⟨-1, some EBADF⟩) := by
  have hfinish : ({ s with heap := s.heap.free (some (.block h.next)) } : Scan).finish qsort cmp e
      stop ⟨-1, some EBADF⟩ =
      ⟨-1, EBADF, none, (if s.names = none then s.heap.free (some (.block h.next))
        else s.records.foldr (fun x h ↦ h.free (some x.1))
          (s.heap.free (some (.block h.next)))).free s.names, some stop, -1⟩ := rfl
  rw [hfinish]
  exact ⟨iff_of_true rfl (.inr (.inr (.inr rfl))), fun _ ↦ ⟨rfl, hs.freed hh⟩,
    fun hret ↦ absurd rfl hret⟩

theorem sorted_perm (cmp : Option (Dirent → Dirent → ℤ))
    {qsort : (Dirent → Dirent → ℤ) → List (Pointer × Dirent) → List (Pointer × Dirent)}
    (hqsort : Sorts qsort) (l : List (Pointer × Dirent)) :
    (cmp.elim l fun cmp ↦ qsort cmp l).Perm l ∧
      ∀ c ∈ cmp, Consistent c → Ordered c (cmp.elim l fun cmp ↦ qsort cmp l) := by
  cases cmp with
  | none => exact ⟨.refl l, nofun⟩
  | some c =>
    refine ⟨(hqsort c l).1, fun c' hc' ↦ ?_⟩
    cases hc'
    exact (hqsort c l).2

/-- An end at which it has not failed. Then `scandir` returns a listing, wherever its loop has
stopped. -/
theorem reports_closed {sel : Option (Dirent → Bool)} (cmp : Option (Dirent → Dirent → ℤ))
    {qsort : (Dirent → Dirent → ℤ) → List (Pointer × Dirent) → List (Pointer × Dirent)}
    (hqsort : Sorts qsort) {grants : ℕ → Bool} {ds : List Dirent} {last : Option ℤ} {s₀ s : Scan}
    (hs : s.Holds { h with next := h.next + 1 }) (hh : h.Sound) (e : ℤ) {stop : Stop}
    (hempty : s₀.records.length = 0) (hstop : Stopped grants s₀ (accepted sel ds) last stop s) :
    Reports sel cmp ds h ({ s with heap := s.heap.free (some (.block h.next)) }.finish qsort cmp e
      stop ⟨0, some 0⟩) ↔
    last = none ∧ (accepted sel ds).length < 2 ^ 30 ∧
      Granted grants s₀.asked (requests (accepted sel ds).length) := by
  have hfinish : ({ s with heap := s.heap.free (some (.block h.next)) } : Scan).finish qsort cmp e
      stop ⟨0, some 0⟩ = ⟨s.records.length, e,
        some (cmp.elim s.records fun cmp ↦ qsort cmp s.records),
        s.heap.free (some (.block h.next)), some stop, 0⟩ := rfl
  have hret : (s.records.length : ℤ) ≠ -1 := by omega
  rw [hfinish]
  cases hstop with
  | finished _ hlast hshort hg hrec =>
    rw [hempty, Nat.zero_add] at hshort hg
    refine iff_of_true ⟨iff_of_false hret ?_, fun h ↦ absurd h hret, fun _ ↦ ?_⟩ ⟨hlast, hshort, hg⟩
    · simp [Scanned.Failed]
    · obtain ⟨hperm, hordered⟩ := sorted_perm cmp hqsort s.records
      refine ⟨_, rfl, by rw [hperm.length_eq], ?_, ?_, fun q hq ↦ ?_, hordered⟩
      · rw [List.length_eq_zero_iff.mp hempty, List.map_nil, List.nil_append] at hrec
        exact hrec ▸ hperm.map Prod.snd
      · exact (hperm.map Prod.fst).nodup_iff.mpr (List.nodup_append.mp hs.nodup).2.1
      · have hown : q ∈ s.own := List.mem_append_right _ ((hperm.map Prod.fst).mem_iff.mp hq)
        refine Heap.live_free.mpr ⟨(hs.live q).mpr (.inr hown), fun heq ↦ ?_⟩
        exact hs.fresh q hown (hh.live_succ.mpr (.inr heq))
  | readdir _ errno hlast =>
    refine iff_of_false (fun hreports ↦ ?_) fun h ↦ by simp [hlast] at h
    exact hret (hreports.failure.mpr (.inr (.inl ⟨errno, rfl⟩)))
  | tooLong _ hlong hrec =>
    rw [hempty, Nat.zero_add] at hlong hrec
    refine iff_of_false (fun hreports ↦ ?_) fun h ↦ absurd h.2.1 (not_lt.mpr hlong)
    obtain ⟨names, -, hlength, hperm, -⟩ := hreports.listing hret
    have heq := hperm.length_eq
    rw [List.length_map] at heq
    dsimp only at hlength
    omega
  | noMemory _ hg =>
    rw [hempty, Nat.zero_add] at hg
    refine iff_of_false (fun hreports ↦ ?_) fun h ↦ absurd h.2.2 hg
    exact hret (hreports.failure.mpr (.inr (.inr (.inl rfl))))

end

section

variable {σ : Type} {net : NetErrno → ℤ} {K : Oracle σ}
  {qsort : (Dirent → Dirent → ℤ) → List (Pointer × Dirent) → List (Pointer × Dirent)}
  {grants : ℕ → Bool} {r e : ℤ} {fuel : ℕ} {t t' : Table} {kernel : σ} {h h' : Heap} {k : Answers}
  {fullPath : Except ℤ String} {sel : Option (Dirent → Bool)}
  {cmp : Option (Dirent → Dirent → ℤ)} {p : Pointer} {dir : Dir} {stop : Stop} {st' : Listing σ}
  {s' : Scan}

theorem scandir_unopened (hopen : opendir net t k fullPath h (grants 0) r = (none, e, t', h')) :
    scandir net K qsort grants r fuel t kernel h k fullPath sel cmp =
      some ⟨-1, e, none, h', none, 0⟩ := by
  rw [scandir, hopen]

theorem scandir_opened
    (hopen : opendir net t k fullPath h (grants 0) r = (some (p, dir), e, t', h'))
    (hloop : scanLoop net K sel grants fuel ⟨dir, t', kernel⟩ { heap := h', asked := 1 } =
      some (stop, st', s')) :
    scandir net K qsort grants r fuel t kernel h k fullPath sel cmp =
      some ({ s' with
        heap := (closedir net st'.table s'.heap (some (p, st'.dir)) r).2.2 }.finish qsort cmp e
          stop (closedir net st'.table s'.heap (some (p, st'.dir)) r).1) := by
  rw [scandir, hopen]
  dsimp only
  rw [hloop]
  rfl

end

/-- A directory that `readdir` reads as `ds`, up to an error if `last` is one. -/
theorem scandir_reports_iff {σ : Type} (net : NetErrno → ℤ) (K : Oracle σ)
    (qsort : (Dirent → Dirent → ℤ) → List (Pointer × Dirent) → List (Pointer × Dirent))
    (hqsort : Sorts qsort) (grants : ℕ → Bool) (r : ℤ) (fuel : ℕ) (t : Table) (kernel : σ)
    (h : Heap) (hh : h.Sound) (k : Answers) (fullPath : Except ℤ String)
    (sel : Option (Dirent → Bool)) (cmp : Option (Dirent → Dirent → ℤ)) (ds : List Dirent)
    (last : Option ℤ)
    (hlist : ∀ d e t' h', opendir net t k fullPath h (grants 0) r = (some d, e, t', h') →
      Lists net K ⟨d.2, t', kernel⟩ ds last)
    (hfuel : ds.length < fuel) :
    ∃ x, scandir net K qsort grants r fuel t kernel h k fullPath sel cmp = some x ∧
      (Reports sel cmp ds h x ↔
        (opendir net t k fullPath h (grants 0) r).1 = none ∨
        (∃ d e t' h', opendir net t k fullPath h (grants 0) r = (some d, e, t', h') ∧
          (closedir net t' h' (some d) r).1.ret = -1) ∨
        last = none ∧ (accepted sel ds).length < 2 ^ 30 ∧
          Granted grants 1 (requests (accepted sel ds).length)) := by
  rcases hopen : opendir net t k fullPath h (grants 0) r with ⟨_ | ⟨p, dir⟩, e, t', h'⟩
  · obtain rfl := opendir_none hopen
    refine ⟨_, scandir_unopened hopen, iff_of_true ?_ (.inl rfl)⟩
    exact ⟨iff_of_true rfl (.inl rfl), fun _ ↦ ⟨rfl, fun _ ↦ Iff.rfl⟩, fun hret ↦ absurd rfl hret⟩
  · obtain ⟨fd, i, rfl, hfd, ⟨s, hat⟩, href, rfl, rfl⟩ := opendir_some hopen
    have hcounted : ({ heap := { h with next := h.next + 1 }, asked := 1 } : Scan).Counted :=
      ⟨rfl, rfl, Nat.two_pow_pos 30⟩
    have hholds : ({ heap := { h with next := h.next + 1 }, asked := 1 } : Scan).Holds
        { h with next := h.next + 1 } :=
      ⟨hh.succ, fun q ↦ by simp [Scan.own], fun q hq ↦ by simp [Scan.own] at hq,
        List.nodup_nil, fun _ ↦ rfl⟩
    obtain ⟨stop, st', s', hloop, hholds', htable, hfd', hstop⟩ :=
      scanLoop_outcome sel (hlist _ _ _ _ hopen) ⟨hat, href⟩ hcounted hholds hfuel
    obtain ⟨hheap, hout⟩ := closedir_cases net (t := st'.table) (h := s'.heap)
      (p := .block h.next) (r := r) (hfd' ▸ hfd : st'.dir.fd ≠ 0)
    have hsame := closedir_congr net (t := st'.table) (p := .block h.next) (r := r) hfd'
      { h with next := h.next + 1 } s'.heap
    have hclosed : (∃ d e₁ t₁ h₁, ((some (Pointer.block h.next, newDir fd), e, t',
          ({ h with next := h.next + 1 } : Heap)) : Option (Pointer × Dir) × ℤ × Table × Heap) =
          (some d, e₁, t₁, h₁) ∧ (closedir net t₁ h₁ (some d) r).1.ret = -1) ↔
        (closedir net st'.table s'.heap (some (.block h.next, st'.dir)) r).1.ret = -1 := by
      rw [hsame, htable]
      constructor
      · rintro ⟨d, e₁, t₁, h₁, heq, hret⟩
        cases heq
        exact hret
      · exact fun hret ↦ ⟨_, _, _, _, rfl, hret⟩
    rw [hclosed]
    refine ⟨_, scandir_opened hopen hloop, ?_⟩
    rw [hheap]
    rcases hout with hout | hout
    · rw [hout]
      exact iff_of_true (reports_unclosed hholds' hh e stop) (.inr (.inl rfl))
    · rw [hout]
      refine (reports_closed cmp hqsort hholds' hh e rfl hstop).trans ?_
      rw [or_iff_right (Option.some_ne_none _), or_iff_right (by decide)]

def mergeSort (cmp : Dirent → Dirent → ℤ) (l : List (Pointer × Dirent)) :
    List (Pointer × Dirent) := l.mergeSort fun x y ↦ cmp x.2 y.2 ≤ 0

theorem mergeSort_sorts : Sorts mergeSort := by
  intro cmp l
  refine ⟨List.mergeSort_perm l _, fun hcmp ↦ ?_⟩
  have hsorted : (mergeSort cmp l).Pairwise fun x y ↦ decide (cmp x.2 y.2 ≤ 0) := by
    apply List.pairwise_mergeSort
    · intro a b c hab hbc
      exact decide_eq_true (hcmp.trans a.2 b.2 c.2 (of_decide_eq_true hab) (of_decide_eq_true hbc))
    · intro a b
      rw [Bool.or_eq_true, decide_eq_true_eq, decide_eq_true_eq]
      exact hcmp.total a.2 b.2
  exact hsorted.imp of_decide_eq_true

theorem opendir_granting :
    (opendir 0 (initFd 0 1 2) granting (.ok "a") {} true 0).1 = some (.block 0, newDir 3) ∧
    openAt (opendir 0 (initFd 0 1 2) granting (.ok "a") {} true 0).2.2.1 3 = some (3, 3) ∧
    (opendir 0 (initFd 0 1 2) granting (.ok "a") {} true 0).2.2.1.pool 3 = ⟨3, .DIRECTORY, 1⟩ := by
  decide +kernel

theorem scandir_reports_twoNames :
    ∃ x, scandir 0 (volume twoNames) mergeSort (fun _ ↦ true) 0 3 (initFd 0 1 2) [0, 0, 0, 0] {}
        granting (.ok "a") none none = some x ∧
      Reports none none (delivered (List.replicate 256 0) twoNames) {} x := by
  obtain ⟨hdir, hopen, hpool⟩ := opendir_granting
  have hlist : ∀ d e t' h', opendir 0 (initFd 0 1 2) granting (.ok "a") {} true 0 =
      (some d, e, t', h') → Lists 0 (volume twoNames) ⟨d.2, t', [0, 0, 0, 0]⟩
        (delivered (List.replicate 256 0) twoNames) none := by
    intro d e t' h' heq
    rw [heq] at hdir hopen hpool
    cases hdir
    have hat : (⟨newDir 3, t', [0, 0, 0, 0]⟩ : Listing (List ℕ)).At twoNames volumePos 3 3 0 := by
      refine ⟨⟨hopen, ?_⟩, rfl, ?_, Nat.zero_le _, List.length_replicate⟩
      · rw [hpool]
        decide
      · rw [Listing.handle, hpool]
        rfl
    exact hat.lists 0 (volume_directory _ _) (volume_fitting (by decide))
  obtain ⟨x, hx, hiff⟩ := scandir_reports_iff 0 (volume twoNames) mergeSort mergeSort_sorts
    (fun _ ↦ true) 0 3 (initFd 0 1 2) [0, 0, 0, 0] {} Heap.sound_empty granting (.ok "a") none none
    (delivered (List.replicate 256 0) twoNames) none hlist (by decide)
  exact ⟨x, hx, hiff.mpr (.inr (.inr ⟨rfl, by decide, fun _ _ _ ↦ rfl⟩))⟩

/-- There is no memory for the listing, and `scandir` returns an empty one. -/
theorem scandir_hides_failure :
    ∃ x, scandir 0 (volume twoNames) mergeSort (fun n ↦ n == 0) 0 3 (initFd 0 1 2) [0, 0, 0, 0] {}
        granting (.ok "a") none none = some x ∧ x.stop = some .noMemory ∧ x.ret = 0 ∧
      ∀ ds, ¬ Reports none none ds {} x := by
  have hx : (scandir 0 (volume twoNames) mergeSort (fun n ↦ n == 0) 0 3 (initFd 0 1 2) [0, 0, 0, 0]
      {} granting (.ok "a") none none).map (fun x ↦ (x.stop, x.ret)) =
        some (some .noMemory, 0) := by decide +kernel
  obtain ⟨x, hscan, heq⟩ := Option.map_eq_some_iff.mp hx
  obtain ⟨hstop, hret⟩ := Prod.mk.inj heq
  refine ⟨x, hscan, hstop, hret, fun ds hreports ↦ ?_⟩
  have hminus := hreports.failure.mpr (.inr (.inr (.inl hstop)))
  rw [hret] at hminus
  cases hminus

end SceLibcPosix.Dirents
