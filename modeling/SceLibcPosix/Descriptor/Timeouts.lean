import SceLibcPosix.Descriptor.Polling
import SceLibcPosix.Descriptor.Steps

namespace SceLibcPosix.Descriptor

open Errno VitaError Programs

/-- `nanosleep`, for the seconds and the nanoseconds of its argument. -/
def nanosleep : Option (ℤ × ℤ) → Call Outcome
  | none => return fail EFAULT
  | some (sec, nsec) =>
    if sec < 0 ∨ nsec < 0 ∨ 999999999 < nsec then return fail EINVAL
    else do
      let us := (sec * 1000000 + (nsec + 999).tdiv 1000) % 2 ^ 32
      let _ ← kernel (.delayThread us)
      return ⟨0, none⟩

def sleep (seconds : ℕ) : Call Outcome := do
  let ret ← kernel (.delayThread (seconds * 1000 * 1000 % 2 ^ 32))
  return ⟨ret, none⟩

/-- A `struct timeval` that holds a duration. -/
structure Interval where
  sec : ℤ
  usec : ℤ
  sec_nonneg : 0 ≤ sec
  usec_nonneg : 0 ≤ usec
  usec_lt : usec < 1000000

namespace Interval

def total (v : Interval) : ℤ := v.sec * 1000000 + v.usec

theorem total_nonneg (v : Interval) : 0 ≤ v.total := by
  have := v.sec_nonneg
  have := v.usec_nonneg
  unfold total
  omega

end Interval

/-- A `struct timespec` that holds a duration. -/
structure FineInterval where
  sec : ℤ
  nsec : ℤ
  sec_nonneg : 0 ≤ sec
  nsec_nonneg : 0 ≤ nsec
  nsec_lt : nsec < 1000000000

def FineInterval.total (v : FineInterval) : ℤ := v.sec * 1000000000 + v.nsec

def Pause.usec : Pause → ℤ
  | .wait usec | .delay usec => usec

/-- A call waits for no less than `nsec` nanoseconds, unless it fails before it waits. `out` is its
result. -/
def Honours {α : Type} (t : Table) (out : α → Outcome) (p : Call α) (nsec : ℤ) : Prop :=
  ∀ a, Goes t a True p [] fun r s ↦ (∀ q ∈ s, nsec ≤ q.usec * 1000) ∧
    (s = [] → nsec = 0 ∨ (out r).errno ≠ none)

/-- A call for a timeout of an open descriptor. -/
structure ForTimeout (t : Table) (fd : ℤ) (optname : SockOpt) (sizeofTimeval optlen : ℕ) :
    Prop where
  opened : ∃ s i, openAt t fd = some (s, i) ∧ 0 < (t.pool i).refCount
  timeout : optname.isTimeout = true
  size : sizeofTimeval ≤ optlen

/-- A kernel that keeps the value of an option. -/
def optionKernel : (q : KernelAsk) → ℤ → q.Answer × ℤ
  | .use _ _ (.sceNetSetsockopt _ _ (.int w) _), _ => (0, w)
  | .getsockopt _ _ _ _, w => ((0, w), w)
  | q, w => (q.quiet, w)

section

variable (net : NetErrno → ℤ) (sizeofTimeval : ℕ) (t : Table) (fd level : ℤ) (optname : SockOpt)
  (optval optlen : ℕ) (v : Interval)

/-- `setsockopt` has the kernel keep no less than the timeout. -/
def SetsTimeout : Prop :=
  ∃ t' w, (setsockopt net sizeofTimeval fd level optname optval (v.sec, v.usec) optlen).run
    (serve net optionKernel) (t, 0) = some (⟨0, none⟩, t', w) ∧ v.total ≤ w

/-- `getsockopt` reads the timeout that `setsockopt` has been given. -/
def ReadsBack : Prop :=
  ∃ t' w t'', (setsockopt net sizeofTimeval fd level optname optval (v.sec, v.usec) optlen).run
      (serve net optionKernel) (t, 0) = some (⟨0, none⟩, t', w) ∧
    (getsockopt net sizeofTimeval fd level optname optlen).run (serve net optionKernel) (t', w) =
      some ((⟨0, none⟩, some (.timeval v.sec v.usec)), t'', w)

end

section

variable {α : Type} {t : Table} {out : α → Outcome} {p : Call α} {nsec : ℤ} {net : NetErrno → ℤ}

def calm : Waits := ⟨0, fun _ ↦ 0, .ok []⟩

theorem Honours.calm {s₀ : List Pause} {e₀ : Option ℤ} (h : Honours t out p nsec)
    (hp : Goes t calm False p [] fun r s ↦ (out r).errno = e₀ ∧ s = s₀) :
    (∀ q ∈ s₀, nsec ≤ q.usec * 1000) ∧ (s₀ = [] → nsec = 0 ∨ e₀ ≠ none) := by
  have hboth := Program.Obeys.and_of hp (h Descriptor.calm) (fun _ _ _ hx ↦ hx) fun _ _ _ ↦ rfl
  obtain ⟨_, _, ⟨rfl, rfl⟩, hpost⟩ := hboth.reaches (waiting_answers t Descriptor.calm)
  exact hpost

theorem honours_iff {s₀ : List Pause} (hp : ∀ f a, Goes t a f p [] fun r s ↦
    (out r).errno = none ∧ s = s₀) : Honours t out p nsec ↔
      (∀ q ∈ s₀, nsec ≤ q.usec * 1000) ∧ (s₀ = [] → nsec = 0) := by
  constructor
  · intro h
    obtain ⟨hall, hnil⟩ := h.calm (hp False Descriptor.calm)
    exact ⟨hall, fun hs ↦ (hnil hs).resolve_right (not_not.mpr rfl)⟩
  · intro h a
    refine (hp True a).mono fun r s hr ↦ ?_
    obtain ⟨-, rfl⟩ := hr
    exact ⟨h.1, fun hs ↦ .inl (h.2 hs)⟩

theorem honours_one_iff {q : Pause} (hp : ∀ f a, Goes t a f p [] fun r s ↦
    (out r).errno = none ∧ s = [q]) : Honours t out p nsec ↔ nsec ≤ q.usec * 1000 := by
  rw [honours_iff hp, List.forall_mem_singleton]
  exact and_iff_left fun h ↦ absurd h (List.cons_ne_nil _ _)

theorem honours_refused {e : ℤ} {r : α} (he : (out r).errno = some e) :
    Honours t out (pure r) nsec :=
  fun _ ↦ goes_pure ⟨by simp, fun _ ↦ .inr (by simp [he])⟩

theorem honours_wait_iff {w : ℤ}
    (hcalm : Goes t calm False p [] fun r s ↦ (out r).errno = none ∧ s = [.wait w])
    (hp : ∀ a, Goes t a True p [] fun r s ↦
      if a.eid < 0 then (out r).errno ≠ none ∧ s = [] else s = [.wait w]) :
    Honours t out p nsec ↔ nsec ≤ w * 1000 := by
  constructor
  · intro h
    exact (h.calm hcalm).1 _ (List.mem_singleton_self _)
  · intro h a
    refine (hp a).mono fun r s hr ↦ ?_
    split at hr
    · obtain ⟨herr, rfl⟩ := hr
      exact ⟨by simp, fun _ ↦ .inr herr⟩
    · obtain rfl := hr
      exact ⟨List.forall_mem_singleton.mpr h, fun hs ↦ absurd hs (List.cons_ne_nil _ _)⟩

theorem le_bmod_iff {x : ℤ} (hx : 0 ≤ x) : x ≤ x.bmod (2 ^ 32) ↔ x < 2 ^ 31 := by
  rw [bmod_int]
  split <;> omega

theorem honours_poll_iff (pfd : List PollFd) (timeout : ℕ) :
    Honours t Prod.fst (poll net pfd timeout) (timeout * 1000000) ↔
      MAX_OPEN_FILES ≤ pfd.length ∨
        if pfd = [] then timeout * 1000 < 2 ^ 32 else timeout * 1000 < 2 ^ 31 := by
  by_cases hlen : MAX_OPEN_FILES ≤ pfd.length
  · rw [poll, if_pos hlen]
    exact iff_of_true (honours_refused rfl) (.inl hlen)
  rw [or_iff_right hlen]
  rw [not_le] at hlen
  by_cases hnil : pfd = []
  · subst hnil
    rw [if_pos rfl, honours_one_iff fun f a ↦
      (goes_poll hlen timeout).mono fun r s hr ↦ ⟨congrArg (fun r ↦ r.1.errno) hr.1, hr.2⟩]
    change (timeout : ℤ) * 1000000 ≤ (timeout : ℤ) * 1000 % 2 ^ 32 * 1000 ↔ _
    omega
  · have hlength : ¬ pfd.length = 0 := fun h ↦ hnil (List.length_eq_zero_iff.mp h)
    have hbmod := le_bmod_iff (x := timeout * 1000) (by omega)
    have hwait : Honours t Prod.fst (poll net pfd timeout) (timeout * 1000000) ↔
        (timeout : ℤ) * 1000000 ≤ (timeout * 1000 : ℤ).bmod (2 ^ 32) * 1000 := by
      refine honours_wait_iff ((goes_poll hlen timeout).mono fun r s hr ↦ ?_) fun a ↦
        (goes_poll hlen timeout).mono fun r s hr ↦ ?_
      · obtain ⟨rfl, rfl⟩ := hr
        rw [polled, pollPauses, if_neg hlength, if_neg hlength]
        exact ⟨rfl, rfl⟩
      · obtain ⟨rfl, rfl⟩ := hr
        rw [polled, pollPauses, if_neg hlength, if_neg hlength]
        split
        · exact ⟨Option.some_ne_none _, rfl⟩
        · rfl
    rw [if_neg hnil, hwait]
    omega

theorem honours_select_iff (nfds : ℤ) (sets : FdSets) (v : Interval) :
    Honours t Prod.fst (select net nfds sets (some (v.sec, v.usec))) (v.total * 1000) ↔
      nfds < 0 ∨ MAX_OPEN_FILES ≤ nfds ∨ v.total < 2 ^ 31 := by
  by_cases hnfds : nfds < 0 ∨ MAX_OPEN_FILES ≤ nfds
  · rw [select, if_pos hnfds, ← or_assoc]
    exact iff_of_true (honours_refused rfl) (.inl hnfds)
  rw [← or_assoc, or_iff_right hnfds]
  obtain ⟨n, rfl⟩ := Int.eq_ofNat_of_zero_le (show 0 ≤ nfds by omega)
  have hn : n < MAX_OPEN_FILES := by omega
  have hbmod := le_bmod_iff v.total_nonneg
  have hw : selectWait (some (v.sec, v.usec)) = v.total.bmod (2 ^ 32) := rfl
  by_cases hzero : n = 0
  · subst hzero
    have hgoes (f : Prop) (a : Waits) : Goes t a f
        (select net (0 : ℕ) sets (some (v.sec, v.usec))) [] fun r s ↦ r.1.errno = none ∧
          s = if 0 < v.total.bmod (2 ^ 32) then [.delay (v.total.bmod (2 ^ 32))] else [] := by
      refine (goes_select hn sets _ fun hne ↦ absurd rfl hne).mono fun r s hr ↦ ?_
      obtain ⟨rfl, rfl, -⟩ := hr
      rw [selected, selectPauses, if_pos rfl, if_pos rfl, List.append_nil, hw]
      exact ⟨rfl, rfl⟩
    rw [honours_iff hgoes]
    have htotal := v.total_nonneg
    split
    · rw [List.forall_mem_singleton, and_iff_left fun h ↦ absurd h (List.cons_ne_nil _ _)]
      change v.total * 1000 ≤ v.total.bmod (2 ^ 32) * 1000 ↔ _
      omega
    · have hbmod := bmod_int v.total
      simp only [List.not_mem_nil, false_imp_iff, implies_true, true_and, forall_const]
      split at hbmod <;> omega
  · have hpauses (a : Waits) : selectPauses a.eid n (some (v.sec, v.usec)) =
        if a.eid < 0 then [] else [.wait (v.total.bmod (2 ^ 32))] := if_neg hzero
    have hwait : Honours t Prod.fst (select net n sets (some (v.sec, v.usec))) (v.total * 1000) ↔
        v.total * 1000 ≤ v.total.bmod (2 ^ 32) * 1000 := by
      refine honours_wait_iff ((goes_select hn sets _ fun _ _ events hok hno ↦ hno ?_).mono
        fun r s hr ↦ ?_) fun a ↦ (goes_select hn sets _ fun _ _ _ _ _ ↦ trivial).mono
        fun r s hr ↦ ?_
      · obtain rfl := Except.ok.inj hok
        simp
      · obtain ⟨rfl, rfl, -⟩ := hr
        rw [selected, if_neg hzero, hpauses]
        exact ⟨rfl, rfl⟩
      · obtain ⟨rfl, rfl, -⟩ := hr
        rw [selected, if_neg hzero, hpauses]
        split
        · exact ⟨Option.some_ne_none _, rfl⟩
        · rfl
    rw [hwait]
    omega

/-- `nanosleep` rounds up. -/
theorem honours_nanosleep_iff (v : FineInterval) :
    Honours t id (nanosleep (some (v.sec, v.nsec))) v.total ↔
      v.sec * 1000000 + (v.nsec + 999) / 1000 < 2 ^ 32 := by
  have hsec := v.sec_nonneg
  have hnsec := v.nsec_nonneg
  have hlt := v.nsec_lt
  rw [nanosleep, if_neg (by omega), honours_one_iff fun f a ↦
    .after_kernel fun _ _ ↦ goes_pure ⟨rfl, rfl⟩]
  change v.sec * 1000000000 + v.nsec ≤
    (v.sec * 1000000 + (v.nsec + 999).tdiv 1000) % 2 ^ 32 * 1000 ↔ _
  rw [Int.tdiv_eq_ediv_of_nonneg (by omega)]
  omega

theorem honours_sleep_iff (seconds : ℕ) :
    Honours t id (sleep seconds) (seconds * 1000000000) ↔ seconds * 1000000 < 2 ^ 32 := by
  rw [sleep, honours_one_iff fun f a ↦ .after_kernel fun _ _ ↦ goes_pure ⟨rfl, rfl⟩]
  change (seconds : ℤ) * 1000000000 ≤ (seconds : ℤ) * 1000 * 1000 % 2 ^ 32 * 1000 ↔ _
  omega

section

variable {sizeofTimeval optval optlen : ℕ} {fd level : ℤ} {optname : SockOpt}

theorem ForTimeout.setsockopt_run (h : ForTimeout t fd optname sizeofTimeval optlen) (v : Interval)
    (w : ℤ) : (setsockopt net sizeofTimeval fd level optname optval (v.sec, v.usec) optlen).run
      (serve net optionKernel) (t, w) = some (⟨0, none⟩, t, v.total.bmod (2 ^ 32)) := by
  obtain ⟨s, i, hopen, href⟩ := h.opened
  have hsize := h.size
  rw [setsockopt, run_withFd_some (fdGrab_open hopen), if_neg (by omega)]
  dsimp only
  rw [if_pos h.timeout, use, run_kernel, run_drop_grabbed href]
  rfl

theorem ForTimeout.getsockopt_run (h : ForTimeout t fd optname sizeofTimeval optlen) (w : ℤ) :
    (getsockopt net sizeofTimeval fd level optname optlen).run (serve net optionKernel) (t, w) =
      some ((⟨0, none⟩, some (.timeval (w.tdiv 1000000) (w.tmod 1000000))), t, w) := by
  obtain ⟨s, i, hopen, href⟩ := h.opened
  have hsize := h.size
  rw [getsockopt, run_withFd_some (fdGrab_open hopen), if_neg (by omega), run_kernel]
  dsimp only
  rw [run_drop_grabbed href, if_pos h.timeout]
  rfl

theorem ForTimeout.setsTimeout_iff (h : ForTimeout t fd optname sizeofTimeval optlen)
    (v : Interval) :
    SetsTimeout net sizeofTimeval t fd level optname optval optlen v ↔ v.total < 2 ^ 31 := by
  rw [← le_bmod_iff v.total_nonneg]
  constructor
  · rintro ⟨t', w, hrun, hle⟩
    rw [h.setsockopt_run] at hrun
    obtain ⟨-, hs⟩ := Prod.mk.inj (Option.some.inj hrun)
    obtain ⟨-, rfl⟩ := Prod.mk.inj hs
    exact hle
  · exact fun hle ↦ ⟨t, _, h.setsockopt_run v 0, hle⟩

theorem Interval.of_total (v : Interval) :
    v.total.tdiv 1000000 = v.sec ∧ v.total.tmod 1000000 = v.usec := by
  have husec := v.usec_nonneg
  have hlt := v.usec_lt
  rw [Int.tdiv_eq_ediv_of_nonneg v.total_nonneg, Int.tmod_eq_emod_of_nonneg v.total_nonneg]
  unfold Interval.total
  omega

theorem ForTimeout.readsBack_iff (h : ForTimeout t fd optname sizeofTimeval optlen)
    (v : Interval) :
    ReadsBack net sizeofTimeval t fd level optname optval optlen v ↔ v.total < 2 ^ 31 := by
  rw [← le_bmod_iff v.total_nonneg]
  constructor
  · rintro ⟨t', w, t'', hset, hget⟩
    rw [h.setsockopt_run] at hset
    obtain ⟨-, hs⟩ := Prod.mk.inj (Option.some.inj hset)
    obtain ⟨rfl, rfl⟩ := Prod.mk.inj hs
    rw [h.getsockopt_run] at hget
    obtain ⟨hres, -⟩ := Prod.mk.inj (Option.some.inj hget)
    obtain ⟨hsec, husec⟩ := OptResult.timeval.inj (Option.some.inj (Prod.mk.inj hres).2)
    have hdiv := Int.tmod_add_mul_tdiv (v.total.bmod (2 ^ 32)) 1000000
    rw [hsec, husec] at hdiv
    unfold Interval.total at hdiv ⊢
    omega
  · intro hle
    have hsame : v.total.bmod (2 ^ 32) = v.total := by
      rw [le_bmod_iff v.total_nonneg] at hle
      have hbmod := bmod_int v.total
      have htotal := v.total_nonneg
      split at hbmod <;> omega
    refine ⟨t, _, t, h.setsockopt_run v 0, ?_⟩
    obtain ⟨hsec, husec⟩ := v.of_total
    rw [h.getsockopt_run, hsame, hsec, husec]

end

end

/-- The calls keep the timeouts whose microseconds fit the type they compute them in. -/
theorem timeouts_kept_iff (net : NetErrno → ℤ) (level : ℤ) (optval : ℕ) {t : Table} {fd : ℤ}
    {optname : SockOpt} {sizeofTimeval optlen : ℕ}
    (h : ForTimeout t fd optname sizeofTimeval optlen) :
    (∀ (pfd : List PollFd) (timeout : ℕ),
      Honours t Prod.fst (poll net pfd timeout) (timeout * 1000000) ↔
        MAX_OPEN_FILES ≤ pfd.length ∨
          if pfd = [] then timeout * 1000 < 2 ^ 32 else timeout * 1000 < 2 ^ 31) ∧
    (∀ (nfds : ℤ) (sets : FdSets) (v : Interval),
      Honours t Prod.fst (select net nfds sets (some (v.sec, v.usec))) (v.total * 1000) ↔
        nfds < 0 ∨ MAX_OPEN_FILES ≤ nfds ∨ v.total < 2 ^ 31) ∧
    (∀ v : FineInterval, Honours t id (nanosleep (some (v.sec, v.nsec))) v.total ↔
      v.sec * 1000000 + (v.nsec + 999) / 1000 < 2 ^ 32) ∧
    (∀ seconds : ℕ, Honours t id (sleep seconds) (seconds * 1000000000) ↔
      seconds * 1000000 < 2 ^ 32) ∧
    ∀ v : Interval, (SetsTimeout net sizeofTimeval t fd level optname optval optlen v ↔
        v.total < 2 ^ 31) ∧
      (ReadsBack net sizeofTimeval t fd level optname optval optlen v ↔ v.total < 2 ^ 31) :=
  ⟨honours_poll_iff, honours_select_iff, honours_nanosleep_iff, honours_sleep_iff,
    fun v ↦ ⟨h.setsTimeout_iff v, h.readsBack_iff v⟩⟩

theorem withSocket_timeout : ForTimeout withSocket.table 3 .SO_RCVTIMEO 8 8 where
  opened := ⟨3, 3, withSocket_open, by rw [withSocket_entry]; decide⟩
  timeout := rfl
  size := le_rfl

def shortInterval : Interval := ⟨1, 500000, by decide, by decide, by decide⟩

theorem timeouts_kept_iff_short :
    Honours withSocket.table Prod.fst (poll 0 [⟨3, true, false, {}⟩] 1500) (1500 * 1000000) ∧
      SetsTimeout 0 8 withSocket.table 3 SOL_SOCKET .SO_RCVTIMEO 0 8 shortInterval ∧
      ReadsBack 0 8 withSocket.table 3 SOL_SOCKET .SO_RCVTIMEO 0 8 shortInterval := by
  obtain ⟨hpoll, -, -, -, hset⟩ := timeouts_kept_iff 0 SOL_SOCKET 0 withSocket_timeout
  exact ⟨(hpoll [⟨3, true, false, {}⟩] 1500).mpr (.inr (by decide)),
    (hset shortInterval).1.mpr (by decide), (hset shortInterval).2.mpr (by decide)⟩

def longInterval : Interval := ⟨2160, 0, by decide, by decide, by decide⟩

/-- After 36 or 72 minutes the microseconds no longer fit. -/
theorem timeouts_wrap :
    ¬ Honours withSocket.table Prod.fst (poll 0 [⟨3, true, false, {}⟩] (2160000 : ℕ))
      ((2160000 : ℕ) * 1000000) ∧
    ¬ Honours withSocket.table id (nanosleep (some (4320, 0))) (4320 * 1000000000) ∧
    ¬ Honours withSocket.table id (sleep 4320) ((4320 : ℕ) * 1000000000) ∧
    ¬ ReadsBack 0 8 withSocket.table 3 SOL_SOCKET .SO_RCVTIMEO 0 8 longInterval := by
  refine ⟨?_, ?_, ?_, ?_⟩
  · rw [honours_poll_iff]
    decide
  · have h := honours_nanosleep_iff (t := withSocket.table)
      ⟨4320, 0, by decide, by decide, by decide⟩
    exact fun hno ↦ absurd (h.mp hno) (by decide)
  · rw [honours_sleep_iff]
    decide
  · rw [withSocket_timeout.readsBack_iff]
    decide

end SceLibcPosix.Descriptor
