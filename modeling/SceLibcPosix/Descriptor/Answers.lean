import SceLibcPosix.Descriptor.Polling

namespace SceLibcPosix.Descriptor

open Errno VitaError Programs

section Runs

variable {σ α : Type} {K : (q : KernelAsk) → σ → q.Answer × σ} {net : NetErrno → ℤ} {t t' : Table}
  {a : Waits} {f : Prop} {k k' : σ} {p : Call α} {post : α → List Pause → Prop}

theorem Goes.run (ht : InUse t) (hK : a.AnsweredBy K) (hn : Neutral p)
    (hp : Goes t a f p [] post) {r : α} (h : p.run (serve net K) (t, k) = some (r, t', k')) :
    ∃ s, post r s :=
  hn.run_alone (R := waiting t a f) ht hK (fun _ _ _ hx ↦ hx) hp h

theorem Goes.returns (net : NetErrno → ℤ) (ht : InUse t) (hK : a.AnsweredBy K) (hn : Neutral p)
    (hp : Goes t a False p [] post) (k : σ) :
    ∃ r t' k', p.run (serve net K) (t, k) = some (r, t', k') ∧ ∃ s, post r s :=
  hn.returns_alone (R := waiting t a False) net ht hK (fun _ _ _ hx ↦ hx) (fun _ ↦ id) hp k

end Runs

structure PollFd.Registered (t : Table) (p : PollFd) : Prop where
  valid : 0 ≤ p.fd
  asked : (p.pollIn || p.pollOut) = true
  socket : ∃ n i, openAt t p.fd = some (n, i) ∧ (t.pool i).type = .SOCKET

/-- The events that the kernel may report for an element: some of those asked for, errors and
hang-ups. -/
structure PollFd.Allows (p : PollFd) (e : EpollEvents) : Prop where
  some : e ≠ {}
  epollIn : e.epollIn = true → p.pollIn = true
  epollOut : e.epollOut = true → p.pollOut = true

/-- The wait reports elements that are registered, each of them once. -/
structure ListsRegistered (t : Table) (pfd : List PollFd) (events : List EpollEvent) : Prop where
  once : (events.map EpollEvent.fd).Nodup
  registered : ∀ e ∈ events, 0 ≤ e.fd ∧
    ∃ p, pfd[e.fd.toNat]? = some p ∧ p.Registered t ∧ p.Allows e.events

structure PollFd.Answer (p p' : PollFd) : Prop where
  same : p'.fd = p.fd ∧ p'.pollIn = p.pollIn ∧ p'.pollOut = p.pollOut
  pollIn : p'.revents.pollIn = true → p.pollIn = true
  pollOut : p'.revents.pollOut = true → p.pollOut = true
  negative : p.fd < 0 → p'.revents = {}

def PollFd.answered (p : PollFd) : Bool := p.revents ≠ {}

section Count

variable {t : Table} {a : Waits} {tell : ℤ → ℤ} {p p' : PollFd} {e : EpollEvents}
  {events : List EpollEvent} {pfd pfd' : List PollFd}

theorem PollFd.ready_answered (h : (p.pollIn || p.pollOut) = true) :
    ({ p with revents := {} } : PollFd).ready.answered = true := by
  unfold PollFd.answered PollFd.ready
  cases hin : p.pollIn <;> cases hout : p.pollOut <;> simp_all

theorem PollFd.first_answered : (p.first t tell).answered = p.found t tell := by
  unfold PollFd.first PollFd.found
  dsimp only
  by_cases hev : (p.pollIn || p.pollOut) = true
  · by_cases h : 0 ≤ p.fd ∧ regular t tell p.fd = true
    · rw [if_pos h, PollFd.ready_answered hev, hev, h.2, decide_eq_true h.1]
      rfl
    · rw [if_neg h, hev]
      simp only [not_and, Bool.not_eq_true] at h
      by_cases hfd : 0 ≤ p.fd
      · rw [h hfd, Bool.and_false]
        rfl
      · rw [decide_eq_false hfd]
        rfl
  · simp only [Bool.not_eq_true, Bool.or_eq_false_iff] at hev
    simp [PollFd.ready, PollFd.answered, hev]

theorem PollFd.Registered.not_found (h : p.Registered t) : p.found t tell = false := by
  obtain ⟨n, i, hopen, hsocket⟩ := h.socket
  rw [PollFd.found, regular, hopen]
  simp [hsocket]

theorem PollFd.first_answer : PollFd.Answer p (p.first t tell) := by
  unfold PollFd.first
  dsimp only
  split
  · next h =>
    refine ⟨⟨rfl, rfl, rfl⟩, ?_, ?_, fun hneg ↦ absurd hneg (not_lt.mpr h.1)⟩
    · simp [PollFd.ready]
    · simp [PollFd.ready]
  · exact ⟨⟨rfl, rfl, rfl⟩, by simp, by simp, fun _ ↦ rfl⟩

theorem PollFd.Answer.report (h : PollFd.Answer p p') (hreg : p.Registered t)
    (he : p.Allows e) : PollFd.Answer p (p'.report e) where
  same := h.same
  pollIn hin := by
    rcases (Bool.or_eq_true _ _).mp hin with hin | hin
    · exact h.pollIn hin
    · exact he.epollIn hin
  pollOut hout := by
    rcases (Bool.or_eq_true _ _).mp hout with hout | hout
    · exact h.pollOut hout
    · exact he.epollOut hout
  negative hneg := absurd hneg (not_lt.mpr hreg.valid)

theorem PollFd.report_answered (he : e ≠ {}) : (p.report e).answered = true := by
  obtain ⟨i, o, r, u⟩ := e
  unfold PollFd.answered PollFd.report
  simp only [ne_eq, EpollEvents.mk.injEq, Revents.mk.injEq, Bool.or_eq_false_iff,
    decide_eq_true_eq] at he ⊢
  exact fun h ↦ he ⟨h.1.2, h.2.1.2, h.2.2.1.2, h.2.2.2.2⟩

theorem countP_modify {α : Type} {q : α → Bool} {f : α → α} {l : List α} {n : ℕ} {x : α}
    (hx : l[n]? = some x) (hno : q x = false) (hyes : q (f x) = true) :
    (l.modify n f).countP q = l.countP q + 1 := by
  induction l generalizing n with
  | nil => cases hx
  | cons y l ih =>
    cases n with
    | zero =>
      cases hx
      simp [hno, hyes]
    | succ n =>
      rw [List.modify_succ_cons, List.countP_cons, List.countP_cons, ih hx]
      omega

theorem forall₂_modify {α : Type} {R : α → α → Prop} {f : α → α} {l l' : List α} {n : ℕ}
    (h : List.Forall₂ R l l') (hf : ∀ x y, l[n]? = some x → R x y → R x (f y)) :
    List.Forall₂ R l (l'.modify n f) := by
  induction h generalizing n with
  | nil =>
    rw [List.modify_nil]
    exact .nil
  | cons hxy h ih =>
    cases n with
    | zero => exact .cons (hf _ _ rfl hxy) h
    | succ n => exact .cons hxy (ih hf)

theorem reportAll_answered (hrep : ListsRegistered t pfd events)
    (hnew : ∀ e ∈ events, ∃ p, pfd'[e.fd.toNat]? = some p ∧ p.answered = false) :
    (reportAll pfd' events).countP PollFd.answered =
      pfd'.countP PollFd.answered + events.length := by
  induction events generalizing pfd' with
  | nil => rfl
  | cons e events ih =>
    obtain ⟨hone, hrest⟩ := List.nodup_cons.mp hrep.once
    obtain ⟨hreg, hregs⟩ := List.forall_mem_cons.mp hrep.registered
    obtain ⟨⟨p, hp, hno⟩, hnew⟩ := List.forall_mem_cons.mp hnew
    obtain ⟨hnonneg, _, -, -, hallows⟩ := hreg
    change (reportAll (pfd'.modify e.fd.toNat fun p ↦ p.report e.events) events).countP _ = _
    rw [ih ⟨hrest, hregs⟩, countP_modify hp hno (PollFd.report_answered hallows.some),
      List.length_cons]
    · omega
    · intro e' he'
      obtain ⟨p', hp', hno'⟩ := hnew e' he'
      refine ⟨p', ?_, hno'⟩
      have hne : e.fd.toNat ≠ e'.fd.toNat := by
        have hfd : e'.fd ≠ e.fd := fun h ↦ hone (h ▸ List.mem_map_of_mem he')
        have := (hregs e' he').1
        omega
      rw [List.getElem?_modify_ne _ _ hne, hp']

theorem reportAll_answer (hrep : ListsRegistered t pfd events)
    (h : List.Forall₂ PollFd.Answer pfd pfd') :
    List.Forall₂ PollFd.Answer pfd (reportAll pfd' events) := by
  induction events generalizing pfd' with
  | nil => exact h
  | cons e events ih =>
    obtain ⟨hreg, hregs⟩ := List.forall_mem_cons.mp hrep.registered
    obtain ⟨-, p, hp, hregistered, hallows⟩ := hreg
    refine ih ⟨(List.nodup_cons.mp hrep.once).2, hregs⟩ (forall₂_modify h fun x y hx hxy ↦ ?_)
    obtain rfl := Option.some.inj (hp.symm.trans hx)
    exact hxy.report hregistered hallows

end Count

/-- The number that `poll` returns is that of the elements it has an answer for, and it answers no
more than it was asked. -/
theorem poll_counts (net : NetErrno → ℤ) {σ : Type} (K : (q : KernelAsk) → σ → q.Answer × σ)
    {t : Table} (ht : InUse t) {a : Waits} (hK : a.AnsweredBy K) {pfd : List PollFd}
    (hlen : pfd.length < MAX_OPEN_FILES) (heid : 0 ≤ a.eid) {events : List EpollEvent}
    (hwait : a.wait = .ok events) (hrep : ListsRegistered t pfd events) (timeout : ℤ) (k : σ) :
    ∃ out pfd' t' k', (poll net pfd timeout).run (serve net K) (t, k) =
        some ((out, pfd'), t', k') ∧
      out.ret = pfd'.countP PollFd.answered ∧ List.Forall₂ PollFd.Answer pfd pfd' := by
  have hgoes : Goes t a False (poll net pfd timeout) [] _ := goes_poll hlen timeout
  obtain ⟨⟨out, pfd'⟩, t', k', hrun, s, hres, -⟩ := hgoes.returns net ht hK (neutral_poll _ _) k
  refine ⟨out, pfd', t', k', hrun, ?_⟩
  unfold polled at hres
  have hfirst : List.Forall₂ PollFd.Answer pfd (pfd.map (PollFd.first t a.tell)) :=
    List.forall₂_map_right_iff.mpr (List.forall₂_same.mpr fun p _ ↦ PollFd.first_answer)
  by_cases hzero : pfd.length = 0
  · rw [if_pos hzero] at hres
    cases hres
    obtain rfl := List.length_eq_zero_iff.mp hzero
    exact ⟨rfl, .nil⟩
  · rw [if_neg hzero, if_neg (not_lt.mpr heid), hwait] at hres
    cases hres
    refine ⟨?_, reportAll_answer hrep hfirst⟩
    have hcount : (pfd.map (PollFd.first t a.tell)).countP PollFd.answered =
        pfd.countP (PollFd.found t a.tell) := by
      rw [List.countP_map]
      exact List.countP_congr fun p _ ↦ by rw [Function.comp_apply, PollFd.first_answered]
    rw [reportAll_answered hrep, hcount, Nat.cast_add]
    intro e he
    obtain ⟨-, p, hp, hreg, -⟩ := hrep.registered e he
    refine ⟨p.first t a.tell, by rw [List.getElem?_map, hp]; rfl, ?_⟩
    rw [PollFd.first_answered, hreg.not_found]

def mixedFds : List PollFd := [⟨3, true, false, {}⟩, ⟨-1, true, true, {}⟩, ⟨0x100, false, true, {}⟩]

theorem withSocket_inUse : InUse withSocket.table :=
  ((sane_init 0 1 2).socket granting).covers.inUse

theorem withSocket_socket : (withSocket.table.pool 3).type = .SOCKET := by
  rw [withSocket_entry]

theorem poll_counts_mixed :
    let a : Waits := ⟨1, fun _ ↦ 0, .ok [⟨{ epollIn := true, epollHup := true }, 0⟩]⟩
    ∃ out pfd' t' k', (poll 0 mixedFds 1000).run (serve 0 a.kernel) (withSocket.table, ()) =
        some ((out, pfd'), t', k') ∧
      out.ret = pfd'.countP PollFd.answered ∧ List.Forall₂ PollFd.Answer mixedFds pfd' := by
  intro a
  have hreg : PollFd.Registered withSocket.table ⟨3, true, false, {}⟩ :=
    ⟨by decide, by decide, 3, 3, withSocket_open, withSocket_socket⟩
  refine poll_counts 0 _ withSocket_inUse a.answeredBy_kernel (by decide) (by decide) rfl
    ⟨by simp, fun e he ↦ ?_⟩ 1000 ()
  obtain rfl := List.mem_singleton.mp he
  exact ⟨le_rfl, _, rfl, hreg, by simp, fun _ ↦ rfl, by simp⟩

/-- The timeout of a wait is the caller's: no end to it for a negative one, and otherwise its
microseconds. -/
def TimeoutOf (timeout wait : ℤ) : Prop :=
  (timeout < 0 → wait < 0) ∧ (0 ≤ timeout → wait = timeout * 1000)

/-- The wait for events does not block if there is an answer already, and otherwise takes the
caller's timeout. -/
def WaitsAsNeeded (t : Table) (tell : ℤ → ℤ) (pfd : List PollFd) (timeout : ℤ)
    (pauses : List Pause) : Prop :=
  ∀ wait, Pause.wait wait ∈ pauses →
    if pfd.any (PollFd.found t tell) then wait = 0 else TimeoutOf timeout wait

/-- The timeouts whose microseconds `poll` gets right: those of an `int`, and the negative ones that
stay negative modulo 2^32. -/
def TimeoutFits (timeout : ℤ) : Prop :=
  if 0 ≤ timeout then timeout * 1000 < 2 ^ 31 else 2 ^ 31 ≤ timeout * 1000 % 2 ^ 32

instance (timeout wait : ℤ) : Decidable (TimeoutOf timeout wait) :=
  inferInstanceAs (Decidable (_ ∧ _))

instance (timeout : ℤ) : Decidable (TimeoutFits timeout) :=
  inferInstanceAs (Decidable (if 0 ≤ timeout then _ else _))

theorem timeoutOf_iff (timeout : ℤ) :
    TimeoutOf timeout ((timeout * 1000).bmod (2 ^ 32)) ↔ TimeoutFits timeout := by
  unfold TimeoutOf TimeoutFits
  rw [bmod_int]
  split <;> split <;> omega

theorem bmod_eq_zero_iff (timeout : ℤ) :
    (timeout * 1000).bmod (2 ^ 32) = 0 ↔ timeout % 2 ^ 29 = 0 := by
  rw [bmod_int]
  split <;> omega

/-- `poll` waits for its whole timeout whether it has found something ready or not. -/
theorem poll_waits_as_needed_iff (net : NetErrno → ℤ) (t : Table) (a : Waits) (pfd : List PollFd)
    (timeout : ℤ) :
    Goes t a False (poll net pfd timeout) [] (fun _ s ↦ WaitsAsNeeded t a.tell pfd timeout s) ↔
      MAX_OPEN_FILES ≤ pfd.length ∨ pfd = [] ∨ a.eid < 0 ∨
        if pfd.any (PollFd.found t a.tell) then timeout % 2 ^ 29 = 0 else TimeoutFits timeout := by
  by_cases hlen : MAX_OPEN_FILES ≤ pfd.length
  · rw [poll, if_pos hlen]
    refine iff_of_true (goes_pure fun wait hwait ↦ ?_) (.inl hlen)
    exact absurd hwait List.not_mem_nil
  rw [or_iff_right hlen, poll_pauses_iff net t a (not_le.mp hlen)]
  unfold WaitsAsNeeded pollPauses
  by_cases hzero : pfd = []
  · simp [hzero]
  · have hlength : ¬ pfd.length = 0 := fun h ↦ hzero (List.length_eq_zero_iff.mp h)
    rw [if_neg hlength, or_iff_right hzero]
    by_cases heid : a.eid < 0
    · simp [heid]
    · rw [if_neg heid, or_iff_right heid, ← bmod_eq_zero_iff, ← timeoutOf_iff]
      simp

def oneFile : List PollFd := [⟨3, true, false, {}⟩]

/-- `poll` finds the file ready and then waits for ever. -/
theorem poll_hangs_on_file :
    ¬ Goes openFile.table ⟨1, fun _ ↦ -1, .ok []⟩ False (poll 0 oneFile (-1)) []
      fun _ s ↦ WaitsAsNeeded openFile.table (fun _ ↦ -1) oneFile (-1) s := by
  rw [poll_pauses_iff 0 openFile.table ⟨1, fun _ ↦ -1, .ok []⟩ (by decide)]
  have hfound : oneFile.any (PollFd.found openFile.table fun _ ↦ -1) = true := by
    simp [oneFile, PollFd.found, openFile_regular]
  intro h
  have hwait := h (-1000) (by decide)
  rw [if_pos hfound] at hwait
  exact absurd hwait (by decide)

def bits (set : Option FdSet) : ℕ := set.elim 0 fun set ↦ (List.range MAX_OPEN_FILES).countP set

theorem bits_some (set : FdSet) : bits (some set) = (List.range MAX_OPEN_FILES).countP set := rfl

def FdSets.bits (sets : FdSets) : ℕ :=
  Descriptor.bits sets.readfds + Descriptor.bits sets.writefds + Descriptor.bits sets.exceptfds

def Waits.reported (a : Waits) (nfds : ℤ) : List EpollEvent :=
  if 0 < nfds ∧ nfds < MAX_OPEN_FILES ∧ 0 ≤ a.eid then
    match a.wait with
    | .error _ => []
    | .ok events => events
  else []

/-- The events are of sockets that are in one of the sets, each of them once and with some of what
it is in a set for, an error or a hang-up. -/
structure ReportsSets (t : Table) (nfds : ℤ) (sets : FdSets) (events : List EpollEvent) :
    Prop where
  once : (events.map EpollEvent.fd).Nodup
  watched : ∀ e ∈ events, 0 ≤ e.fd ∧ e.fd < nfds ∧
    (∃ n i, openAt t e.fd = some (n, i) ∧ (t.pool i).type = .SOCKET) ∧
    (isSet sets.readfds e.fd.toNat || isSet sets.writefds e.fd.toNat ||
      isSet sets.exceptfds e.fd.toNat) = true
  some : ∀ e ∈ events, e.events ≠ {}
  epollIn : ∀ e ∈ events, e.events.epollIn = true → isSet sets.readfds e.fd.toNat = true
  epollOut : ∀ e ∈ events, e.events.epollOut = true → isSet sets.writefds e.fd.toNat = true

/-- `select` writes to no set it did not get, leaves no bit in a set that was not there, counts the
bits unless it fails, and returns 0 only if nothing has been reported. -/
structure AnswersSets (sets : FdSets) (events : List EpollEvent) (out : Outcome)
    (sets' : FdSets) : Prop where
  null : (sets.readfds = none → sets'.readfds = none) ∧
    (sets.writefds = none → sets'.writefds = none) ∧
    (sets.exceptfds = none → sets'.exceptfds = none)
  subset : ∀ fd, (isSet sets'.readfds fd = true → isSet sets.readfds fd = true) ∧
    (isSet sets'.writefds fd = true → isSet sets.writefds fd = true) ∧
    (isSet sets'.exceptfds fd = true → isSet sets.exceptfds fd = true)
  count : out.errno = none → out.ret = sets'.bits
  silent : out.ret = 0 → events = []

/-- Every error that the wait reports is one the caller watches for, and if it reports anything
there is more to it than hang-ups. A call for no descriptors gets empty sets. -/
structure Expected (nfds : ℤ) (sets : FdSets) (events : List EpollEvent) : Prop where
  errors : ∀ e ∈ events, e.events.epollErr = true → isSet sets.exceptfds e.fd.toNat = true
  marks : events = [] ∨ ∃ e ∈ events,
    (e.events.epollIn || e.events.epollOut || e.events.epollErr) = true
  empty : nfds = 0 → sets.bits = 0

section Sets

variable {t : Table} {a : Waits} {nfds : ℤ} {sets : FdSets} {events : List EpollEvent}
  {bit : EpollEvents → Bool}

theorem marks_eq_zero {e : EpollEvents} :
    e.marks = 0 ↔ (e.epollIn || e.epollOut || e.epollErr) = false := by
  unfold EpollEvents.marks
  cases e.epollIn <;> cases e.epollOut <;> cases e.epollErr <;> simp

theorem sum_marks : (events.map fun e ↦ e.events.marks).sum =
    events.countP (fun e ↦ e.events.epollIn) + events.countP (fun e ↦ e.events.epollOut) +
      events.countP fun e ↦ e.events.epollErr := by
  have hif (b : Bool) : (if b = true then 1 else 0) = b.toNat := by cases b <;> rfl
  induction events with
  | nil => rfl
  | cons e events ih =>
    rw [List.map_cons, List.sum_cons, ih, List.countP_cons, List.countP_cons, List.countP_cons,
      hif, hif, hif, EpollEvents.marks]
    omega

theorem countP_update {l : List ℕ} (hl : l.Nodup) {set : FdSet} {n : ℕ} (hn : n ∈ l)
    (hset : set n = false) : l.countP (Function.update set n true) = l.countP set + 1 := by
  induction l with
  | nil => cases hn
  | cons m l ih =>
    obtain ⟨hm, hl⟩ := List.nodup_cons.mp hl
    rw [List.countP_cons, List.countP_cons]
    by_cases hmn : m = n
    · subst hmn
      have hrest : l.countP (Function.update set m true) = l.countP set := by
        refine List.countP_congr fun x hx ↦ ?_
        rw [Function.update_of_ne]
        rintro rfl
        exact hm hx
      simp [hrest, hset]
    · rw [ih hl (List.mem_of_ne_of_mem (Ne.symm hmn) hn), Function.update_of_ne hmn]
      omega

theorem marked_nil (set : FdSet) : marked bit set [] = set := rfl

theorem marked_cons (set : FdSet) (e : EpollEvent) : marked bit set (e :: events) =
    marked bit (if bit e.events then Function.update set e.fd.toNat true else set) events := rfl

theorem marked_count {set : FdSet} (honce : (events.map EpollEvent.fd).Nodup)
    (hfd : ∀ e ∈ events, 0 ≤ e.fd ∧ e.fd.toNat < MAX_OPEN_FILES)
    (hset : ∀ e ∈ events, set e.fd.toNat = false) :
    (List.range MAX_OPEN_FILES).countP (marked bit set events) =
      (List.range MAX_OPEN_FILES).countP set + events.countP fun e ↦ bit e.events := by
  induction events generalizing set with
  | nil => rw [marked_nil, List.countP_nil, add_zero]
  | cons e events ih =>
    obtain ⟨hone, honce⟩ := List.nodup_cons.mp honce
    rw [List.forall_mem_cons] at hfd hset
    have hother : ∀ e' ∈ events, e'.fd.toNat ≠ e.fd.toNat := by
      intro e' he' h
      have hne : e'.fd ≠ e.fd := fun h ↦ hone (h ▸ List.mem_map_of_mem he')
      have := (hfd.2 e' he').1
      omega
    rw [marked_cons, ih honce hfd.2, List.countP_cons]
    · cases hbit : bit e.events with
      | false => simp
      | true =>
        rw [if_pos rfl, if_pos rfl,
          countP_update List.nodup_range (List.mem_range.mpr hfd.1.2) hset.1]
        omega
    · intro e' he'
      split
      · rw [Function.update_of_ne (hother e' he')]
        exact hset.2 e' he'
      · exact hset.2 e' he'

theorem side_count {set : Option FdSet} (hrep : ReportsSets t nfds sets events)
    (hn : nfds < MAX_OPEN_FILES) (hset : ∀ e ∈ events, bit e.events = true → set ≠ none) :
    bits ((set.map fun _ _ ↦ false).map fun set ↦ marked bit set events) =
      events.countP fun e ↦ bit e.events := by
  cases set with
  | none =>
    refine (List.countP_eq_zero.mpr fun e he hbit ↦ ?_).symm
    exact hset e he hbit rfl
  | some set =>
    have hfd : ∀ e ∈ events, 0 ≤ e.fd ∧ e.fd.toNat < MAX_OPEN_FILES := by
      intro e he
      have := hrep.watched e he
      omega
    have hzero : (List.range MAX_OPEN_FILES).countP (fun _ : ℕ ↦ false) = 0 :=
      List.countP_eq_zero.mpr fun _ _ ↦ Bool.false_ne_true
    rw [Option.map_some, Option.map_some, bits_some, marked_count hrep.once hfd fun _ _ ↦ rfl,
      hzero, zero_add]

theorem bits_marked (hrep : ReportsSets t nfds sets events) (hn : nfds < MAX_OPEN_FILES)
    (hhold : ∀ e ∈ events, sets.Hold e.events) :
    (sets.zero.marked events).bits = (events.map fun e ↦ e.events.marks).sum := by
  rw [sum_marks, FdSets.bits]
  exact congrArg₂ _ (congrArg₂ _ (side_count hrep hn fun e he ↦ (hhold e he).1)
    (side_count hrep hn fun e he ↦ (hhold e he).2.1))
    (side_count hrep hn fun e he ↦ (hhold e he).2.2)

theorem isSet_marked {set : Option FdSet} {fd : ℕ} :
    isSet ((set.map fun _ _ ↦ false).map fun set ↦ marked bit set events) fd = true ↔
      set ≠ none ∧ ∃ e ∈ events, e.fd.toNat = fd ∧ bit e.events = true := by
  cases set with
  | none => simp [isSet]
  | some set =>
    simp only [isSet, Option.map_some, Option.any_some, marked_eq_true, Bool.false_eq_true,
      false_or, ne_eq, reduceCtorEq, not_false_eq_true, true_and]

theorem isSet_ne_none {set : Option FdSet} {fd : ℕ} (h : isSet set fd = true) : set ≠ none := by
  rintro rfl
  exact Bool.false_ne_true h

theorem Expected.hold (hrep : ReportsSets t nfds sets events) (h : Expected nfds sets events) :
    ∀ e ∈ events, sets.Hold e.events :=
  fun e he ↦ ⟨fun hin ↦ isSet_ne_none (hrep.epollIn e he hin),
    fun hout ↦ isSet_ne_none (hrep.epollOut e he hout),
    fun herr ↦ isSet_ne_none (h.errors e he herr)⟩

theorem answersSets_same {out : Outcome} (h : out.errno = none → out.ret = sets.bits) :
    AnswersSets sets [] out sets :=
  ⟨⟨id, id, id⟩, fun _ ↦ ⟨id, id, id⟩, h, fun _ ↦ rfl⟩

theorem expected_nil : Expected nfds sets [] ↔ (nfds = 0 → sets.bits = 0) :=
  ⟨Expected.empty, fun h ↦ ⟨by simp, .inl rfl, h⟩⟩

theorem answersSets_marked (hrep : ReportsSets t nfds sets events) (hzero : nfds ≠ 0)
    (hn : nfds < MAX_OPEN_FILES) (hhold : ∀ e ∈ events, sets.Hold e.events) :
    AnswersSets sets events ⟨((events.map fun e ↦ e.events.marks).sum : ℕ), none⟩
      (sets.zero.marked events) ↔ Expected nfds sets events := by
  constructor
  · intro h
    refine ⟨fun e he herr ↦ ?_, ?_, fun h ↦ absurd h hzero⟩
    · exact (h.subset e.fd.toNat).2.2 (isSet_marked.mpr ⟨(hhold e he).2.2 herr, e, he, rfl, herr⟩)
    · by_contra hno
      rw [not_or, not_exists] at hno
      refine hno.1 (h.silent ?_)
      rw [Nat.cast_eq_zero, List.sum_eq_zero_iff_forall_eq_nat]
      intro n hmem
      obtain ⟨e, he, rfl⟩ := List.mem_map.mp hmem
      exact marks_eq_zero.mpr (Bool.eq_false_iff.mpr fun hmark ↦ hno.2 e ⟨he, hmark⟩)
  · rintro ⟨herr, hmark, -⟩
    refine ⟨?_, fun fd ↦ ⟨?_, ?_, ?_⟩, fun _ ↦ ?_, fun hret ↦ ?_⟩
    · simp only [FdSets.marked, FdSets.zero, Option.map_eq_none_iff, imp_self, and_self]
    · intro hset
      obtain ⟨-, e, he, rfl, hin⟩ := isSet_marked.mp hset
      exact hrep.epollIn e he hin
    · intro hset
      obtain ⟨-, e, he, rfl, hout⟩ := isSet_marked.mp hset
      exact hrep.epollOut e he hout
    · intro hset
      obtain ⟨-, e, he, rfl, he'⟩ := isSet_marked.mp hset
      exact herr e he he'
    · rw [bits_marked hrep hn hhold]
    · apply hmark.resolve_right
      intro hsome
      obtain ⟨e, he, hmark⟩ := hsome
      rw [Nat.cast_eq_zero, List.sum_eq_zero_iff_forall_eq_nat] at hret
      have := marks_eq_zero.mp (hret _ (List.mem_map_of_mem he))
      exact Bool.false_ne_true (this.symm.trans hmark)

theorem Waits.reported_nil (h : ¬ (0 < nfds ∧ nfds < MAX_OPEN_FILES ∧ 0 ≤ a.eid)) :
    a.reported nfds = [] := if_neg h

theorem Waits.reported_error {n : ℕ} (h : a.wait = .error n) : a.reported nfds = [] := by
  unfold Waits.reported
  rw [h]
  exact ite_self []

theorem Waits.reported_ok {n : ℕ} (hzero : n ≠ 0) (hn : n < MAX_OPEN_FILES) (heid : ¬ a.eid < 0)
    (h : a.wait = .ok events) : a.reported n = events := by
  unfold Waits.reported
  rw [h, if_pos ⟨by omega, by omega, not_lt.mp heid⟩]

/-- `select` leaves the sets alone where it has no events, and else it has marked them. -/
inductive Selects (a : Waits) (nfds : ℤ) (sets : FdSets) : Outcome × FdSets → Prop
  | same (out : Outcome) (hno : a.reported nfds = []) (hout : nfds = 0 ∧ out = ⟨0, none⟩ ∨
      nfds ≠ 0 ∧ out.errno ≠ none) : Selects a nfds sets (out, sets)
  | marks (hzero : nfds ≠ 0) (hn : nfds < MAX_OPEN_FILES)
      (hhold : ∀ e ∈ a.reported nfds, sets.Hold e.events) : Selects a nfds sets
      (⟨(((a.reported nfds).map fun e ↦ e.events.marks).sum : ℕ), none⟩,
        sets.zero.marked (a.reported nfds))

theorem selects_selected (net : NetErrno → ℤ) {n : ℕ} (hn : n < MAX_OPEN_FILES)
    (hhold : n ≠ 0 → ¬ a.eid < 0 → ∀ events, a.wait = .ok events →
      ∀ e ∈ events, sets.Hold e.events) : Selects a n sets (selected net a n sets) := by
  unfold selected
  by_cases hzero : n = 0
  · rw [if_pos hzero]
    exact .same _ (Waits.reported_nil (by omega)) (.inl ⟨by omega, rfl⟩)
  · rw [if_neg hzero]
    by_cases heid : a.eid < 0
    · rw [if_pos heid]
      exact .same _ (Waits.reported_nil (by omega)) (.inr ⟨by omega, Option.some_ne_none _⟩)
    · rw [if_neg heid]
      cases hwait : a.wait with
      | error m =>
        exact .same _ (Waits.reported_error hwait) (.inr ⟨by omega, Option.some_ne_none _⟩)
      | ok events =>
        have hrep := Waits.reported_ok hzero hn heid hwait
        have hmarks : Selects a n sets _ := .marks (by omega) (by omega)
          (by rw [hrep]; exact hhold hzero heid events hwait)
        rwa [hrep] at hmarks

theorem goes_selects (net : NetErrno → ℤ) (nfds : ℤ) (sets : FdSets)
    (timeout : Option (ℤ × ℤ)) {f : Prop}
    (hf : ¬ (∀ e ∈ a.reported nfds, sets.Hold e.events) → f) :
    Goes t a f (select net nfds sets timeout) [] fun r _ ↦ Selects a nfds sets r := by
  by_cases hn : nfds < 0 ∨ MAX_OPEN_FILES ≤ nfds
  · rw [select, if_pos hn]
    have hne : nfds ≠ 0 := by
      rintro rfl
      exact absurd hn (by decide)
    exact goes_pure (.same _ (Waits.reported_nil (by omega)) (.inr ⟨hne, Option.some_ne_none _⟩))
  · obtain ⟨n, rfl⟩ := Int.eq_ofNat_of_zero_le (show 0 ≤ nfds by omega)
    have hevents : n ≠ 0 → ¬ a.eid < 0 → ∀ events, a.wait = .ok events →
        ¬ (∀ e ∈ events, sets.Hold e.events) → f := by
      intro hzero heid events hwait hno
      rw [Waits.reported_ok hzero (by omega) heid hwait] at hf
      exact hf hno
    have hgoes : Goes t a f (select net n sets timeout) [] _ :=
      goes_select (by omega) sets timeout hevents
    refine hgoes.mono fun r s hr ↦ ?_
    obtain ⟨rfl, -, hhold⟩ := hr
    exact selects_selected net (by omega) hhold

theorem Selects.answers_iff {r : Outcome × FdSets}
    (hrep : ReportsSets t nfds sets (a.reported nfds)) (h : Selects a nfds sets r) :
    AnswersSets sets (a.reported nfds) r.1 r.2 ↔ Expected nfds sets (a.reported nfds) := by
  cases h with
  | same out hno hout =>
    rw [hno, expected_nil]
    rcases hout with ⟨hzero, hret⟩ | ⟨hzero, herr⟩
    · constructor
      · intro h _
        have hcount := h.count (by rw [hret])
        rw [hret] at hcount
        change (0 : ℤ) = sets.bits at hcount
        omega
      · intro h
        refine answersSets_same fun _ ↦ ?_
        rw [hret, h hzero]
        rfl
    · exact ⟨fun _ h ↦ absurd h hzero, fun _ ↦ answersSets_same fun h ↦ absurd h herr⟩
  | marks hzero hn hhold => exact answersSets_marked hrep hzero hn hhold

end Sets

/-- `select` answers what it was asked exactly if the events are as expected. -/
theorem select_answers_iff (net : NetErrno → ℤ) {σ : Type} (K : (q : KernelAsk) → σ → q.Answer × σ)
    {t : Table} (ht : InUse t) {a : Waits} (hK : a.AnsweredBy K) (nfds : ℤ) (sets : FdSets)
    (hrep : ReportsSets t nfds sets (a.reported nfds)) (timeout : Option (ℤ × ℤ)) (k : σ) :
    (∃ out sets' t' k', (select net nfds sets timeout).run (serve net K) (t, k) =
        some ((out, sets'), t', k') ∧ AnswersSets sets (a.reported nfds) out sets') ↔
      Expected nfds sets (a.reported nfds) := by
  constructor
  · rintro ⟨out, sets', t', k', hrun, h⟩
    have hgoes : Goes t a True (select net nfds sets timeout) [] _ :=
      goes_selects net nfds sets timeout fun _ ↦ trivial
    obtain ⟨_, hsel⟩ := hgoes.run ht hK (neutral_select _ _ _) hrun
    exact (hsel.answers_iff hrep).mp h
  · intro hexp
    have hgoes : Goes t a False (select net nfds sets timeout) [] _ :=
      goes_selects net nfds sets timeout fun hno ↦ hno (hexp.hold hrep)
    obtain ⟨⟨out, sets'⟩, t', k', hrun, _, hsel⟩ := hgoes.returns net ht hK (neutral_select _ _ _) k
    exact ⟨out, sets', t', k', hrun, (hsel.answers_iff hrep).mpr hexp⟩

def readOnly : FdSets := ⟨some fun fd ↦ fd = 3, none, none⟩

def oneEvent (e : EpollEvents) : Waits := ⟨1, fun _ ↦ 0, .ok [⟨e, 3⟩]⟩

theorem oneEvent_reported (e : EpollEvents) : (oneEvent e).reported 4 = [⟨e, 3⟩] :=
  if_pos ⟨by decide, by decide, (by decide : (0 : ℤ) ≤ 1)⟩

theorem oneEvent_reportsSets {e : EpollEvents} (he : e ≠ {}) (hout : e.epollOut = false) :
    ReportsSets withSocket.table 4 readOnly ((oneEvent e).reported 4) := by
  rw [oneEvent_reported]
  constructor
  · exact List.nodup_singleton 3
  all_goals
    intro x hx
    obtain rfl := List.mem_singleton.mp hx
  · exact ⟨(by decide : (0 : ℤ) ≤ 3), (by decide : (3 : ℤ) < 4),
      ⟨3, 3, withSocket_open, withSocket_socket⟩, rfl⟩
  · exact he
  · exact fun _ ↦ rfl
  · exact fun h ↦ absurd (hout.symm.trans h) Bool.false_ne_true

theorem select_answers_iff_read :
    ∃ out sets' t' k', (select 0 4 readOnly none).run
        (serve 0 (oneEvent { epollIn := true, epollHup := true }).kernel) (withSocket.table, ()) =
        some ((out, sets'), t', k') ∧
      AnswersSets readOnly ((oneEvent { epollIn := true, epollHup := true }).reported 4) out
        sets' := by
  refine (select_answers_iff 0 _ withSocket_inUse (Waits.answeredBy_kernel _) 4 readOnly
    (oneEvent_reportsSets (by decide) rfl) none ()).mpr ⟨?_, .inr ?_, fun h ↦ absurd h (by decide)⟩
  · intro e he herr
    rw [oneEvent_reported] at he
    obtain rfl := List.mem_singleton.mp he
    cases herr
  · rw [oneEvent_reported]
    exact ⟨_, List.mem_singleton_self _, rfl⟩

/-- The connection fails, and `select` marks this in a set that is not there. -/
theorem select_marks_null :
    ReportsSets withSocket.table 4 readOnly ((oneEvent { epollErr := true }).reported 4) ∧
    ¬ ∃ out sets' t' k', (select 0 4 readOnly none).run
        (serve 0 (oneEvent { epollErr := true }).kernel) (withSocket.table, ()) =
        some ((out, sets'), t', k') ∧
      AnswersSets readOnly ((oneEvent { epollErr := true }).reported 4) out sets' := by
  have hrep := oneEvent_reportsSets (e := { epollErr := true }) (by decide) rfl
  refine ⟨hrep, fun ⟨out, sets', t', k', hrun, h⟩ ↦ ?_⟩
  have hgoes : Goes withSocket.table (oneEvent { epollErr := true }) True
      (select 0 4 readOnly none) [] _ := goes_selects 0 4 readOnly none fun _ ↦ trivial
  obtain ⟨_, hsel⟩ := hgoes.run withSocket_inUse (Waits.answeredBy_kernel _)
    (neutral_select _ _ _) hrun
  have herrors := ((hsel.answers_iff hrep).mp h).errors
  rw [oneEvent_reported] at herrors
  cases herrors _ (List.mem_singleton_self _) rfl

end SceLibcPosix.Descriptor
