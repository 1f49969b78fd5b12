import SceLibcPosix.Descriptor.Select

namespace SceLibcPosix.Descriptor

open Errno VitaError Programs

/-- The answers that decide what `poll` and `select` report: the result of `sceNetEpollCreate`, that
of `sceFiosFHTell` for each number, and that of the wait. -/
structure Waits where
  eid : ℤ
  tell : ℤ → ℤ
  wait : Except ℕ (List EpollEvent)

namespace Waits

def Gives (a : Waits) : (q : KernelAsk) → q.Answer → Prop
  | .epollCreate _, x => x = a.eid
  | .fhTell fd, x => x = a.tell fd
  | .epollWait _ _ _, x => x = a.wait
  | _, _ => True

/-- A kernel that answers as `a` says. -/
def AnsweredBy {σ : Type} (a : Waits) (K : (q : KernelAsk) → σ → q.Answer × σ) : Prop :=
  ∀ q k, a.Gives q (K q k).1

def Fails (a : Waits) : Prop :=
  ∃ events, a.wait = .ok events ∧ ∃ e ∈ events, e.events.epollErr = true

end Waits

/-- The answers of a kernel that answers as `a` says to a call that runs alone on the table `t`. A
null pointer may be written to for an error event only. -/
def polling (t : Table) (a : Waits) : Rules Ask Ask.Answer Unit where
  may _
    | .fault => a.Fails
    | _ => True
  can _
    | .grab fd, x => x = (openAt t fd).map Prod.snd
    | .load i, d => d.type = (t.pool i).type
    | .kernel q, x => a.Gives q x
    | _, _ => True
  next _ _ _ := ()

def regular (t : Table) (tell : ℤ → ℤ) (fd : ℤ) : Bool :=
  match openAt t fd with
  | none => 0 ≤ tell fd
  | some (_, i) => (t.pool i).type = .FILE

def PollFd.first (t : Table) (tell : ℤ → ℤ) (p : PollFd) : PollFd :=
  let p := { p with revents := {} }
  if 0 ≤ p.fd ∧ regular t tell p.fd then p.ready else p

def pollResult (t : Table) (a : Waits) (pfd : List PollFd) : List PollFd :=
  if pfd.length = 0 ∨ a.eid < 0 then pfd
  else
    match a.wait with
    | .error _ => pfd.map (PollFd.first t a.tell)
    | .ok events => reportAll (pfd.map (PollFd.first t a.tell)) events

/-- A set after the loop of `select` over the events, which looks at one bit for it. -/
def marked (bit : EpollEvents → Bool) (set : FdSet) (events : List EpollEvent) : FdSet :=
  events.foldl
    (fun set e ↦ if bit e.events then Function.update set e.fd.toNat true else set) set

def selectResult (bit : EpollEvents → Bool) (nfds : ℕ) (a : Waits) (set : FdSet) : FdSet :=
  if nfds = 0 ∨ a.eid < 0 then set
  else
    match a.wait with
    | .error _ => set
    | .ok events => marked bit (fun _ ↦ false) events

/-- The time for which a call has the kernel let it wait: for events, or at all. -/
inductive Pause
  | wait (timeout : ℤ)
  | delay (usec : ℤ)
deriving DecidableEq, Repr

def KernelAsk.pause : KernelAsk → Option Pause
  | .epollWait _ _ timeout => some (.wait timeout)
  | .delayThread usec => some (.delay usec)
  | _ => none

/-- The same answers with a record of the pauses, last one first. `f` says whether a null pointer
may be written to. -/
def waiting (t : Table) (a : Waits) (f : Prop) : Rules Ask Ask.Answer (List Pause) where
  may _
    | .fault => f
    | _ => True
  can _ q x := (polling t a).can () q x
  next s
    | .kernel q, _ => q.pause.toList ++ s
    | _, _ => s

/-- However a call goes on the table `t`, it ends as `post` says, with the pauses it has made. -/
def Goes {α : Type} (t : Table) (a : Waits) (f : Prop) (p : Call α) (s : List Pause)
    (post : α → List Pause → Prop) : Prop := p.Obeys (waiting t a f) s post

theorem bmod_int (x : ℤ) : x.bmod (2 ^ 32) =
    if x % 2 ^ 32 < 2 ^ 31 then x % 2 ^ 32 else x % 2 ^ 32 - 2 ^ 32 := by
  rw [Int.bmod_def]
  split <;> split <;> omega

def PollFd.found (t : Table) (tell : ℤ → ℤ) (p : PollFd) : Bool :=
  0 ≤ p.fd && (p.pollIn || p.pollOut) && regular t tell p.fd

def polled (net : NetErrno → ℤ) (t : Table) (a : Waits) (pfd : List PollFd) :
    Outcome × List PollFd :=
  if pfd.length = 0 then (⟨0, none⟩, pfd)
  else if a.eid < 0 then (fail (scenetErrnoToErrno net a.eid), pfd)
  else
    match a.wait with
    | .error n => (fail (scenetErrnoToErrno net (Int.negSucc n)), pfd.map (PollFd.first t a.tell))
    | .ok events => (⟨pfd.countP (PollFd.found t a.tell) + events.length, none⟩,
        reportAll (pfd.map (PollFd.first t a.tell)) events)

def pollPauses (eid : ℤ) (pfd : List PollFd) (timeout : ℤ) : List Pause :=
  if pfd.length = 0 then [.delay (timeout * 1000 % 2 ^ 32)]
  else if eid < 0 then []
  else [.wait ((timeout * 1000).bmod (2 ^ 32))]

/-- The timeout of `select` as the code computes it. -/
def selectWait (timeout : Option (ℤ × ℤ)) : ℤ :=
  (timeout.map fun t ↦ (t.1 * 1000000 + t.2).bmod (2 ^ 32)).getD (-1)

def selectPauses (eid : ℤ) (nfds : ℕ) (timeout : Option (ℤ × ℤ)) : List Pause :=
  if nfds = 0 then if 0 < selectWait timeout then [.delay (selectWait timeout)] else []
  else if eid < 0 then []
  else [.wait (selectWait timeout)]

/-- The bits of an event that `select` counts. -/
def EpollEvents.marks (e : EpollEvents) : ℕ := e.epollIn.toNat + e.epollOut.toNat + e.epollErr.toNat

def FdSets.marked (sets : FdSets) (events : List EpollEvent) : FdSets where
  readfds := sets.readfds.map fun set ↦ Descriptor.marked EpollEvents.epollIn set events
  writefds := sets.writefds.map fun set ↦ Descriptor.marked EpollEvents.epollOut set events
  exceptfds := sets.exceptfds.map fun set ↦ Descriptor.marked EpollEvents.epollErr set events

/-- Each event has a set to be marked in. -/
def FdSets.Hold (sets : FdSets) (e : EpollEvents) : Prop :=
  (e.epollIn = true → sets.readfds ≠ none) ∧ (e.epollOut = true → sets.writefds ≠ none) ∧
  (e.epollErr = true → sets.exceptfds ≠ none)

def selected (net : NetErrno → ℤ) (a : Waits) (nfds : ℕ) (sets : FdSets) : Outcome × FdSets :=
  if nfds = 0 then (⟨0, none⟩, sets)
  else if a.eid < 0 then (fail (scenetErrnoToErrno net a.eid), sets)
  else
    match a.wait with
    | .error n => (fail (scenetErrnoToErrno net (Int.negSucc n)), sets)
    | .ok events => (⟨((events.map fun e ↦ e.events.marks).sum : ℕ), none⟩,
        sets.zero.marked events)

section Goes

variable {α β : Type} {net : NetErrno → ℤ} {t : Table} {a : Waits} {f : Prop} {p : Call α}
  {g : α → Call β} {s s' : List Pause} {post : α → List Pause → Prop}
  {post' : β → List Pause → Prop} {i : Entry} {fd eid : ℤ}

theorem goes_pure {r : α} (h : post r s) : Goes t a f (pure r) s post := h

theorem Goes.bind (hp : Goes t a f p s post)
    (hg : ∀ r s', post r s' → Goes t a f (g r) s' post') : Goes t a f (p >>= g) s post' :=
  Program.obeys_bind.mpr (hp.mono hg)

theorem Goes.ite {c : Prop} [Decidable c] {q : Call α} (hp : c → Goes t a f p s post)
    (hq : ¬ c → Goes t a f q s post) : Goes t a f (if c then p else q) s post := by
  split
  · next h => exact hp h
  · next h => exact hq h

theorem goes_kernel (q : KernelAsk) :
    Goes t a f (kernel q) s fun r s' ↦ a.Gives q r ∧ s' = q.pause.toList ++ s :=
  ⟨trivial, fun _ hx ↦ ⟨hx, rfl⟩⟩

theorem Goes.after_kernel {q : KernelAsk} {g : q.Answer → Call β}
    (hg : ∀ r, a.Gives q r → Goes t a f (g r) (q.pause.toList ++ s) post') :
    Goes t a f (kernel q >>= g) s post' :=
  (goes_kernel q).bind fun r _ hr ↦ hr.2 ▸ hg r hr.1

theorem Goes.after_drop {g : ℤ → Call β} (hg : ∀ r, Goes t a f (g r) s post') :
    Goes t a f (drop i >>= g) s post' := ⟨trivial, fun r _ ↦ hg r⟩

theorem goes_withFd {absent : Call α} {body : Entry → DescriptorTranslation → Call α}
    (habsent : openAt t fd = none → Goes t a f absent s post)
    (hbody : ∀ n i d, openAt t fd = some (n, i) → d.type = (t.pool i).type →
      Goes t a f (body i d) s post) : Goes t a f (withFd fd absent body) s post := by
  refine ⟨trivial, fun x hx ↦ ?_⟩
  have hx : x = (openAt t fd).map Prod.snd := hx
  cases hopen : openAt t fd with
  | none =>
    rw [hopen] at hx
    subst hx
    exact habsent hopen
  | some r =>
    rw [hopen] at hx
    subst hx
    exact ⟨trivial, fun d hd ↦ hbody r.1 r.2 d hopen hd⟩

theorem goes_dropAll (locks : List Entry) :
    Goes t a f (dropAll locks) s fun _ s' ↦ s' = s := by
  induction locks with
  | nil => exact goes_pure rfl
  | cons i locks ih => exact .after_drop fun _ ↦ ih

def PollFd.turn (t : Table) (tell : ℤ → ℤ) (p : PollFd) : PollFd × ℤ :=
  (p.first t tell, (p.found t tell).toNat)

theorem PollFd.turn_found {p : PollFd} (hfd : ¬ p.fd < 0) (hev : (p.pollIn || p.pollOut) = true)
    (h : regular t a.tell p.fd = true) :
    p.turn t a.tell = ({ p with revents := {} }.ready, 1) := by
  have hfd := not_lt.mp hfd
  rw [turn, first, found, if_pos ⟨hfd, h⟩, hev, h, decide_eq_true hfd]
  rfl

theorem PollFd.turn_skipped {p : PollFd}
    (h : p.fd < 0 ∨ (p.pollIn || p.pollOut) = false ∨ regular t a.tell p.fd = false) :
    p.turn t a.tell = ({ p with revents := {} }, 0) := by
  have hfound : p.found t a.tell = false := by
    unfold found
    rcases h with h | h | h
    · rw [decide_eq_false (not_le.mpr h)]
      rfl
    · rw [h, Bool.and_false]
      rfl
    · rw [h, Bool.and_false]
  have hfirst : p.first t a.tell = { p with revents := {} } := by
    unfold first
    dsimp only
    split
    · next hready =>
      rcases h with h | h | h
      · exact absurd h (not_lt.mpr hready.1)
      · rw [Bool.or_eq_false_iff] at h
        simp [ready, h]
      · exact absurd hready.2 (by rw [h]; decide)
    · rfl
  rw [turn, hfirst, hfound]
  rfl

theorem goes_pollFd (n : ℕ) (p : PollFd) :
    Goes t a f (pollFd eid n p) s fun r s' ↦ (r.1, r.2.2) = p.turn t a.tell ∧ s' = s := by
  unfold pollFd
  dsimp only
  refine .ite (fun hfd ↦ goes_pure ⟨(PollFd.turn_skipped (.inl hfd)).symm, rfl⟩) fun hfd ↦ ?_
  refine .ite (fun hev ↦ goes_pure ⟨(PollFd.turn_skipped (.inr (.inl ?_))).symm, rfl⟩) fun hev ↦ ?_
  · rwa [← Bool.not_or, Bool.not_eq_true'] at hev
  rw [← Bool.not_or, Bool.not_eq_true', Bool.not_eq_false] at hev
  refine goes_withFd (fun hopen ↦ ?_) fun m i d hopen hd ↦ ?_
  · have hregular : regular t a.tell p.fd = decide (0 ≤ a.tell p.fd) := by
      rw [regular, hopen]
    refine .after_kernel fun pos hpos ↦ ?_
    obtain rfl : pos = a.tell p.fd := hpos
    refine .ite (fun hneg ↦ goes_pure ⟨(PollFd.turn_skipped (.inr (.inr ?_))).symm, rfl⟩)
      fun hneg ↦ goes_pure ⟨(PollFd.turn_found hfd hev ?_).symm, rfl⟩
    · rw [hregular, decide_eq_false (not_le.mpr hneg)]
    · rw [hregular, decide_eq_true (not_lt.mp hneg)]
  · have hregular : regular t a.tell p.fd = decide (d.type = .FILE) := by
      rw [regular, hopen, hd]
    refine .ite (fun hsocket ↦ .after_drop fun _ ↦ ?_) fun hsocket ↦ ?_
    · by_cases hfile : d.type = .FILE
      · rw [if_pos hfile]
        exact goes_pure ⟨(PollFd.turn_found hfd hev (by rw [hregular, decide_eq_true hfile])).symm,
          rfl⟩
      · rw [if_neg hfile]
        exact goes_pure ⟨(PollFd.turn_skipped (.inr (.inr
          (by rw [hregular, decide_eq_false hfile])))).symm, rfl⟩
    · refine .after_kernel fun _ _ ↦ goes_pure ⟨(PollFd.turn_skipped (.inr (.inr ?_))).symm, rfl⟩
      rw [hregular, not_not.mp hsocket]
      rfl

theorem goes_pollLoop (n : ℕ) (pfd : List PollFd) : Goes t a f (pollLoop eid n pfd) s fun r s' ↦
    r.1 = pfd.map (PollFd.first t a.tell) ∧ r.2.2 = pfd.countP (PollFd.found t a.tell) ∧
      s' = s := by
  induction pfd generalizing n with
  | nil => exact goes_pure ⟨rfl, rfl, rfl⟩
  | cons p pfd ih =>
    refine (goes_pollFd n p).bind fun r s₁ hr ↦ ?_
    obtain ⟨hturn, rfl⟩ := hr
    obtain ⟨hp, hk⟩ := Prod.mk.inj hturn
    refine (ih (n + 1)).bind fun r' s₂ hr' ↦ goes_pure ?_
    obtain ⟨hpfd, hres, rfl⟩ := hr'
    refine ⟨by rw [hp, hpfd]; rfl, ?_, rfl⟩
    rw [hk, hres, List.countP_cons]
    cases p.found t a.tell with
    | false => simp
    | true => simp [add_comm]

theorem goes_poll {pfd : List PollFd} (hlen : pfd.length < MAX_OPEN_FILES) (timeout : ℤ) :
    Goes t a f (poll net pfd timeout) s fun r s' ↦
      r = polled net t a pfd ∧ s' = pollPauses a.eid pfd timeout ++ s := by
  unfold poll polled pollPauses
  dsimp only
  rw [if_neg (not_le.mpr hlen)]
  by_cases hzero : pfd.length = 0
  · rw [if_pos hzero, if_pos hzero, if_pos hzero]
    exact .after_kernel fun _ _ ↦ goes_pure ⟨rfl, rfl⟩
  · rw [if_neg hzero, if_neg hzero, if_neg hzero]
    refine .after_kernel fun eid heid ↦ ?_
    obtain rfl : eid = a.eid := heid
    by_cases hneg : a.eid < 0
    · rw [if_pos hneg, if_pos hneg, if_pos hneg]
      exact goes_pure ⟨rfl, rfl⟩
    · rw [if_neg hneg, if_neg hneg, if_neg hneg]
      refine (goes_pollLoop 0 pfd).bind fun r s₁ hr ↦ .after_kernel fun nev hnev ↦
        .after_kernel fun _ _ ↦ (goes_dropAll _).bind fun _ s₂ hs₂ ↦ goes_pure ?_
      obtain ⟨hpfd, hres, rfl⟩ := hr
      subst hs₂
      rw [show a.wait = nev from hnev.symm, ← hpfd, ← hres]
      refine ⟨?_, rfl⟩
      cases nev <;> rfl

theorem goes_selectLoop (sets : FdSets) (fds : List ℕ) :
    Goes t a f (selectLoop eid sets fds) s fun _ s' ↦ s' = s := by
  induction fds with
  | nil => exact goes_pure rfl
  | cons i fds ih =>
    have hturn : Goes t a f (selectFd eid sets i) s fun _ s' ↦ s' = s := by
      unfold selectFd
      refine .ite (fun _ ↦ goes_pure rfl) fun _ ↦
        goes_withFd (fun _ ↦ goes_pure rfl) fun n i d _ _ ↦ ?_
      exact .ite (fun _ ↦ .after_drop fun _ ↦ goes_pure rfl)
        fun _ ↦ .after_kernel fun _ _ ↦ goes_pure rfl
    refine hturn.bind fun _ s₁ hs₁ ↦ ?_
    subst hs₁
    exact ih.bind fun _ s₂ hs₂ ↦ goes_pure hs₂

theorem goes_fdSetIf (on : Bool) (fd : ℤ) (set : Option FdSet) (hf : set = none → on = true → f) :
    Goes t a f (fdSetIf on fd set) s fun r s' ↦ (on = true → set ≠ none) ∧ s' = s ∧
      r = set.map fun set ↦ if on then Function.update set fd.toNat true else set := by
  cases on with
  | false =>
    refine goes_pure ⟨fun h ↦ absurd h (by decide), rfl, ?_⟩
    simp
  | true =>
    cases set with
    | none => exact ⟨hf rfl rfl, fun x ↦ x.elim⟩
    | some set => exact goes_pure ⟨fun _ ↦ Option.some_ne_none set, rfl, rfl⟩

theorem FdSets.hold_iff {sets : FdSets} {e : EpollEvents} : sets.Hold e ↔
    ¬ (sets.readfds = none ∧ e.epollIn = true) ∧ ¬ (sets.writefds = none ∧ e.epollOut = true) ∧
      ¬ (sets.exceptfds = none ∧ e.epollErr = true) := by
  unfold FdSets.Hold
  simp only [not_and, ne_eq, imp_not_comm]

theorem goes_markEvent (sets : FdSets) (e : EpollEvent) (hf : ¬ sets.Hold e.events → f) :
    Goes t a f (markEvent sets e) s fun r s' ↦ sets.Hold e.events ∧ s' = s ∧
      r = (sets.marked [e], (e.events.marks : ℤ)) := by
  rw [FdSets.hold_iff] at hf
  refine (goes_fdSetIf _ _ _ fun hn hon ↦ hf fun h ↦ h.1 ⟨hn, hon⟩).bind fun r s₁ hr ↦ ?_
  obtain ⟨hr, rfl, rfl⟩ := hr
  refine (goes_fdSetIf _ _ _ fun hn hon ↦ hf fun h ↦ h.2.1 ⟨hn, hon⟩).bind fun w s₂ hw ↦ ?_
  obtain ⟨hw, rfl, rfl⟩ := hw
  refine (goes_fdSetIf _ _ _ fun hn hon ↦ hf fun h ↦ h.2.2 ⟨hn, hon⟩).bind fun x s₃ hx ↦ ?_
  obtain ⟨hx, rfl, rfl⟩ := hx
  refine goes_pure ⟨⟨hr, hw, hx⟩, rfl, ?_⟩
  simp only [EpollEvents.marks, Nat.cast_add]
  rfl

theorem FdSets.marked_hold {sets : FdSets} {events : List EpollEvent} {e : EpollEvents} :
    (sets.marked events).Hold e ↔ sets.Hold e := by
  simp only [FdSets.Hold, FdSets.marked, ne_eq, Option.map_eq_none_iff]

theorem FdSets.marked_cons (sets : FdSets) (e : EpollEvent) (events : List EpollEvent) :
    (sets.marked [e]).marked events = sets.marked (e :: events) := by
  simp only [FdSets.marked, Option.map_map]
  rfl

theorem goes_markAll (sets : FdSets) (res : ℤ) (events : List EpollEvent)
    (hf : ¬ (∀ e ∈ events, sets.Hold e.events) → f) :
    Goes t a f (markAll sets res events) s fun r s' ↦ (∀ e ∈ events, sets.Hold e.events) ∧
      s' = s ∧ r = (sets.marked events,
        res + ((events.map fun e ↦ e.events.marks).sum : ℕ)) := by
  induction events generalizing sets res with
  | nil =>
    refine goes_pure ⟨by simp, rfl, ?_⟩
    simp [FdSets.marked, Descriptor.marked]
  | cons e events ih =>
    rw [List.forall_mem_cons] at hf ⊢
    refine (goes_markEvent sets e fun hno ↦ hf fun h ↦ hno h.1).bind fun r s₁ hr ↦ ?_
    obtain ⟨hhold, rfl, rfl⟩ := hr
    have hrest : (∀ e' ∈ events, (sets.marked [e]).Hold e'.events) ↔
        ∀ e' ∈ events, sets.Hold e'.events :=
      forall₂_congr fun _ _ ↦ FdSets.marked_hold
    refine (ih _ _ fun hno ↦ hf fun h ↦ hno (hrest.mpr h.2)).mono fun r s' hr ↦ ?_
    obtain ⟨hall, hs', rfl⟩ := hr
    refine ⟨⟨hhold, hrest.mp hall⟩, hs', ?_⟩
    rw [FdSets.marked_cons, List.map_cons, List.sum_cons, Nat.cast_add, add_assoc]

theorem FdSets.zero_hold {sets : FdSets} {e : EpollEvents} : sets.zero.Hold e ↔ sets.Hold e := by
  simp only [FdSets.Hold, FdSets.zero, ne_eq, Option.map_eq_none_iff]

theorem goes_marked (sets : FdSets) {events : List EpollEvent}
    (hf : ¬ (∀ e ∈ events, sets.Hold e.events) → f) :
    Goes t a f (markAll sets.zero 0 events >>= fun r ↦ pure ((⟨r.2, none⟩ : Outcome), r.1)) s
      fun r s' ↦ (∀ e ∈ events, sets.Hold e.events) ∧ s' = s ∧
        r = (⟨((events.map fun e ↦ e.events.marks).sum : ℕ), none⟩, sets.zero.marked events) := by
  have hzero : (∀ e ∈ events, sets.zero.Hold e.events) ↔ ∀ e ∈ events, sets.Hold e.events :=
    forall₂_congr fun _ _ ↦ FdSets.zero_hold
  have hmark := goes_markAll (t := t) (a := a) (s := s) sets.zero 0 events
    fun hno ↦ hf fun h ↦ hno (hzero.mpr h)
  refine hmark.bind fun r s' hr ↦ goes_pure ?_
  obtain ⟨hall, hs', rfl⟩ := hr
  exact ⟨hzero.mp hall, hs', by rw [zero_add]⟩

theorem goes_select {nfds : ℕ} (hn : nfds < MAX_OPEN_FILES) (sets : FdSets)
    (timeout : Option (ℤ × ℤ))
    (hf : nfds ≠ 0 → ¬ a.eid < 0 → ∀ events, a.wait = .ok events →
      ¬ (∀ e ∈ events, sets.Hold e.events) → f) :
    Goes t a f (select net nfds sets timeout) s fun r s' ↦ r = selected net a nfds sets ∧
      s' = selectPauses a.eid nfds timeout ++ s ∧ (nfds ≠ 0 → ¬ a.eid < 0 →
        ∀ events, a.wait = .ok events → ∀ e ∈ events, sets.Hold e.events) := by
  unfold select selected selectPauses
  dsimp only
  change Goes t a f (if _ then _ else if (nfds : ℤ) = 0 then _ else _) _ _
  rw [if_neg (by omega)]
  by_cases hzero : nfds = 0
  · rw [if_pos (by omega), if_pos hzero, if_pos hzero]
    change Goes t a f (if 0 < selectWait timeout then _ else _) _ _
    split
    · exact .after_kernel fun _ _ ↦ goes_pure ⟨rfl, rfl, fun h ↦ absurd hzero h⟩
    · exact goes_pure ⟨rfl, rfl, fun h ↦ absurd hzero h⟩
  · rw [if_neg (by omega), if_neg hzero, if_neg hzero]
    refine .after_kernel fun eid heid ↦ ?_
    obtain rfl : eid = a.eid := heid
    by_cases hneg : a.eid < 0
    · rw [if_pos hneg, if_pos hneg, if_pos hneg]
      exact goes_pure ⟨rfl, rfl, fun _ h ↦ absurd hneg h⟩
    · rw [if_neg hneg, if_neg hneg, if_neg hneg]
      refine (goes_selectLoop _ _).bind fun locks s₁ hs₁ ↦ .after_kernel fun nev hnev ↦ ?_
      subst hs₁
      have hwait : a.wait = nev := Eq.symm hnev
      rw [hwait]
      cases nev with
      | error n =>
        refine .after_kernel fun _ _ ↦ (goes_dropAll _).bind fun _ s₂ hs₂ ↦
          goes_pure ⟨rfl, hs₂, fun _ _ events h ↦ ?_⟩
        cases h
      | ok events =>
        refine (goes_marked sets (hf hzero hneg events hwait)).bind fun r s₂ hr ↦
          .after_kernel fun _ _ ↦ (goes_dropAll _).bind fun _ s₃ hs₃ ↦ goes_pure ?_
        obtain ⟨hall, rfl, rfl⟩ := hr
        refine ⟨rfl, hs₃, fun _ _ events' hok ↦ ?_⟩
        cases hok
        exact hall

theorem waiting_answers (t : Table) (a : Waits) (s : List Pause) (q : Ask)
    (hmay : (waiting t a False).may s q) : ∃ x, (waiting t a False).can s q x := by
  cases q with
  | grab fd => exact ⟨_, rfl⟩
  | drop i => exact ⟨0, trivial⟩
  | load i => exact ⟨t.pool i, rfl⟩
  | storeUid | pass => exact ⟨(), trivial⟩
  | duplicate => exact ⟨.error none, trivial⟩
  | fault => exact hmay.elim
  | kernel q =>
    cases q with
    | epollCreate name => exact ⟨a.eid, rfl⟩
    | fhTell fd => exact ⟨a.tell fd, rfl⟩
    | epollWait eid maxEvents timeout => exact ⟨a.wait, rfl⟩
    | transfer i q => exact ⟨.moved [], trivial⟩
    | malloc => exact ⟨true, trivial⟩
    | getsockopt | dhOpen => exact ⟨(0, 0), trivial⟩
    | dhRead => exact ⟨(0, ⟨0, 0, []⟩), trivial⟩
    | convertTime | currentClock => exact ⟨(0, ⟨0, 0⟩), trivial⟩
    | _ => exact ⟨(0 : ℤ), trivial⟩

theorem Goes.pauses_iff {pauses : List Pause} {P : List Pause → Prop}
    (hp : Goes t a False p s fun _ s' ↦ s' = pauses) :
    Goes t a False p s (fun _ s' ↦ P s') ↔ P pauses := by
  constructor
  · intro h
    obtain ⟨_, s', rfl, hP⟩ := (Program.Obeys.and hp h).reaches (waiting_answers t a)
    exact hP
  · intro h
    refine hp.mono fun _ s' hs' ↦ ?_
    rwa [hs']

theorem poll_pauses_iff (net : NetErrno → ℤ) (t : Table) (a : Waits) {pfd : List PollFd}
    (hlen : pfd.length < MAX_OPEN_FILES) (timeout : ℤ) (P : List Pause → Prop) :
    Goes t a False (poll net pfd timeout) [] (fun _ s ↦ P s) ↔
      P (pollPauses a.eid pfd timeout) := by
  have hgoes : Goes t a False (poll net pfd timeout) [] _ := goes_poll hlen timeout
  exact Goes.pauses_iff (hgoes.mono fun _ s h ↦ h.2.trans (List.append_nil _))

end Goes

end SceLibcPosix.Descriptor
