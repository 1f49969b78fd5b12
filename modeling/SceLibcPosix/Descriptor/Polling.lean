import SceLibcPosix.Descriptor.Handles
import SceLibcPosix.Descriptor.Release
import SceLibcPosix.Descriptor.Waiting

namespace SceLibcPosix.Descriptor

open Errno VitaError Programs

/-- However a call goes on the table `t`, it ends as `post` says. -/
def Ends {α : Type} (t : Table) (a : Waits) (p : Call α) (post : α → Prop) : Prop :=
  p.Obeys (polling t a) () fun r _ ↦ post r

section Ends

variable {α : Type} {net : NetErrno → ℤ} {t : Table} {a : Waits} {p : Call α} {post : α → Prop}

theorem Goes.ends {s : List Pause} {post : α → List Pause → Prop}
    (h : Goes t a a.Fails p s post) : Ends t a p fun r ↦ ∃ s', post r s' := by
  have hmay : ∀ s q, (waiting t a a.Fails).may s q → (polling t a).may () q := by
    intro s q hmay
    cases q with
    | fault => exact hmay
    | _ => trivial
  exact (h.along (fun _ ↦ ()) hmay (fun _ _ _ hx ↦ hx) fun _ _ _ ↦ rfl).mono
    fun r _ ⟨s', _, hr⟩ ↦ ⟨s', hr⟩

theorem polled_snd (net : NetErrno → ℤ) (t : Table) (a : Waits) (pfd : List PollFd) :
    (polled net t a pfd).2 = pollResult t a pfd := by
  unfold polled pollResult
  by_cases hzero : pfd.length = 0
  · rw [if_pos hzero, if_pos (.inl hzero)]
  · by_cases hneg : a.eid < 0
    · rw [if_neg hzero, if_pos hneg, if_pos (.inr hneg)]
    · rw [if_neg hzero, if_neg hneg, if_neg (not_or.mpr ⟨hzero, hneg⟩)]
      cases a.wait <;> rfl

theorem ends_poll {pfd : List PollFd} (hlen : pfd.length < MAX_OPEN_FILES) (timeout : ℤ) :
    Ends t a (poll net pfd timeout) fun r ↦ r.2 = pollResult t a pfd := by
  have hgoes : Goes t a a.Fails (poll net pfd timeout) [] _ := goes_poll hlen timeout
  refine hgoes.ends.mono fun r _ ⟨s', hr, _⟩ ↦ ?_
  exact hr ▸ polled_snd net t a pfd

theorem selectResult_idle {bit : EpollEvents → Bool} {nfds : ℕ} {set : FdSet}
    (h : nfds = 0 ∨ a.eid < 0) : selectResult bit nfds a set = set := if_pos h

theorem selectResult_waited {bit : EpollEvents → Bool} {nfds : ℕ} {set : FdSet} (hn : nfds ≠ 0)
    (heid : ¬ a.eid < 0) : selectResult bit nfds a set =
      match a.wait with
      | .error _ => set
      | .ok events => marked bit (fun _ ↦ false) events :=
  if_neg (not_or.mpr ⟨hn, heid⟩)

theorem hold_iff_quiet (readfds writefds : FdSet) (e : EpollEvents) :
    FdSets.Hold ⟨some readfds, some writefds, none⟩ e ↔ e.epollErr = false := by
  simp [FdSets.Hold]

theorem ends_select {nfds : ℕ} (hn : nfds < MAX_OPEN_FILES) (readfds writefds : FdSet)
    (timeout : Option (ℤ × ℤ)) :
    Ends t a (select net nfds ⟨some readfds, some writefds, none⟩ timeout) fun r ↦
      r.2 = ⟨some (selectResult EpollEvents.epollIn nfds a readfds),
        some (selectResult EpollEvents.epollOut nfds a writefds), none⟩ ∧
        (nfds ≠ 0 → 0 ≤ a.eid → ¬ a.Fails) := by
  have hfault : nfds ≠ 0 → ¬ a.eid < 0 → ∀ events, a.wait = .ok events →
      ¬ (∀ e ∈ events, FdSets.Hold ⟨some readfds, some writefds, none⟩ e.events) → a.Fails := by
    intro _ _ events hok hno
    simp only [hold_iff_quiet, not_forall, Bool.not_eq_false] at hno
    obtain ⟨e, he, herr⟩ := hno
    exact ⟨events, hok, e, he, herr⟩
  have hgoes : Goes t a a.Fails (select net nfds _ timeout) [] _ := goes_select hn _ timeout hfault
  refine hgoes.ends.mono fun r _ ⟨s', hr, _, hhold⟩ ↦ ⟨?_, fun hne heid hfails ↦ ?_⟩
  · rw [hr]
    unfold selected
    by_cases hzero : nfds = 0
    · rw [if_pos hzero, selectResult_idle (.inl hzero), selectResult_idle (.inl hzero)]
    · by_cases hneg : a.eid < 0
      · rw [if_neg hzero, if_pos hneg, selectResult_idle (.inr hneg), selectResult_idle (.inr hneg)]
      · rw [if_neg hzero, if_neg hneg, selectResult_waited hzero hneg,
          selectResult_waited hzero hneg]
        cases a.wait <;> rfl
  · obtain ⟨events, hok, e, he, herr⟩ := hfails
    have hquiet := (hold_iff_quiet _ _ _).mp (hhold hne (not_lt.mpr heid) events hok e he)
    exact Bool.false_ne_true (hquiet.symm.trans herr)

end Ends

structure Kept (t : Table) (g : Multiset Entry) (t' : Table) : Prop where
  held : Held t g t'
  type : ∀ i, (t'.pool i).type = (t.pool i).type
  unused : ∀ i, (t.pool i).refCount = 0 → t'.pool i = t.pool i

/-- The answers from the table to a call that runs alone on it. -/
def alone (t : Table) : Rules Ask Ask.Answer Unit where
  may _ _ := True
  can _
    | .grab fd, x => x = (openAt t fd).map Prod.snd
    | .load i, d => d.type = (t.pool i).type
    | _, _ => True
  next _ _ _ := ()

section Runs

variable {σ α : Type} {K : (q : KernelAsk) → σ → q.Answer × σ} {net : NetErrno → ℤ} {t t' : Table}
  {a : Waits} {k : σ} {p : Call α} {post : α → Prop}

theorem unused_addRef (hunused : ∀ j, (t.pool j).refCount = 0 → t'.pool j = t.pool j) {i : Entry}
    (hi : 0 < (t.pool i).refCount) (n : ℤ) (j : Entry) (hj : (t.pool j).refCount = 0) :
    (t'.addRef i n).pool j = t.pool j := by
  have hne : j ≠ i := by
    rintro rfl
    omega
  exact (Table.addRef_pool_of_ne hne).trans (hunused j hj)

theorem Kept.serve (ht : InUse t) {g : Multiset Entry} {q : Ask} (h : Kept t g t')
    (hmay : holding.may g q) {r : q.Answer × Table × σ}
    (hr : Descriptor.serve net K q (t', k) = some r) :
    (alone t).can () q r.1 ∧ Kept t (holding.next g q r.1) r.2.1 := by
  have hheld := h.held.serve ht hmay hr
  have hslots := h.held.fdmap
  cases q with
  | grab fd =>
    obtain rfl := Option.some.inj hr
    have hopen : openAt t fd = openAt t' fd := by
      unfold openAt
      rw [hslots]
    have hout := fdGrab_outcome t' fd
    dsimp only [alone] at hheld ⊢
    rw [hopen]
    generalize fdGrab t' fd = res at hout hheld ⊢
    cases hout with
    | refused hnone => exact ⟨by rw [hnone]; rfl, hheld, h.type, h.unused⟩
    | grabbed s i hi =>
      have hpos := ht s i (hslots ▸ (openAt_eq_some.mp hi).2)
      refine ⟨by rw [hi]; rfl, hheld, fun j ↦ ?_, unused_addRef h.unused hpos 1⟩
      exact (Table.addRef_object 1 j).2.trans (h.type j)
  | drop i =>
    obtain rfl := Option.some.inj ((h.held.serve_drop hmay).symm.trans hr)
    refine ⟨trivial, hheld, fun j ↦ ?_, unused_addRef h.unused (h.held.inUse i hmay) (-1)⟩
    exact (Table.addRef_object (-1) j).2.trans (h.type j)
  | storeUid i uid =>
    obtain rfl := Option.some.inj hr
    have hpos := h.held.inUse i hmay
    refine ⟨trivial, hheld, fun j ↦ ?_, fun j hj ↦ ?_⟩
    · by_cases hj : j = i
      · subst hj
        simpa using h.type j
      · simpa [hj] using h.type j
    · have hne : j ≠ i := by
        rintro rfl
        omega
      exact (Function.update_of_ne hne _ _).trans (h.unused j hj)
  | duplicate => exact hmay.elim
  | fault => cases hr
  | load i =>
    obtain rfl := Option.some.inj hr
    exact ⟨h.type i, hheld, h.type, h.unused⟩
  | pass i =>
    obtain rfl := Option.some.inj hr
    exact ⟨trivial, hheld, h.type, h.unused⟩
  | kernel q =>
    obtain rfl := Option.some.inj hr
    exact ⟨trivial, hheld, h.type, h.unused⟩

theorem polling_can (hK : a.AnsweredBy K) {q : Ask} {y : q.Answer} {x x' : Table × σ}
    (hx : serve net K q x = some (y, x')) (hy : (alone t).can () q y) :
    (polling t a).can () q y := by
  cases q with
  | kernel q =>
    obtain ⟨rfl, -⟩ := Prod.mk.inj (Option.some.inj hx)
    exact hK q x.2
  | _ => exact hy

theorem kept_refl (t : Table) : Kept t 0 t where
  held := ⟨rfl, fun i ↦ by simp, fun i hi ↦ by simp at hi⟩
  type _ := rfl
  unused _ _ := rfl

theorem Neutral.kept (ht : InUse t) (hn : Neutral p) {r : α} {k' : σ}
    (h : p.run (serve net K) (t, k) = some (r, t', k')) : Kept t 0 t' := by
  let rel (g : Multiset Entry) (x : Table × σ) : Prop := Kept t g x.1
  have hstep : ∀ g x q y x', rel g x → holding.may g q → serve net K q x = some (y, x') →
      holding.can g q y ∧ rel (holding.next g q y) x' :=
    fun g x q y x' hkept hmay hx ↦ ⟨trivial, (Kept.serve ht hkept hmay hx).2⟩
  obtain ⟨g, rfl, hg⟩ := (hn 0).run rel (t := (t, k)) (kept_refl t) hstep h
  exact hg

theorem run_serve {s s' : Session} {r : α} {k' : σ}
    (h : p.run (watch net K) (s, k) = some (r, s', k')) :
    p.run (serve net K) (s.table, k) = some (r, s'.table, k') := by
  induction p generalizing s k with
  | ret b =>
    obtain ⟨rfl, hs⟩ := Prod.mk.inj (Option.some.inj h)
    obtain ⟨rfl, rfl⟩ := Prod.mk.inj hs
    rfl
  | ask q next ih =>
    obtain ⟨⟨x, s₁, k₁⟩, hx, hrun⟩ := Option.bind_eq_some_iff.mp h
    obtain ⟨⟨y, t₁, k₂⟩, hserve, hy⟩ := Option.map_eq_some_iff.mp hx
    obtain ⟨rfl, hs⟩ := Prod.mk.inj hy
    obtain ⟨rfl, rfl⟩ := Prod.mk.inj hs
    rw [Program.run_ask, hserve]
    exact ih y hrun

section Alone

variable {S : Type} {R : Rules Ask Ask.Answer S} {s : S} {post : α → S → Prop}

theorem kept_step (ht : InUse t) (hK : a.AnsweredBy K)
    (hcan : ∀ s q x, (polling t a).can () q x → R.can s q x) (r : Multiset Entry × S)
    (x : Table × σ) (q : Ask) (y : q.Answer) (x' : Table × σ) (hr : Kept t r.1 x.1)
    (hmay : (holding.prod R).may r q) (hx : serve net K q x = some (y, x')) :
    (holding.prod R).can r q y ∧ Kept t ((holding.prod R).next r q y).1 x'.1 := by
  obtain ⟨hy, hnext⟩ := Kept.serve ht hr hmay.1 hx
  exact ⟨⟨trivial, hcan _ _ _ (polling_can hK hx hy)⟩, hnext⟩

theorem Neutral.run_alone (ht : InUse t) (hK : a.AnsweredBy K) (hn : Neutral p)
    (hcan : ∀ s q x, (polling t a).can () q x → R.can s q x) (hp : p.Obeys R s post) {r : α}
    {k' : σ} (h : p.run (serve net K) (t, k) = some (r, t', k')) : ∃ s', post r s' := by
  obtain ⟨r', ⟨-, hpost⟩, -⟩ := ((hn 0).prod hp).run
    (fun (r : Multiset Entry × S) (x : Table × σ) ↦ Kept t r.1 x.1) (t := (t, k)) (kept_refl t)
    (kept_step ht hK hcan) h
  exact ⟨r'.2, hpost⟩

theorem Neutral.returns_alone (net : NetErrno → ℤ) (ht : InUse t) (hK : a.AnsweredBy K)
    (hn : Neutral p) (hcan : ∀ s q x, (polling t a).can () q x → R.can s q x)
    (hquiet : ∀ s, ¬ R.may s .fault) (hp : p.Obeys R s post) (k : σ) :
    ∃ r t' k', p.run (serve net K) (t, k) = some (r, t', k') ∧ ∃ s', post r s' := by
  have hsome : ∀ (r : Multiset Entry × S) (x : Table × σ) q, Kept t r.1 x.1 →
      (holding.prod R).may r q → ∃ y, serve net K q x = some y := by
    intro r x q _ hmay
    cases q with
    | fault => exact absurd hmay.2 (hquiet r.2)
    | _ => exact ⟨_, rfl⟩
  obtain ⟨⟨r, t', k'⟩, hrun⟩ := ((hn 0).prod hp).returns
    (fun (r : Multiset Entry × S) (x : Table × σ) ↦ Kept t r.1 x.1) (t := (t, k)) (kept_refl t)
    (kept_step ht hK hcan) hsome
  exact ⟨r, t', k', hrun, hn.run_alone ht hK hcan hp hrun⟩

end Alone

theorem Ends.run (ht : InUse t) (hK : a.AnsweredBy K) (hn : Neutral p) (hp : Ends t a p post)
    {r : α} {k' : σ} (h : p.run (serve net K) (t, k) = some (r, t', k')) : post r := by
  obtain ⟨_, hpost⟩ := hn.run_alone ht hK (fun _ _ _ hx ↦ hx) hp h
  exact hpost

theorem Ends.returns (net : NetErrno → ℤ) (ht : InUse t) (hK : a.AnsweredBy K) (hn : Neutral p)
    (hp : Ends t a p post) (hquiet : ¬ a.Fails) (k : σ) :
    ∃ r t' k', p.run (serve net K) (t, k) = some (r, t', k') ∧ post r := by
  obtain ⟨r, t', k', hrun, _, hpost⟩ :=
    hn.returns_alone net ht hK (fun _ _ _ hx ↦ hx) (fun _ ↦ hquiet) hp k
  exact ⟨r, t', k', hrun, hpost⟩

end Runs

/-- Two sets for `select`, and their descriptors below `nfds` in the order in which `poll` gets
them. -/
structure Watched where
  nfds : ℕ
  readfds : FdSet
  writefds : FdSet
  fds : List ℕ
  bound : nfds < MAX_OPEN_FILES
  nodup : fds.Nodup
  mem : ∀ fd, fd ∈ fds ↔ fd < nfds ∧ (readfds fd = true ∨ writefds fd = true)

abbrev WaitResult := Except ℕ (List (ℕ × EpollEvents))

namespace Watched

def sets (w : Watched) : FdSets := ⟨some w.readfds, some w.writefds, none⟩

def element (w : Watched) (fd : ℕ) : PollFd where
  fd := fd
  pollIn := w.readfds fd
  pollOut := w.writefds fd

def pollFds (w : Watched) : List PollFd := w.fds.map w.element

/-- The events as `select` gets them, which registers descriptors. -/
def toSelect (result : WaitResult) : Except ℕ (List EpollEvent) :=
  result.map (List.map fun e ↦ ⟨e.2, e.1⟩)

/-- The events as `poll` gets them, which registers the positions of its elements. -/
def toPoll (w : Watched) (result : WaitResult) : Except ℕ (List EpollEvent) :=
  result.map (List.map fun e ↦ ⟨e.2, w.fds.idxOf e.1⟩)

/-- Only sockets are registered, and the wait reports events of what has been registered only. -/
def Registered (w : Watched) (t : Table) (result : WaitResult) : Prop :=
  ∀ events, result = .ok events → ∀ e ∈ events, e.1 ∈ w.fds ∧
    ∃ s i, openAt t e.1 = some (s, i) ∧ (t.pool i).type = .SOCKET

/-- `select` leaves a descriptor in a set if and only if `poll` reports it. -/
def Agree (w : Watched) (sets : FdSets) (pfd : List PollFd) : Prop :=
  ∀ fd < w.nfds,
    (isSet sets.readfds fd = true ↔ ∃ p ∈ pfd, p.fd = fd ∧ p.revents.pollIn = true) ∧
    (isSet sets.writefds fd = true ↔ ∃ p ∈ pfd, p.fd = fd ∧ p.revents.pollOut = true)

/-- `poll` and `select` have an epoll to wait with, exactly the failed waits are about regular files
only, and no error event is reported. -/
structure Alike (w : Watched) (t : Table) (eid : ℤ) (tell : ℤ → ℤ) (result : WaitResult) :
    Prop where
  created : w.fds ≠ [] → 0 ≤ eid
  files : ∀ fd ∈ w.fds, regular t tell fd = true ↔ ∃ n, result = .error n
  quiet : ∀ events, result = .ok events → ∀ e ∈ events, e.2.epollErr = false

end Watched

def reported (f : ℕ → PollFd) (events : List (ℕ × EpollEvents)) : ℕ → PollFd :=
  events.foldl (fun f e ↦ Function.update f e.1 ((f e.1).report e.2)) f

section Agreement

variable {w : Watched} {t : Table} {eid : ℤ} {tell : ℤ → ℤ} {result : WaitResult}
  {events : List (ℕ × EpollEvents)} {fd : ℕ} {bit : EpollEvents → Bool}

theorem marked_eq_true {set : FdSet} {events : List EpollEvent} :
    marked bit set events fd = true ↔
      set fd = true ∨ ∃ e ∈ events, e.fd.toNat = fd ∧ bit e.events = true := by
  unfold marked
  induction events generalizing set with
  | nil => simp
  | cons e events ih =>
    rw [List.foldl_cons, ih, List.exists_mem_cons_iff, ← or_assoc]
    refine or_congr_left ?_
    cases hbit : bit e.events with
    | false => simp
    | true =>
      by_cases hfd : e.fd.toNat = fd
      · simp [hfd]
      · simp [hfd, Function.update_of_ne (Ne.symm hfd)]

theorem modify_idxOf_map {α β : Type} [DecidableEq α] {l : List α} (hl : l.Nodup) (f : α → β)
    (g : β → β) (a : α) :
    (l.map f).modify (l.idxOf a) g = l.map (Function.update f a (g (f a))) := by
  induction l with
  | nil => rfl
  | cons b l ih =>
    obtain ⟨hb, hl⟩ := List.nodup_cons.mp hl
    by_cases hab : b = a
    · subst hab
      have hrest : l.map (Function.update f b (g (f b))) = l.map f := by
        refine List.map_congr_left fun c hc ↦ Function.update_of_ne ?_ _ _
        rintro rfl
        exact hb hc
      rw [List.idxOf_cons_self, List.map_cons, List.map_cons, hrest, Function.update_self]
      rfl
    · rw [List.idxOf_cons_ne _ hab, List.map_cons, List.map_cons, Function.update_of_ne hab,
        List.modify_succ_cons, ih hl]

theorem reportAll_map (hw : w.fds.Nodup) (f : ℕ → PollFd) (events : List (ℕ × EpollEvents)) :
    reportAll (w.fds.map f) (events.map fun e ↦ ⟨e.2, w.fds.idxOf e.1⟩) =
      w.fds.map (reported f events) := by
  induction events generalizing f with
  | nil => rfl
  | cons e events ih =>
    refine Eq.trans ?_ (ih (Function.update f e.1 ((f e.1).report e.2)))
    rw [← modify_idxOf_map hw f (·.report e.2)]
    rfl

theorem reported_fd (f : ℕ → PollFd) (events : List (ℕ × EpollEvents)) (fd : ℕ) :
    (reported f events fd).fd = (f fd).fd := by
  unfold reported
  induction events generalizing f with
  | nil => rfl
  | cons e events ih =>
    rw [List.foldl_cons, ih]
    by_cases hfd : fd = e.1
    · subst hfd
      rw [Function.update_self]
      rfl
    · rw [Function.update_of_ne hfd]

theorem reported_bit {get : Revents → Bool}
    (hget : ∀ (p : PollFd) e, get (p.report e).revents = (get p.revents || bit e)) (f : ℕ → PollFd)
    (events : List (ℕ × EpollEvents)) (fd : ℕ) : get (reported f events fd).revents = true ↔
      get (f fd).revents = true ∨ ∃ e ∈ events, e.1 = fd ∧ bit e.2 = true := by
  unfold reported
  induction events generalizing f with
  | nil => simp
  | cons e events ih =>
    rw [List.foldl_cons, ih, List.exists_mem_cons_iff, ← or_assoc]
    refine or_congr_left ?_
    by_cases hfd : e.1 = fd
    · subst hfd
      simp [hget]
    · simp [hfd, Function.update_of_ne (Ne.symm hfd)]

abbrev Watched.selectWaits (eid : ℤ) (tell : ℤ → ℤ) (result : WaitResult) : Waits :=
  ⟨eid, tell, toSelect result⟩

abbrev Watched.pollWaits (w : Watched) (eid : ℤ) (tell : ℤ → ℤ) (result : WaitResult) : Waits :=
  ⟨eid, tell, w.toPoll result⟩

def Watched.final (w : Watched) (t : Table) (eid : ℤ) (tell : ℤ → ℤ) (result : WaitResult) :
    ℕ → PollFd :=
  if eid < 0 then w.element
  else
    match result with
    | .error _ => PollFd.first t tell ∘ w.element
    | .ok events => reported (PollFd.first t tell ∘ w.element) events

theorem Watched.pollResult_eq (w : Watched) (t : Table) (eid : ℤ) (tell : ℤ → ℤ)
    (result : WaitResult) : pollResult t (w.pollWaits eid tell result) w.pollFds =
      w.fds.map (w.final t eid tell result) := by
  unfold pollResult Watched.final pollFds
  by_cases hfds : w.fds = []
  · simp [hfds]
  · have hlen : (w.fds.map w.element).length ≠ 0 := by simpa using hfds
    by_cases heid : eid < 0
    · rw [if_pos (.inr heid), if_pos heid]
    · rw [if_neg (not_or.mpr ⟨hlen, heid⟩), if_neg heid, List.map_map]
      cases result with
      | error n => rfl
      | ok events => exact reportAll_map w.nodup _ events

theorem Watched.final_fd (w : Watched) (t : Table) (eid : ℤ) (tell : ℤ → ℤ) (result : WaitResult)
    (fd : ℕ) : (w.final t eid tell result fd).fd = fd := by
  have hfirst : ((PollFd.first t tell ∘ w.element) fd).fd = fd := by
    rw [Function.comp_apply, PollFd.first]
    split <;> rfl
  unfold Watched.final
  split
  · rfl
  · cases result with
    | error n => exact hfirst
    | ok events => exact (reported_fd _ events fd).trans hfirst

theorem Watched.poll_reports (w : Watched) (t : Table) (eid : ℤ) (tell : ℤ → ℤ)
    (result : WaitResult) (fd : ℕ) (get : Revents → Bool) :
    (∃ p ∈ pollResult t (w.pollWaits eid tell result) w.pollFds,
      p.fd = fd ∧ get p.revents = true) ↔
      fd ∈ w.fds ∧ get (w.final t eid tell result fd).revents = true := by
  rw [w.pollResult_eq]
  constructor
  · rintro ⟨p, hp, hfd, hget⟩
    obtain ⟨fd', hmem, rfl⟩ := List.mem_map.mp hp
    obtain rfl : fd' = fd := Int.ofNat.inj ((w.final_fd t eid tell result fd').symm.trans hfd)
    exact ⟨hmem, hget⟩
  · rintro ⟨hmem, hget⟩
    exact ⟨_, List.mem_map_of_mem hmem, w.final_fd t eid tell result fd, hget⟩

structure Side (w : Watched) (want : FdSet) (bit : EpollEvents → Bool) (get : Revents → Bool) :
    Prop where
  mem : ∀ fd < w.nfds, want fd = true → fd ∈ w.fds
  none : ∀ fd, get (w.element fd).revents = false
  first : ∀ t tell fd, get ((w.element fd).first t tell).revents = (regular t tell fd && want fd)
  report : ∀ (p : PollFd) e, get (p.report e).revents = (get p.revents || bit e)

theorem Watched.first_element (w : Watched) (t : Table) (tell : ℤ → ℤ) (fd : ℕ) :
    (w.element fd).first t tell =
      if regular t tell fd then (w.element fd).ready else w.element fd := by
  unfold PollFd.first
  by_cases h : regular t tell fd = true
  · rw [if_pos h]
    exact if_pos ⟨Int.natCast_nonneg fd, h⟩
  · rw [if_neg h]
    exact if_neg fun h' ↦ h h'.2

theorem Watched.readSide (w : Watched) : Side w w.readfds EpollEvents.epollIn Revents.pollIn where
  mem fd hfd hwant := (w.mem fd).mpr ⟨hfd, .inl hwant⟩
  none _ := rfl
  first t tell fd := by
    rw [w.first_element]
    cases regular t tell fd <;> rfl
  report _ _ := rfl

theorem Watched.writeSide (w : Watched) :
    Side w w.writefds EpollEvents.epollOut Revents.pollOut where
  mem fd hfd hwant := (w.mem fd).mpr ⟨hfd, .inr hwant⟩
  none _ := rfl
  first t tell fd := by
    rw [w.first_element]
    cases regular t tell fd <;> rfl
  report _ _ := rfl

theorem Side.agree {want : FdSet} {get : Revents → Bool} (h : Side w want bit get) (eid : ℤ)
    (tell : ℤ → ℤ) (hreg : w.Registered t result) (hfd : fd < w.nfds) :
    (selectResult bit w.nfds (Watched.selectWaits eid tell result) want fd = true ↔
      fd ∈ w.fds ∧ get (w.final t eid tell result fd).revents = true) ↔
    (want fd = true → 0 ≤ eid ∧ (regular t tell fd = true ↔ ∃ n, result = .error n)) := by
  have hmem := h.mem fd hfd
  have hn : w.nfds ≠ 0 := by omega
  have hfirst := h.first t tell fd
  unfold Watched.final
  by_cases heid : eid < 0
  · rw [selectResult_idle (.inr heid), if_pos heid, h.none]
    have : ¬ 0 ≤ eid := by omega
    simp [this]
  · rw [selectResult_waited hn heid, if_neg heid]
    have heid' : 0 ≤ eid := by omega
    cases result with
    | error n =>
      dsimp only [Watched.toSelect, Except.map, Function.comp_apply]
      rw [hfirst]
      have hfailed : ∃ n', (.error n : WaitResult) = .error n' := ⟨n, rfl⟩
      simp only [Bool.and_eq_true]
      refine ⟨fun hiff hwant ↦ ⟨heid', iff_of_true (hiff.mp hwant).2.1 hfailed⟩, fun hall ↦ ?_⟩
      exact ⟨fun hwant ↦ ⟨hmem hwant, (hall hwant).2.mpr hfailed, hwant⟩, fun hboth ↦ hboth.2.2⟩
    | ok events =>
      dsimp only [Watched.toSelect, Except.map]
      have hnone : ¬ ∃ n', (.ok events : WaitResult) = .error n' := fun ⟨_, hno⟩ ↦ nomatch hno
      have hevent : ∀ e ∈ events, e.1 = fd → fd ∈ w.fds ∧ regular t tell fd = false := by
        rintro e he rfl
        obtain ⟨hmem, s, i, hopen, hsocket⟩ := hreg events rfl e he
        refine ⟨hmem, ?_⟩
        rw [regular, hopen]
        dsimp only
        rw [hsocket]
        rfl
      have hmarked : (∃ e ∈ events.map fun e ↦ (⟨e.2, e.1⟩ : EpollEvent),
          e.fd.toNat = fd ∧ bit e.events = true) ↔ ∃ e ∈ events, e.1 = fd ∧ bit e.2 = true := by
        simp
      rw [marked_eq_true, or_iff_right Bool.false_ne_true, hmarked, reported_bit h.report,
        Function.comp_apply, hfirst, Bool.and_eq_true]
      constructor
      · refine fun hiff hwant ↦ ⟨heid', iff_of_false (fun hregular ↦ ?_) hnone⟩
        obtain ⟨e, he, hfd, -⟩ := hiff.mpr ⟨hmem hwant, .inl ⟨hregular, hwant⟩⟩
        exact Bool.false_ne_true ((hevent e he hfd).2.symm.trans hregular)
      · refine fun hall ↦ ⟨?_, ?_⟩
        · rintro ⟨e, he, hfd, hbit⟩
          exact ⟨(hevent e he hfd).1, .inr ⟨e, he, hfd, hbit⟩⟩
        · rintro ⟨-, ⟨hregular, hwant⟩ | hmarked⟩
          · exact absurd ((hall hwant).2.mp hregular) hnone
          · exact hmarked

theorem fails_iff (tag : ℕ → ℤ) :
    (⟨eid, tell, result.map (List.map fun e ↦ ⟨e.2, tag e.1⟩)⟩ : Waits).Fails ↔
      ∃ events, result = .ok events ∧ ∃ e ∈ events, e.2.epollErr = true := by
  constructor
  · rintro ⟨events', hwait, e', he', herr⟩
    cases result with
    | error n => cases hwait
    | ok events =>
      obtain rfl := Except.ok.inj hwait
      obtain ⟨e, he, rfl⟩ := List.mem_map.mp he'
      exact ⟨events, rfl, e, he, herr⟩
  · rintro ⟨events, rfl, e, he, herr⟩
    exact ⟨_, rfl, _, List.mem_map_of_mem he, herr⟩

theorem Watched.agree_iff (w : Watched) (eid : ℤ) (tell : ℤ → ℤ) (hreg : w.Registered t result) :
    w.Agree
      ⟨some (selectResult EpollEvents.epollIn w.nfds (selectWaits eid tell result) w.readfds),
        some (selectResult EpollEvents.epollOut w.nfds (selectWaits eid tell result) w.writefds),
        none⟩ (pollResult t (w.pollWaits eid tell result) w.pollFds) ↔
    ∀ fd ∈ w.fds, 0 ≤ eid ∧ (regular t tell fd = true ↔ ∃ n, result = .error n) := by
  have hread : ∀ fd < w.nfds, (isSet (some (selectResult EpollEvents.epollIn w.nfds
      (selectWaits eid tell result) w.readfds)) fd = true ↔
      ∃ p ∈ pollResult t (w.pollWaits eid tell result) w.pollFds,
        p.fd = fd ∧ p.revents.pollIn = true) ↔ _ := fun fd hfd ↦
    (iff_congr Iff.rfl (w.poll_reports t eid tell result fd Revents.pollIn)).trans
      (w.readSide.agree eid tell hreg hfd)
  have hwrite : ∀ fd < w.nfds, (isSet (some (selectResult EpollEvents.epollOut w.nfds
      (selectWaits eid tell result) w.writefds)) fd = true ↔
      ∃ p ∈ pollResult t (w.pollWaits eid tell result) w.pollFds,
        p.fd = fd ∧ p.revents.pollOut = true) ↔ _ := fun fd hfd ↦
    (iff_congr Iff.rfl (w.poll_reports t eid tell result fd Revents.pollOut)).trans
      (w.writeSide.agree eid tell hreg hfd)
  constructor
  · intro hagree fd hmem
    obtain ⟨hfd, hwant | hwant⟩ := (w.mem fd).mp hmem
    · exact (hread fd hfd).mp (hagree fd hfd).1 hwant
    · exact (hwrite fd hfd).mp (hagree fd hfd).2 hwant
  · exact fun hall fd hfd ↦
      ⟨(hread fd hfd).mpr fun hwant ↦ hall fd ((w.mem fd).mpr ⟨hfd, .inl hwant⟩),
        (hwrite fd hfd).mpr fun hwant ↦ hall fd ((w.mem fd).mpr ⟨hfd, .inr hwant⟩)⟩

theorem Watched.length_pollFds (w : Watched) : w.pollFds.length < MAX_OPEN_FILES := by
  have hsub : w.fds ⊆ List.range w.nfds := fun fd hfd ↦
    List.mem_range.mpr ((w.mem fd).mp hfd).1
  have hle := (List.subperm_of_subset w.nodup hsub).length_le
  rw [List.length_range] at hle
  rw [pollFds, List.length_map]
  exact hle.trans_lt w.bound

end Agreement

/-- `select` and `poll` agree exactly where their descriptors are alike. -/
theorem poll_select_agree (net : NetErrno → ℤ) {σ : Type}
    (K K' : (q : KernelAsk) → σ → q.Answer × σ) (t : Table) (ht : InUse t) (w : Watched) (eid : ℤ)
    (tell : ℤ → ℤ) (result : WaitResult) (hreg : w.Registered t result)
    (hK : (Watched.selectWaits eid tell result).AnsweredBy K)
    (hK' : (w.pollWaits eid tell result).AnsweredBy K') (timeout : Option (ℤ × ℤ)) (timeout' : ℤ)
    (k k' : σ) :
    (∃ out sets t₁ k₁ out' pfd t₂ k₂,
      (select net w.nfds w.sets timeout).run (serve net K) (t, k) = some ((out, sets), t₁, k₁) ∧
      (poll net w.pollFds timeout').run (serve net K') (t, k') = some ((out', pfd), t₂, k₂) ∧
      w.Agree sets pfd) ↔ w.Alike t eid tell result := by
  have hselect : Ends t (Watched.selectWaits eid tell result)
      (select net w.nfds w.sets timeout) _ := ends_select w.bound w.readfds w.writefds timeout
  have hpoll : Ends t (w.pollWaits eid tell result) (poll net w.pollFds timeout') _ :=
    ends_poll w.length_pollFds timeout'
  have hagree := w.agree_iff eid tell hreg
  constructor
  · rintro ⟨out, sets, t₁, k₁, out', pfd, t₂, k₂, hs, hp, h⟩
    obtain ⟨rfl, hfails⟩ := hselect.run ht hK (neutral_select _ _ _) hs
    obtain rfl := hpoll.run ht hK' (neutral_poll _ _) hp
    have hall := hagree.mp h
    refine ⟨fun hne ↦ ?_, fun fd hmem ↦ (hall fd hmem).2, fun events hok e he ↦ ?_⟩
    · obtain ⟨fd, hmem⟩ := List.exists_mem_of_ne_nil _ hne
      exact (hall fd hmem).1
    · have hmem := (hreg events hok e he).1
      have hn : w.nfds ≠ 0 := Nat.ne_zero_of_lt ((w.mem e.1).mp hmem).1
      refine Bool.eq_false_iff.mpr fun herr ↦ hfails hn (hall e.1 hmem).1 ?_
      exact (fails_iff fun fd ↦ fd).mpr ⟨events, hok, e, he, herr⟩
  · intro h
    have hquiet : ¬ ∃ events, result = .ok events ∧ ∃ e ∈ events, e.2.epollErr = true := by
      rintro ⟨events, hok, e, he, herr⟩
      exact Bool.false_ne_true ((h.quiet events hok e he).symm.trans herr)
    obtain ⟨⟨out, sets⟩, t₁, k₁, hs, hsets, -⟩ := hselect.returns net ht hK (neutral_select _ _ _)
      (hquiet ∘ (fails_iff fun fd ↦ fd).mp) k
    obtain ⟨⟨out', pfd⟩, t₂, k₂, hp, hpfd⟩ := hpoll.returns net ht hK' (neutral_poll _ _)
      (hquiet ∘ (fails_iff fun fd ↦ w.fds.idxOf fd).mp) k'
    obtain rfl := hsets
    obtain rfl := hpfd
    refine ⟨out, _, t₁, k₁, out', _, t₂, k₂, hs, hp, hagree.mpr fun fd hmem ↦ ?_⟩
    exact ⟨h.created (List.ne_nil_of_mem hmem), h.files fd hmem⟩

/-- A kernel that answers as it is told. -/
def Waits.kernel (a : Waits) : (q : KernelAsk) → Unit → q.Answer × Unit
  | .epollCreate _, _ => (a.eid, ())
  | .fhTell fd, _ => (a.tell fd, ())
  | .epollWait _ _ _, _ => (a.wait, ())
  | q, _ => (q.quiet, ())

theorem Waits.answeredBy_kernel (a : Waits) : a.AnsweredBy a.kernel := by
  intro q k
  cases q <;> trivial

def three : Watched where
  nfds := 4
  readfds fd := fd = 3
  writefds _ := false
  fds := [3]
  bound := by decide
  nodup := by decide
  mem fd := by
    simp
    omega

/-- A socket with something to read. -/
theorem poll_select_agree_socket :
    let result : WaitResult := .ok [(3, { epollIn := true })]
    ∃ out sets t₁ k₁ out' pfd t₂ k₂,
      (select 0 4 three.sets (some (1, 0))).run
        (serve 0 (Watched.selectWaits 1 (fun _ ↦ -1) result).kernel) (withSocket.table, ()) =
          some ((out, sets), t₁, k₁) ∧
      (poll 0 three.pollFds 1000).run
        (serve 0 (three.pollWaits 1 (fun _ ↦ -1) result).kernel) (withSocket.table, ()) =
          some ((out', pfd), t₂, k₂) ∧ three.Agree sets pfd := by
  intro result
  have hsane : Sane withSocket := (sane_init 0 1 2).socket granting
  have hsocket : (withSocket.table.pool 3).type = .SOCKET := by rw [withSocket_entry]
  have hreg : three.Registered withSocket.table result := by
    intro events hok e he
    obtain rfl := Except.ok.inj hok
    obtain rfl := List.mem_singleton.mp he
    exact ⟨List.mem_singleton_self _, 3, 3, withSocket_open, hsocket⟩
  refine (poll_select_agree 0 _ _ _ hsane.covers.inUse three 1 (fun _ ↦ -1) result hreg
    (Waits.answeredBy_kernel _) (Waits.answeredBy_kernel _) (some (1, 0)) 1000 () ()).mpr ?_
  refine ⟨fun _ ↦ by decide, fun fd hfd ↦ iff_of_false ?_ fun ⟨_, h⟩ ↦ (nomatch h), ?_⟩
  · obtain rfl := List.mem_singleton.mp hfd
    have hopen : openAt withSocket.table (3 : ℕ) = some (3, 3) := withSocket_open
    rw [regular, hopen]
    simp [hsocket]
  · intro events hok e he
    obtain rfl := Except.ok.inj hok
    obtain rfl := List.mem_singleton.mp he
    rfl

theorem openFile_regular (tell : ℤ → ℤ) : regular openFile.table tell 3 = true := by
  have hopen : openAt openFile.table 3 = some (3, 3) := openAt_eq_some.mpr ⟨rfl, openFile_slot⟩
  rw [regular, hopen]
  dsimp only
  rw [openFile_entry]
  rfl

/-- Of a regular file `poll` says that it can be read, and `select` that it cannot. -/
theorem poll_select_disagree_file :
    ∃ out sets t₁ k₁ out' pfd t₂ k₂,
      (select 0 4 three.sets (some (1, 0))).run
        (serve 0 (Watched.selectWaits 1 (fun _ ↦ -1) (.ok [])).kernel) (openFile.table, ()) =
          some ((out, sets), t₁, k₁) ∧
      (poll 0 three.pollFds 1000).run
        (serve 0 (three.pollWaits 1 (fun _ ↦ -1) (.ok [])).kernel) (openFile.table, ()) =
          some ((out', pfd), t₂, k₂) ∧ ¬ three.Agree sets pfd := by
  have hcounts := openFile_reachable.counts fun h ↦ ⟨fun r hmem _ ↦ h.1 r hmem, h.2⟩
  have hregular := openFile_regular fun _ ↦ -1
  have hquiet : ∀ tag : ℕ → ℤ, ¬ (⟨1, fun _ ↦ -1, (.ok [] : WaitResult).map
      (List.map fun e ↦ ⟨e.2, tag e.1⟩)⟩ : Waits).Fails := by
    intro tag hfails
    obtain ⟨events, hok, e, he, -⟩ := (fails_iff tag).mp hfails
    obtain rfl := Except.ok.inj hok
    cases he
  have hselect : Ends openFile.table (Watched.selectWaits 1 (fun _ ↦ -1) (.ok []))
      (select 0 4 three.sets (some (1, 0))) _ := ends_select three.bound _ _ _
  have hpoll : Ends openFile.table (three.pollWaits 1 (fun _ ↦ -1) (.ok []))
      (poll 0 three.pollFds 1000) _ := ends_poll three.length_pollFds 1000
  obtain ⟨⟨out, sets⟩, t₁, k₁, hs, hsets, -⟩ := hselect.returns 0 hcounts.inUse
    (Waits.answeredBy_kernel _) (neutral_select _ _ _) (hquiet fun fd ↦ fd) ()
  obtain ⟨⟨out', pfd⟩, t₂, k₂, hp, hpfd⟩ := hpoll.returns 0 hcounts.inUse
    (Waits.answeredBy_kernel _) (neutral_poll _ _) (hquiet fun fd ↦ three.fds.idxOf fd) ()
  obtain rfl := hsets
  obtain rfl := hpfd
  refine ⟨out, _, t₁, k₁, out', _, t₂, k₂, hs, hp, fun hagree ↦ ?_⟩
  have hreg : three.Registered openFile.table (.ok []) := by
    intro events hok e he
    obtain rfl := Except.ok.inj hok
    cases he
  have hall := (three.agree_iff 1 (fun _ ↦ -1) hreg).mp hagree 3 (List.mem_singleton_self _)
  obtain ⟨n, hn⟩ := hall.2.mp hregular
  cases hn

end SceLibcPosix.Descriptor
