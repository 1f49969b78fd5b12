import Mathlib.Algebra.Order.BigOperators.Group.Finset
import SceLibcPosix.Descriptor.Lending
import SceLibcPosix.Descriptor.Owners

namespace SceLibcPosix.Descriptor

open Errno VitaError References Programs Relation Function

/-- `accept`, as far as it uses the descriptor that it is given. -/
def acceptFrom (net : NetErrno → ℤ) (s : ℤ) (addr addrlen : ℕ) : Call Outcome :=
  socketCall net s (.sceNetAccept addr addrlen) id

inductive Begins (net : NetErrno → ℤ) : Call Outcome → Prop
  | use (c : FdCall) (hc : ¬ c.Rewinds) : Begins net (c.steps net)
  | accept (s : ℤ) (addr addrlen : ℕ) : Begins net (acceptFrom net s addr addrlen)

def Ask.Names : Ask → Slot → Prop
  | .grab fd | .duplicate fd _ => fun s ↦ fd = s.val
  | _ => fun _ ↦ False

/-- The table, the calls that take a descriptor, one in each thread, what each of them has grabbed
and read, which the code does not keep, and where the calls that create stand. -/
structure Threads (ι : Type) where
  table : Table
  stamp : Entry → ℕ
  phase : ℕ → Phase
  loans : ι → Loans
  calls : ι → Call Outcome

def Threads.init (ι : Type) (stdin stdout stderr : ℤ) : Threads ι where
  table := initFd stdin stdout stderr
  stamp _ := 0
  phase _ := .idle
  loans _ := ⟨0, fun _ _ ↦ False⟩
  calls _ := pure ⟨0, none⟩

section Threads

variable {ι : Type} [Fintype ι]

def Threads.grabs (w : Threads ι) (i : Entry) : ℕ := ∑ n, (w.loans n).held.count i

def Threads.system (w : Threads ι) : System := ⟨⟨w.table, w.grabs⟩, w.stamp, w.phase⟩

/-- The steps of all threads, in any order: a call begins, or asks for what comes next and gets any
answer; or there is a step of `close`, `dup` or `dup2`, or of a call that creates. None names a
descriptor that is not filled yet. -/
inductive ThreadsStep [DecidableEq ι] (net : NetErrno → ℤ) : Threads ι → Threads ι → Prop
  | start (w : Threads ι) (n : ι) (p : Call Outcome) (out : Outcome) (hn : w.calls n = .ret out)
    (hp : Begins net p) : ThreadsStep net w { w with calls := update w.calls n p }
  | ask (w : Threads ι) (n : ι) (q : Ask) (next : q.Answer → Call Outcome) (x : q.Answer)
    (t : Table) (K : (q : KernelAsk) → q.Answer) (hn : w.calls n = .ask q next)
    (hx : serve net (fun q _ ↦ (K q, ())) q (w.table, ()) = some (x, t, ()))
    (hno : ∀ s, q.Names s → w.system.Settled s) :
    ThreadsStep net w ⟨t, w.stamp, w.phase, update w.loans n (lending.next (w.loans n) q x),
      update w.calls n (next x)⟩
  | act (w : Threads ι) (a : Action) (ha : a.Apart) (hok : a.Fits w.system) :
    ThreadsStep net w { w with
      table := (a.run net w.system).table
      stamp := (a.run net w.system).stamp
      phase := (a.run net w.system).phase }

variable [DecidableEq ι] {net : NetErrno → ℤ} {tty : List ℤ} {w w' : Threads ι} {n : ι}

/-- Every call keeps to its loans, and what it has read is still there. -/
structure Threads.Sound (tty : List ℤ) (w : Threads ι) : Prop where
  system : Descriptor.Sound tty w.system
  sheltered : Sheltered w.system
  calls : ∀ n, (w.calls n).Obeys lending (w.loans n) fun _ _ ↦ True
  seen : ∀ n i h, (w.loans n).seen i h →
    i ∈ (w.loans n).held ∧ (w.table.pool i).object.handle = h

omit [DecidableEq ι] in
theorem Threads.grabs_pos {i : Entry} (h : i ∈ (w.loans n).held) : 0 < w.grabs i := by
  have hcount := Multiset.count_pos.mpr h
  exact Nat.lt_of_lt_of_le hcount
    (Finset.single_le_sum (f := fun n ↦ (w.loans n).held.count i) (fun _ _ ↦ Nat.zero_le _)
      (Finset.mem_univ n))

theorem grabs_update (t : Table) (n : ι) (l : Loans) (calls : ι → Call Outcome) (i : Entry) :
    (⟨t, w.stamp, w.phase, update w.loans n l, calls⟩ : Threads ι).grabs i +
      (w.loans n).held.count i = w.grabs i + l.held.count i := by
  have hsplit : ∀ loans : ι → Loans, ∑ m, (loans m).held.count i =
      (loans n).held.count i + ∑ m ∈ Finset.univ.erase n, (loans m).held.count i :=
    fun loans ↦ (Finset.add_sum_erase _ _ (Finset.mem_univ n)).symm
  have hrest : ∑ m ∈ Finset.univ.erase n, (update w.loans n l m).held.count i =
      ∑ m ∈ Finset.univ.erase n, (w.loans m).held.count i := by
    refine Finset.sum_congr rfl fun m hm ↦ ?_
    rw [update_of_ne (Finset.ne_of_mem_erase hm)]
  unfold Threads.grabs
  dsimp only
  rw [hsplit, hsplit w.loans, hrest, update_self]
  omega

theorem grabs_same {l : Loans} (hl : l.held = (w.loans n).held) (t : Table)
    (calls : ι → Call Outcome) :
    (⟨t, w.stamp, w.phase, update w.loans n l, calls⟩ : Threads ι).grabs = w.grabs := by
  funext i
  have hupdate := grabs_update (w := w) t n l calls i
  rw [hl] at hupdate
  omega

theorem grabs_cons {l : Loans} {i : Entry} (hl : l.held = i ::ₘ (w.loans n).held) (t : Table)
    (calls : ι → Call Outcome) :
    (⟨t, w.stamp, w.phase, update w.loans n l, calls⟩ : Threads ι).grabs =
      update w.grabs i (w.grabs i + 1) := by
  funext j
  have hupdate := grabs_update (w := w) t n l calls j
  rw [hl, Multiset.count_cons] at hupdate
  by_cases hj : j = i
  · subst hj
    rw [if_pos rfl] at hupdate
    rw [update_self]
    omega
  · rw [if_neg hj] at hupdate
    rw [update_of_ne hj]
    omega

theorem grabs_erase {l : Loans} {i : Entry} (hi : i ∈ (w.loans n).held)
    (hl : l.held = (w.loans n).held.erase i) (t : Table) (calls : ι → Call Outcome) :
    (⟨t, w.stamp, w.phase, update w.loans n l, calls⟩ : Threads ι).grabs =
      update w.grabs i (w.grabs i - 1) := by
  funext j
  have hupdate := grabs_update (w := w) t n l calls j
  have hpos := Multiset.count_pos.mpr hi
  rw [hl] at hupdate
  by_cases hj : j = i
  · subst hj
    rw [Multiset.count_erase_self] at hupdate
    rw [update_self]
    omega
  · rw [Multiset.count_erase_of_ne hj] at hupdate
    rw [update_of_ne hj]
    omega

omit [DecidableEq ι] in
theorem Threads.Sound.init (stdin stdout stderr : ℤ) :
    (Threads.init ι stdin stdout stderr).Sound [stdin, stdout, stderr] := by
  have hgrabs : (Threads.init ι stdin stdout stderr).grabs = fun _ ↦ 0 :=
    funext fun i ↦ Finset.sum_eq_zero fun _ _ ↦ Multiset.count_zero i
  have hsystem : (Threads.init ι stdin stdout stderr).system = initSystem stdin stdout stderr := by
    unfold Threads.system
    rw [hgrabs]
    rfl
  have hstdio : ∀ x o, (initSystem stdin stdout stderr).Holds x o → ¬ o.Made := by
    intro x o hx hmade
    cases hx with
    | entry hi =>
      obtain ⟨s, hs⟩ := refs_pos.mp (show 0 < refs (initFd stdin stdout stderr).fdmap _ from hi)
      change ((initFd stdin stdout stderr).pool _).object.Made at hmade
      rw [DescriptorTranslation.object, initFd_type hs] at hmade
      exact hmade
    | call hn => cases hn
  refine ⟨?_, ?_, fun n ↦ trivial, fun n i x hx ↦ hx.elim⟩
  · rw [hsystem]
    exact sound_init stdin stdout stderr
  · rw [hsystem]
    exact ⟨fun x o hx hmade ↦ absurd hmade (hstdio x o hx),
      fun x _ o hx _ hmade ↦ absurd hmade (hstdio x o hx)⟩

theorem Threads.Sound.advance (h : w.Sound tty) {l : Loans} {p : Call Outcome} {t : Table}
    {g : Entry → ℕ} (hg : (⟨t, w.stamp, w.phase, update w.loans n l, update w.calls n p⟩ :
      Threads ι).grabs = g) (hs : Spares w.table w.grabs t g)
    (hsound : Descriptor.Sound tty { w.system with table := t, grabs := g })
    (hp : p.Obeys lending l fun _ _ ↦ True)
    (hseen : ∀ i x, l.seen i x → i ∈ l.held ∧ (w.table.pool i).object.handle = x) :
    Threads.Sound tty (⟨t, w.stamp, w.phase, update w.loans n l, update w.calls n p⟩ :
      Threads ι) := by
  subst hg
  have hall : ∀ m i x, (update w.loans n l m).seen i x →
      i ∈ (update w.loans n l m).held ∧ (w.table.pool i).object.handle = x := by
    intro m
    by_cases hm : m = n
    · subst hm
      rwa [update_self]
    · rw [update_of_ne hm]
      exact h.seen m
  refine ⟨hsound, h.sheltered.spares hs hsound, fun m ↦ ?_, fun m i x hx ↦ ?_⟩
  · by_cases hm : m = n
    · subst hm
      dsimp only
      rwa [update_self, update_self]
    · dsimp only
      rw [update_of_ne hm, update_of_ne hm]
      exact h.calls m
  · obtain ⟨hheld, hhandle⟩ := hall m i x hx
    have hpos := Threads.grabs_pos (w := (⟨t, w.stamp, w.phase, update w.loans n l,
      update w.calls n p⟩ : Threads ι)) (n := m) hheld
    refine ⟨hheld, ?_⟩
    rw [(hs.object i (Nat.add_pos_right _ hpos)).2]
    exact hhandle

theorem Spares.refl (t : Table) (g : Entry → ℕ) : Spares t g t g :=
  spares_of_le (fun _ ↦ rfl) (fun _ h ↦ h) rfl

theorem Threads.Sound.stay (h : w.Sound tty) {p : Call Outcome}
    (hp : p.Obeys lending (w.loans n) fun _ _ ↦ True) :
    Threads.Sound tty (⟨w.table, w.stamp, w.phase, update w.loans n (w.loans n),
      update w.calls n p⟩ : Threads ι) :=
  h.advance (grabs_same rfl w.table _) (.refl _ _) h.system hp (h.seen n)

theorem Threads.Sound.ask (h : w.Sound tty) {q : Ask} {next : q.Answer → Call Outcome}
    {x : q.Answer} {t : Table} {K : (q : KernelAsk) → q.Answer} (hn : w.calls n = .ask q next)
    (hx : serve net (fun q _ ↦ (K q, ())) q (w.table, ()) = some (x, t, ()))
    (hno : ∀ s, q.Names s → w.system.Settled s) :
    Threads.Sound tty (⟨t, w.stamp, w.phase, update w.loans n (lending.next (w.loans n) q x),
      update w.calls n (next x)⟩ : Threads ι) := by
  have hcall := h.calls n
  rw [hn] at hcall
  obtain ⟨hmay, hnext⟩ := hcall
  replace hnext := hnext x trivial
  have hsys := h.system
  have hc : Covers w.table w.grabs := hsys.covers
  cases q with
  | grab fd =>
    obtain ⟨rfl, rfl⟩ : x = (fdGrab w.table fd).1 ∧ t = (fdGrab w.table fd).2 := by
      cases hx
      exact ⟨rfl, rfl⟩
    have hout := fdGrab_outcome w.table fd
    generalize fdGrab w.table fd = res at hout hnext
    cases hout with
    | refused => exact h.stay hnext
    | grabbed s i hopen =>
      obtain ⟨hfd, hslot⟩ := openAt_eq_some.mp hopen
      refine h.advance (grabs_cons rfl _ _) (.grab hslot) ?_ hnext fun j y hy ↦
        (h.seen n j y hy).imp_left Multiset.mem_cons_of_mem
      exact hsys.frame (frame_grab hslot hfd) (hc.grab hslot) hno fun _ ↦ False.elim
  | drop i =>
    obtain ⟨r, rfl, rfl⟩ : ∃ r, x = (fdDrop net w.table i r).1 ∧
        t = (fdDrop net w.table i r).2 := by
      unfold serve at hx
      cases hx
      exact ⟨_, rfl, rfl⟩
    have hpos : 0 < w.grabs i := Threads.grabs_pos hmay
    have hout := fdDrop_outcome net w.table i r
    have hgrabs := grabs_erase (w := w)
      (l := lending.next (w.loans n) (.drop i) (fdDrop net w.table i r).1) hmay rfl
    refine h.advance (hgrabs _ _) (.drop hc hpos hout) ?_ hnext fun j y hy ↦
      ⟨hy.2, (h.seen n j y hy.1).2⟩
    refine hsys.frame (frame_drop hc hpos hout rfl) (hc.drop hpos hout) (fun _ ↦ False.elim) ?_
    rintro j rfl
    exact hpos
  | load i =>
    obtain ⟨rfl, rfl⟩ : x = w.table.pool i ∧ t = w.table := by
      cases hx
      exact ⟨rfl, rfl⟩
    have hsame := grabs_same (w := w) (n := n)
      (l := lending.next (w.loans n) (.load i) (w.table.pool i)) rfl w.table
    refine h.advance (hsame _) (.refl _ _) hsys hnext ?_
    rintro j y (hy | ⟨rfl, rfl⟩)
    · exact h.seen n j y hy
    · exact ⟨hmay, object_handle _⟩
  | storeUid => exact hmay.elim
  | duplicate fd minfd =>
    cases hx
    have hout := duplicateDescriptor_outcome w.table fd minfd
    refine h.advance (grabs_same rfl _ _) (.duplicate hout) ?_ hnext (h.seen n)
    exact hsys.frame (frame_duplicate hout fun _ ↦ id) (hc.duplicate hout) hno fun _ ↦ False.elim
  | pass =>
    cases hx
    exact h.stay hnext
  | fault => exact x.elim
  | kernel q =>
    cases hx
    exact h.stay hnext

theorem Begins.lent {p : Call Outcome} (hp : Begins net p) : Lent [] p := by
  cases hp with
  | use c hc => exact FdCall.lent hc
  | accept s addr addrlen => exact lent_socketCall _ _ _

theorem ThreadsStep.sound (h : w.Sound tty) (hstep : ThreadsStep net w w') : w'.Sound tty := by
  cases hstep with
  | start n p out hn hp =>
    refine ⟨h.system, h.sheltered, fun m ↦ ?_, h.seen⟩
    by_cases hm : m = n
    · subst hm
      dsimp only
      rw [update_self]
      have hnone : (w.loans m).Has [] :=
        ⟨Multiset.zero_le _, fun _ _ hi ↦ absurd hi List.not_mem_nil⟩
      exact (hp.lent [] _ hnone).mono fun _ _ _ ↦ trivial
    · dsimp only
      rw [update_of_ne hm]
      exact h.calls m
  | ask n q next x t K hn hx hno => exact h.ask hn hx hno
  | act a ha hok =>
    have hen : a.Enabled w.system := by
      cases a with
      | op o =>
        cases o with
        | release | duplicate | duplicate2 => exact ⟨trivial, trivial⟩
        | acquire | fill | grab | drop => exact ha.elim
      | create | acquire | storeUid | storeType | second => trivial
    have hgrabs : (a.run net w.system).grabs = w.grabs := Action.run_grabs ha
    have hsame : (⟨⟨(a.run net w.system).table, w.grabs⟩, (a.run net w.system).stamp,
        (a.run net w.system).phase⟩ : System) = a.run net w.system := by
      rw [← hgrabs]
    refine ⟨?_, ?_, h.calls, fun n i x hx ↦ ?_⟩
    · exact hsame ▸ h.system.step hen hok.toOrderly
    · exact hsame ▸ h.sheltered.run h.system ha hok
    · obtain ⟨hheld, hhandle⟩ := h.seen n i x hx
      refine ⟨hheld, ?_⟩
      rw [← hhandle]
      exact congrArg _ (h.system.grabbed ha (Threads.grabs_pos hheld))

/-- However the calls of any number of threads go on at the same time, a request to the kernel names
the handle of an entry as it stands there, of an object that has been created and not been closed
since; and so are the objects of all entries that a call has grabbed and not dropped, as `poll` and
`select` do while they wait, and of all descriptors that have been filled, each of them standing for
its own. -/
theorem handles_alive {stdin stdout stderr : ℤ}
    (h : ReflTransGen (ThreadsStep net) (Threads.init ι stdin stdout stderr) w) :
    (∀ n q next, w.calls n = .ask (.kernel q) next → ∀ p ∈ q.handles,
      (w.table.pool p.1).object.handle = p.2 ∧
        ((w.table.pool p.1).object.Made → alive w.table.calls (w.table.pool p.1).object)) ∧
    (∀ i, ((∃ n, i ∈ (w.loans n).held) ∨ ∃ s, w.table.fdmap s = some i ∧ w.system.Settled s) →
      (w.table.pool i).object.Made → alive w.table.calls (w.table.pool i).object ∧
        ∀ j, ((∃ n, j ∈ (w.loans n).held) ∨
            ∃ s, w.table.fdmap s = some j ∧ w.system.Settled s) →
          (w.table.pool i).object = (w.table.pool j).object → i = j) := by
  have hsound : w.Sound [stdin, stdout, stderr] := by
    induction h with
    | refl => exact .init stdin stdout stderr
    | tail _ hstep ih => exact hstep.sound ih
  have hholds : ∀ i, ((∃ n, i ∈ (w.loans n).held) ∨
      ∃ s, w.table.fdmap s = some i ∧ w.system.Settled s) →
      w.system.Holds (.inl i) (w.table.pool i).object := by
    rintro i (⟨n, hi⟩ | ⟨s, hs, hno⟩)
    · have hpos : 0 < w.system.grabs i := Threads.grabs_pos hi
      exact .entry (Nat.add_pos_right _ hpos) (hsound.system.not_pending hpos)
    · exact .entry (used_slot hs) (hsound.system.settled hs hno)
  refine ⟨fun n q next hn p hp ↦ ?_, fun i hi hmade ↦ ⟨?_, fun j hj heq ↦ ?_⟩⟩
  · have hcall := hsound.calls n
    rw [hn] at hcall
    obtain ⟨hheld, hhandle⟩ := hsound.seen n p.1 p.2 (hcall.1 p hp)
    exact ⟨hhandle, hsound.sheltered.live _ _ (hholds p.1 (.inl ⟨n, hheld⟩))⟩
  · exact hsound.sheltered.live _ _ (hholds i hi) hmade
  · have hboth := hholds j hj
    rw [← heq] at hboth
    exact Sum.inl.inj (hsound.sheltered.apart _ _ _ (hholds i hi) hboth hmade)

end Threads

def afterSocket : Threads Bool where
  table := filledSocket.table
  stamp := filledSocket.stamp
  phase := filledSocket.phase
  loans _ := ⟨0, fun _ _ ↦ False⟩
  calls _ := pure ⟨0, none⟩

theorem afterSocket_reachable :
    ReflTransGen (ThreadsStep 0) (Threads.init Bool 1 2 3) afterSocket := by
  have hcreate : (Action.create 0 (.socket 5)).Fits (Threads.init Bool 1 2 3).system := by
    refine ⟨⟨fun s hs ↦ hs.elim, ?_⟩, ?_, by simp⟩
    · rintro n c ⟨⟩
      rfl
    · rintro n c ⟨⟩
      exact id
  have hacquire : ∀ w : System, (Action.acquire 0 0).Fits w := fun w ↦
    Action.fits_of_settled (fun s hs ↦ hs.elim) (by simp) (by simp)
  have hstoreUid : ∀ w : System, (Action.storeUid 0).Fits w := fun w ↦
    Action.fits_of_settled (fun s hs ↦ hs.elim) (by simp) (by simp)
  have hstoreType : ∀ w : System, (Action.storeType 0).Fits w := fun w ↦
    Action.fits_of_settled (fun s hs ↦ hs.elim) (by simp) (by simp)
  exact .tail (.tail (.tail (.single (.act _ (.create 0 (.socket 5)) trivial hcreate))
    (.act _ (.acquire 0 0) trivial (hacquire _))) (.act _ (.storeUid 0) trivial (hstoreUid _)))
    (.act _ (.storeType 0) trivial (hstoreType _))

/-- One thread waits in `recv`, and another has closed its descriptor. -/
theorem handles_alive_receiving :
    ∃ w : Threads Bool, ReflTransGen (ThreadsStep 0) (Threads.init Bool 1 2 3) w ∧
      (∃ next, w.calls false = .ask (.kernel (.use (some 3) 5 (.sceNetRecv 4096 16 0))) next) ∧
      w.table.fdmap 3 = none ∧ alive w.table.calls (.socket 5) := by
  have hgrab : (fdGrab filledSocket.table 3).1 = some 3 := by decide +kernel
  have hload : (fdGrab filledSocket.table 3).2.pool 3 = ⟨5, .SOCKET, 2⟩ := by decide +kernel
  have hserve : serve 0 (fun q _ ↦ (KernelAsk.quiet q, ())) (.grab 3) (filledSocket.table, ()) =
      some (some 3, (fdGrab filledSocket.table 3).2, ()) := by
    rw [← hgrab]
    rfl
  have hread : serve 0 (fun q _ ↦ (KernelAsk.quiet q, ())) (.load 3)
      ((fdGrab filledSocket.table 3).2, ()) =
        some (⟨5, .SOCKET, 2⟩, (fdGrab filledSocket.table 3).2, ()) := by
    rw [← hload]
    rfl
  have hobject : ((releaseDescriptor 0 (fdGrab filledSocket.table 3).2 3 0).2.pool 3).object =
      .socket 5 := by
    decide +kernel
  have hsettled : ∀ (w : System) s, w.phase = filledSocket.phase → w.Settled s := by
    intro w s hw n p hp
    rw [System.Pending, hw, filledSocket_pending] at hp
    cases hp
  have hclose : ∀ w : System, w.phase = filledSocket.phase →
      (Action.op (.release 3 0)).Fits w := fun w hw ↦
    Action.fits_of_settled (fun s _ ↦ hsettled w s hw) (by simp) (by simp)
  obtain ⟨w, hrun, htable, next, hcall⟩ : ∃ w : Threads Bool,
      ReflTransGen (ThreadsStep 0) (Threads.init Bool 1 2 3) w ∧
      w.table = (releaseDescriptor 0 (fdGrab filledSocket.table 3).2 3 0).2 ∧
      ∃ next, w.calls false = .ask (.kernel (.use (some 3) 5 (.sceNetRecv 4096 16 0))) next := by
    refine ⟨_, .tail (.tail (.tail (.tail afterSocket_reachable
      (.start _ false _ ⟨0, none⟩ rfl (.use (.socketCall 3 (.recv 4096 16 0)) id)))
      (.ask _ false (.grab 3) _ (some 3) _ KernelAsk.quiet rfl hserve fun s _ ↦
        hsettled _ s rfl))
      (.ask _ false (.load 3) _ ⟨5, .SOCKET, 2⟩ _ KernelAsk.quiet rfl hread fun s _ ↦
        hsettled _ s rfl))
      (.act _ (.op (.release 3 0)) trivial (hclose _ rfl)), rfl, _, rfl⟩
  refine ⟨w, hrun, ⟨next, hcall⟩, ?_, ?_⟩
  · rw [htable]
    decide +kernel
  · have halive := ((handles_alive hrun).1 false _ next hcall (3, 5) (List.mem_singleton_self _)).2
    rw [htable] at halive ⊢
    rw [hobject] at halive
    exact halive trivial

end SceLibcPosix.Descriptor
