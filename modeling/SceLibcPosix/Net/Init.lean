import Mathlib.Data.Finset.Basic
import SceLibcPosix.Lib.Interleaving
import SceLibcPosix.VitaError

namespace SceLibcPosix.Net

open VitaError Programs Interleaving Function

def NOT_TERMINATED : ℤ := 0x80412102 - 2 ^ 32

/-- The steps of `_net_init` on the state that its calls share: those of the kernel, and the
accesses to its two variables. -/
inductive NetAsk
  | compareAndSwap
  | sceSysmoduleIsLoaded
  | sceSysmoduleLoadModule
  | malloc
  | hasMemory
  | sceNetInit
  | free
  | clearMemory
  | sceNetCtlInit
  | sceNetTerm
deriving DecidableEq, Repr

/-- `compareAndSwap` tells whether it has swapped, `sceSysmoduleIsLoaded` whether the module is
loaded, and `hasMemory` whether `_net_memory`, which `malloc` stores to, is no null pointer. -/
abbrev NetAsk.Answer : NetAsk → Type
  | compareAndSwap | sceSysmoduleIsLoaded | hasMemory => Bool
  | sceSysmoduleLoadModule | sceNetInit | sceNetCtlInit => ℤ
  | malloc => Option ℕ
  | free | clearMemory | sceNetTerm => Unit

abbrev NetCall := Program NetAsk NetAsk.Answer ℤ

section Program

variable (net : NetErrno → ℤ) (busy : ℤ)

/-- The end of `_net_init` where `sceNetCtlInit` has failed with `ret`. -/
def teardown (ret : ℤ) : NetCall := do
  let inited ← .query .hasMemory
  if inited then
    let _ ← .query .sceNetTerm
    let _ ← .query .free
    return ret
  else return ret

def initCtl : NetCall := do
  let ret ← .query .sceNetCtlInit
  if ret < 0 ∧ ret ≠ NOT_TERMINATED then teardown ret else return 0

/-- `_net_init`, from the call of `sceNetInit` on. `busy` is `SCE_NET_ERROR_EBUSY`. -/
def initNet : NetCall := do
  let ret ← .query .sceNetInit
  if ret < 0 then
    let _ ← .query .free
    let _ ← .query .clearMemory
    if ret ≠ busy then return ret else initCtl
  else initCtl

def allocate : NetCall := do
  let _ ← .query .malloc
  let mem ← .query .hasMemory
  if !mem then return net .ENOMEM else initNet busy

def loadModule : NetCall := do
  let loaded ← .query .sceSysmoduleIsLoaded
  if !loaded then
    let ret ← .query .sceSysmoduleLoadModule
    if ret < 0 then return ret else allocate net busy
  else allocate net busy

def netInit : NetCall := do
  let swapped ← .query .compareAndSwap
  if !swapped then return 0 else loadModule net busy

end Program

/-- What the calls of `_net_init` share. `initialized` and `memory` are its variables. `net` and
`ctl` say whether `sceNetInit` and `sceNetCtlInit` have succeeded, or reported that they had already
done so, and nothing has been torn down since; `stack` is the block that the network stack works on,
and `live` are the blocks that are allocated. -/
structure NetState where
  initialized : Bool := false
  memory : Option ℕ := none
  net : Bool := false
  ctl : Bool := false
  stack : Option ℕ := none
  live : Finset ℕ := ∅

def NetState.Up (s : NetState) : Prop := s.net = true ∧ s.ctl = true

/-- A block may be freed if it is allocated and the stack does not work on it. -/
def NetState.MayFree (s : NetState) : Prop :=
  ∀ b, s.memory = some b → b ∈ s.live ∧ s.stack ≠ some b

/-- Each step, for every result of the kernel. A call that has swapped does not do so again, and is
over once the libraries are up. -/
def network (busy : ℤ) : Rules NetAsk NetAsk.Answer NetState where
  may s
    | .compareAndSwap => False
    | .free => s.ctl = false ∧ s.MayFree
    | _ => s.ctl = false
  can s
    | .compareAndSwap, swapped => swapped = !s.initialized
    | .hasMemory, inited => inited = s.memory.isSome
    | .malloc, mem => ∀ b, mem = some b → b ∉ s.live
    | _, _ => True
  next s
    | .compareAndSwap, _ => { s with initialized := true }
    | .malloc, mem => { s with memory := mem, live := mem.elim s.live (insert · s.live) }
    | .sceNetInit, ret =>
      if 0 ≤ ret then { s with net := true, stack := s.memory }
      else if ret = busy then { s with net := true }
      else s
    | .free, _ => { s with live := s.memory.elim s.live s.live.erase }
    | .clearMemory, _ => { s with memory := none }
    | .sceNetCtlInit, ret => if 0 ≤ ret ∨ ret = NOT_TERMINATED then { s with ctl := true } else s
    | .sceNetTerm, _ => { s with net := false, ctl := false, stack := none }
    | .sceSysmoduleIsLoaded, _ | .sceSysmoduleLoadModule, _ | .hasMemory, _ => s

abbrev NetPool := Pool NetAsk NetAsk.Answer NetState ℕ ℤ

abbrev NetTurn := Turn NetAsk NetAsk.Answer NetState ℕ ℤ

def NetPool.start (net : NetErrno → ℤ) (busy : ℤ) : NetPool := ⟨{}, fun _ ↦ netInit net busy⟩

/-- What a step of a run should do: success is returned where the libraries are up, a call that is
made after one has failed tries again, and the block that is freed is allocated and not that of the
stack. -/
structure Sound (net : NetErrno → ℤ) (busy : ℤ) (e : NetTurn) : Prop where
  success : e.after.calls e.call = .ret 0 → e.after.shared.Up
  retries : e.before.calls e.call = netInit net busy →
    (∃ n ret, e.before.calls n = .ret ret ∧ ret ≠ 0) →
    ∃ next, e.after.calls e.call = .ask .sceSysmoduleIsLoaded next
  frees : (∃ next, e.before.calls e.call = .ask .free next) → e.before.shared.MayFree

/-- When a call is made, no other call is on its way, and none has failed. -/
def InTime (net : NetErrno → ℤ) (busy : ℤ) (e : NetTurn) : Prop :=
  e.before.calls e.call = netInit net busy →
    ∀ n, e.before.calls n = netInit net busy ∨ e.before.calls n = .ret 0

def Ended (ret : ℤ) (s : NetState) : Prop := ret = 0 ∧ s.Up ∨ ret ≠ 0 ∧ s.ctl = false

/-- At most one call gets past its swap; the others have not begun or have returned success. -/
inductive Owned (net : NetErrno → ℤ) (busy : ℤ) : NetPool → Prop
  | idle (w : NetPool) (hs : w.shared = {}) (hcalls : ∀ n, w.calls n = netInit net busy) :
    Owned net busy w
  | owned (w : NetPool) (hs : w.shared.initialized = true) (n : ℕ)
    (hn : (w.calls n).Obeys (network busy) w.shared Ended)
    (hcalls : ∀ m ≠ n, w.calls m = netInit net busy ∨ w.calls m = .ret 0) : Owned net busy w

section Owner

variable {net : NetErrno → ℤ} {busy ret : ℤ} {s : NetState} {b : ℕ}

theorem teardown_obeys (hret : ret ≠ 0) (hctl : s.ctl = false)
    (hlive : ∀ b, s.memory = some b → b ∈ s.live) :
    (teardown ret).Obeys (network busy) s Ended := by
  refine ⟨hctl, fun inited _ ↦ ?_⟩
  cases inited with
  | false => exact .inr ⟨hret, hctl⟩
  | true =>
    refine ⟨hctl, fun _ _ ↦ ⟨⟨rfl, fun b hb ↦ ⟨hlive b hb, Option.some_ne_none b |>.symm⟩⟩,
      fun _ _ ↦ .inr ⟨hret, rfl⟩⟩⟩

theorem initCtl_obeys (hnet : s.net = true) (hctl : s.ctl = false)
    (hlive : ∀ b, s.memory = some b → b ∈ s.live) : initCtl.Obeys (network busy) s Ended := by
  unfold initCtl
  rw [Program.query_bind]
  refine ⟨hctl, fun (ret : ℤ) _ ↦ ?_⟩
  dsimp only
  by_cases h : ret < 0 ∧ ret ≠ NOT_TERMINATED
  · have hno : ¬ (0 ≤ ret ∨ ret = NOT_TERMINATED) := by omega
    have hs : (network busy).next s .sceNetCtlInit ret = s := if_neg hno
    rw [if_pos h, hs]
    exact teardown_obeys (by omega) hctl hlive
  · have hyes : 0 ≤ ret ∨ ret = NOT_TERMINATED := by omega
    have hs : (network busy).next s .sceNetCtlInit ret = { s with ctl := true } := if_pos hyes
    rw [if_neg h, hs]
    exact .inl ⟨rfl, hnet, rfl⟩

theorem initNet_obeys (hctl : s.ctl = false) (hstack : s.stack = none)
    (hlive : ∀ b, s.memory = some b → b ∈ s.live) :
    (initNet busy).Obeys (network busy) s Ended := by
  have hfree : s.MayFree := fun b hb ↦ ⟨hlive b hb, by simp [hstack]⟩
  unfold initNet
  rw [Program.query_bind]
  refine ⟨hctl, fun (ret : ℤ) _ ↦ ?_⟩
  dsimp only
  by_cases hret : ret < 0
  · rw [if_pos hret]
    by_cases hbusy : ret = busy
    · have hs : (network busy).next s .sceNetInit ret = { s with net := true } :=
        (if_neg (not_le.mpr hret)).trans (if_pos hbusy)
      rw [hs, if_neg (not_not.mpr hbusy)]
      refine ⟨⟨hctl, hfree⟩, fun _ _ ↦ ⟨hctl, fun _ _ ↦ ?_⟩⟩
      exact initCtl_obeys rfl hctl fun b hb ↦ nomatch hb
    · have hs : (network busy).next s .sceNetInit ret = s :=
        (if_neg (not_le.mpr hret)).trans (if_neg hbusy)
      rw [hs, if_pos hbusy]
      exact ⟨⟨hctl, hfree⟩, fun _ _ ↦ ⟨hctl, fun _ _ ↦ .inr ⟨by omega, hctl⟩⟩⟩
  · have hs : (network busy).next s .sceNetInit ret = { s with net := true, stack := s.memory } :=
      if_pos (not_lt.mp hret)
    rw [if_neg hret, hs]
    exact initCtl_obeys rfl hctl hlive

theorem allocate_obeys (hnomem : net .ENOMEM ≠ 0) (hctl : s.ctl = false) (hstack : s.stack = none) :
    (allocate net busy).Obeys (network busy) s Ended := by
  refine ⟨hctl, fun mem hmem ↦ ⟨hctl, fun inited hinited ↦ ?_⟩⟩
  cases inited with
  | false => exact .inr ⟨hnomem, hctl⟩
  | true =>
    refine initNet_obeys hctl hstack fun b hb ↦ ?_
    obtain rfl : mem = some b := hb
    exact Finset.mem_insert_self b s.live

theorem loadModule_obeys (hnomem : net .ENOMEM ≠ 0) (hctl : s.ctl = false)
    (hstack : s.stack = none) : (loadModule net busy).Obeys (network busy) s Ended := by
  have hallocate : (allocate net busy).Obeys (network busy) s Ended :=
    allocate_obeys hnomem hctl hstack
  refine ⟨hctl, fun loaded _ ↦ ?_⟩
  cases loaded with
  | true => exact hallocate
  | false =>
    refine ⟨hctl, fun (ret : ℤ) _ ↦ ?_⟩
    change Program.Obeys _ (if ret < 0 then pure ret else allocate net busy) _ _
    by_cases hret : ret < 0
    · rw [if_pos hret]
      exact .inr ⟨by omega, hctl⟩
    · rw [if_neg hret]
      exact hallocate

theorem up_iff {p : NetCall} (hp : p.Obeys (network busy) s Ended) : s.Up ↔ p = .ret 0 := by
  constructor
  · intro hup
    cases p with
    | ret ret =>
      rcases hp with ⟨rfl, -⟩ | ⟨-, hctl⟩
      · rfl
      · exact absurd (hctl.symm.trans hup.2) Bool.false_ne_true
    | ask q next =>
      have hctl : s.ctl ≠ false := by simp [hup.2]
      cases q with
      | compareAndSwap => exact hp.1.elim
      | free => exact absurd hp.1.1 hctl
      | _ => exact absurd hp.1 hctl
  · rintro rfl
    rcases hp with ⟨-, hup⟩ | ⟨hne, -⟩
    · exact hup
    · exact absurd rfl hne

end Owner

section Runs

variable {net : NetErrno → ℤ} {busy : ℤ} {w w' : NetPool} {n : ℕ} {turns : List NetTurn}

theorem netInit_eq : netInit net busy = .ask .compareAndSwap fun swapped ↦
    if !swapped then pure 0 else loadModule net busy := rfl

theorem not_begin {p : NetCall} {s : NetState} (hp : p.Obeys (network busy) s Ended) :
    p ≠ netInit net busy := by
  rintro rfl
  exact hp.1

theorem begin_late (h : Step (network busy) w n w') (hn : w.calls n = netInit net busy)
    (hs : w.shared.initialized = true) :
    w'.shared = w.shared ∧ w'.calls = update w.calls n (.ret 0) := by
  cases h with
  | ask q next x hq hx =>
    obtain ⟨rfl, hnext⟩ := Program.ask.inj (hq.symm.trans (hn.trans netInit_eq))
    obtain rfl := eq_of_heq hnext
    obtain rfl : x = false := hx.trans (congrArg _ hs)
    refine ⟨?_, rfl⟩
    change { w.shared with initialized := true } = w.shared
    rw [← hs]

theorem begin_first (h : Step (network busy) w n w') (hn : w.calls n = netInit net busy)
    (hs : w.shared.initialized = false) :
    w'.shared = { w.shared with initialized := true } ∧
      w'.calls = update w.calls n (loadModule net busy) := by
  cases h with
  | ask q next x hq hx =>
    obtain ⟨rfl, hnext⟩ := Program.ask.inj (hq.symm.trans (hn.trans netInit_eq))
    obtain rfl := eq_of_heq hnext
    obtain rfl : x = true := hx.trans (congrArg _ hs)
    exact ⟨rfl, rfl⟩

theorem not_step_ret {ret : ℤ} (h : Step (network busy) w n w') : w.calls n ≠ .ret ret := by
  cases h with
  | ask q next x hq hx =>
    rw [hq]
    exact nofun

theorem next_initialized {s : NetState} (q : NetAsk) (x : q.Answer) (h : s.initialized = true) :
    ((network busy).next s q x).initialized = true := by
  cases q with
  | compareAndSwap => rfl
  | sceNetInit =>
    dsimp only [network]
    split_ifs <;> exact h
  | sceNetCtlInit =>
    dsimp only [network]
    split_ifs <;> exact h
  | _ => exact h

theorem Owned.step (hnomem : net .ENOMEM ≠ 0) (h : Owned net busy w)
    (hs : Step (network busy) w n w') : Owned net busy w' := by
  cases h with
  | idle hshared hcalls =>
    obtain ⟨hshared', hcalls'⟩ := begin_first hs (hcalls n) (congrArg _ hshared)
    rw [hshared] at hshared'
    refine .owned _ (congrArg _ hshared') n ?_ fun m hm ↦ .inl ?_
    · rw [hcalls', hshared', update_self]
      exact loadModule_obeys hnomem rfl rfl
    · rw [hs.other hm]
      exact hcalls m
  | owned hinit k hk hcalls =>
    by_cases hn : n = k
    · subst hn
      refine .owned _ ?_ n (hs.obeys hk) fun m hm ↦ ?_
      · cases hs with
        | ask q next x hq hx => exact next_initialized q x hinit
      · rw [hs.other hm]
        exact hcalls m hm
    · rcases hcalls n hn with hbegin | hret
      · obtain ⟨hshared', hcalls'⟩ := begin_late hs hbegin hinit
        refine .owned _ (hshared' ▸ hinit) k ?_ fun m hm ↦ ?_
        · rw [hshared', hs.other (Ne.symm hn)]
          exact hk
        · by_cases hmn : m = n
          · subst hmn
            rw [hcalls', update_self]
            exact .inr rfl
          · rw [hs.other hmn]
            exact hcalls m hm
      · exact absurd hret (not_step_ret hs)

theorem Owned.sound {e : NetTurn} (h : Owned net busy e.before)
    (hs : Step (network busy) e.before e.call e.after) (htime : InTime net busy e) :
    Sound net busy e := by
  cases h with
  | idle hshared hcalls =>
    have hbegin := hcalls e.call
    obtain ⟨-, hcalls'⟩ := begin_first hs hbegin (congrArg _ hshared)
    refine ⟨fun hret ↦ ?_, fun _ ⟨m, ret, hret, _⟩ ↦ ?_, fun ⟨next, hfree⟩ ↦ ?_⟩
    · rw [hcalls', update_self] at hret
      cases hret
    · cases (hcalls m).symm.trans hret
    · cases hbegin.symm.trans hfree
  | owned hinit k hk hcalls =>
    refine ⟨fun hret ↦ ?_, fun hbegin ⟨m, ret, hret, hne⟩ ↦ ?_, fun ⟨next, hfree⟩ ↦ ?_⟩
    · by_cases hn : e.call = k
      · exact (up_iff (hs.obeys (hn ▸ hk))).mpr hret
      · rcases hcalls e.call hn with hbegin | hret'
        · rw [(begin_late hs hbegin hinit).1]
          exact (up_iff hk).mpr ((htime hbegin k).resolve_left (not_begin hk))
        · exact absurd hret' (not_step_ret hs)
    · rcases htime hbegin m with hbegin' | hzero
      · cases hbegin'.symm.trans hret
      · cases hzero.symm.trans hret
        exact absurd rfl hne
    · by_cases hn : e.call = k
      · subst hn
        rw [hfree] at hk
        exact hk.1.2
      · rcases hcalls e.call hn with hbegin | hret
        · cases hbegin.symm.trans hfree
        · cases hret.symm.trans hfree

/-- A call that is not in time returns success where the libraries are not up. -/
theorem Owned.inTime {e : NetTurn} (h : Owned net busy e.before)
    (hs : Step (network busy) e.before e.call e.after) (hsound : Sound net busy e) :
    InTime net busy e := by
  intro hbegin n
  cases h with
  | idle _ hcalls => exact .inl (hcalls n)
  | owned hinit k hk hcalls =>
    by_cases hn : n = k
    · obtain ⟨hshared, hcalls'⟩ := begin_late hs hbegin hinit
      have hret : e.after.calls e.call = .ret 0 := by rw [hcalls', update_self]
      have hup : e.before.shared.Up := hshared ▸ hsound.success hret
      exact .inr (hn ▸ (up_iff hk).mp hup)
    · exact hcalls n hn

/-- A run does what it should exactly if no call is made while the first is on its way, or after it
has failed. -/
theorem net_init_sound (net : NetErrno → ℤ) (busy : ℤ) (hnomem : net .ENOMEM ≠ 0)
    (turns : List NetTurn) (w : NetPool)
    (h : Run (network busy) (NetPool.start net busy) turns w) :
    (∀ e ∈ turns, Sound net busy e) ↔ ∀ e ∈ turns, InTime net busy e := by
  have hstart : Owned net busy (NetPool.start net busy) := .idle _ rfl fun _ ↦ rfl
  have howned := (h.invariant (fun _ _ _ hw hs ↦ Owned.step hnomem hw hs) hstart).2
  exact ⟨fun hall e he ↦ (howned e he).inTime (h.turn he) (hall e he),
    fun hall e he ↦ (howned e he).sound (h.turn he) (hall e he)⟩

theorem inTime_of_ask {e : NetTurn} {q : NetAsk} {next : q.Answer → NetCall}
    (h : e.before.calls e.call = .ask q next) (hq : q ≠ .compareAndSwap) : InTime net busy e := by
  intro hbegin
  exact absurd (Program.ask.inj (h.symm.trans (hbegin.trans netInit_eq))).1 hq

end Runs

def BUSY : ℤ := 0x80410110 - 2 ^ 32

/-- `SCE_NET_ENOMEM` is 12. -/
def enomem : NetErrno → ℤ := fun _ ↦ 12

/-- A call that initialises everything, and one after it. -/
theorem net_init_sound_twice :
    ∃ turns w, Run (network BUSY) (NetPool.start enomem BUSY) turns w ∧ w.calls 0 = .ret 0 ∧
      w.calls 1 = .ret 0 ∧ ∀ e ∈ turns, Sound enomem BUSY e := by
  have hstart : Run (network BUSY) (NetPool.start enomem BUSY) [] _ := .nil
  have hrun := hstart.ask 0 .compareAndSwap true rfl rfl
    |>.ask 0 .sceSysmoduleIsLoaded true rfl trivial
    |>.ask 0 .malloc (some 0) rfl (fun b _ ↦ Finset.notMem_empty b)
    |>.ask 0 .hasMemory true rfl rfl
    |>.ask 0 .sceNetInit (0 : ℤ) rfl trivial
    |>.ask 0 .sceNetCtlInit (0 : ℤ) rfl trivial
    |>.ask 1 .compareAndSwap false rfl rfl
  refine ⟨_, _, hrun, rfl, rfl, (net_init_sound enomem BUSY (by decide) _ _ hrun).mpr ?_⟩
  simp only [List.forall_mem_cons, List.not_mem_nil, false_implies, implies_true, and_true]
  refine ⟨fun _ n ↦ ?_, inTime_of_ask rfl (by decide), inTime_of_ask rfl (by decide),
    inTime_of_ask rfl (by decide), inTime_of_ask rfl (by decide), inTime_of_ask rfl (by decide),
    fun _ _ ↦ .inl rfl⟩
  by_cases hn : n = 0
  · subst hn
    exact .inr rfl
  · refine .inl ?_
    simp only [update_of_ne hn]
    rfl

/-- The first call gets no memory, and the second returns success without having tried. -/
theorem net_init_false_success :
    ∃ turns w, Run (network BUSY) (NetPool.start enomem BUSY) turns w ∧ w.calls 0 = .ret 12 ∧
      w.calls 1 = .ret 0 ∧ ¬ w.shared.Up ∧ ∃ e ∈ turns, ¬ Sound enomem BUSY e := by
  have hstart : Run (network BUSY) (NetPool.start enomem BUSY) [] _ := .nil
  have hrun := hstart.ask 0 .compareAndSwap true rfl rfl
    |>.ask 0 .sceSysmoduleIsLoaded true rfl trivial
    |>.ask 0 .malloc none rfl (fun _ h ↦ nomatch h)
    |>.ask 0 .hasMemory false rfl rfl
    |>.ask 1 .compareAndSwap false rfl rfl
  refine ⟨_, _, hrun, rfl, rfl, ?_, _, List.mem_cons_self, ?_⟩
  · intro h
    exact Bool.false_ne_true h.1
  · intro h
    exact Bool.false_ne_true (h.success rfl).1

end SceLibcPosix.Net
