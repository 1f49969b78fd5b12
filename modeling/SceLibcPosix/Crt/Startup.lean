import SceLibcPosix.Lib.Programs
import SceLibcPosix.Strings.Appends

namespace SceLibcPosix.Crt

open Programs Loops Strings Terminated

def ARGC_MAX : ℕ := 31

/-- The entries of `argv` so far, and the offset of the next argument in the block. -/
structure Arguments where
  argv : List ℕ
  loc : ℕ

def strnlenS (m : Memory) (s n : ℕ) : ℕ := if s = 0 then 0 else strnlen m s n

def Arguments.push (m : Memory) (ptr args : ℕ) (a : Arguments) : Arguments where
  argv := a.argv ++ [ptr + a.loc]
  loc := (a.loc + strnlenS m (ptr + a.loc) (args - a.loc) + 1) % 2 ^ 32

/-- `while (loc < args)`, which is left as well where `argc == ARGC_MAX`. -/
def argTurn (m : Memory) (ptr args : ℕ) (a : Arguments) : Turn Arguments :=
  if a.loc < args then
    if (a.push m ptr args).argv.length = ARGC_MAX then .stop (a.push m ptr args)
    else .next (a.push m ptr args)
  else .stop a

/-- The arguments in a block of `args` bytes at `ptr`. The first is an empty string elsewhere. -/
def arguments (m : Memory) (empty ptr args fuel : ℕ) : Option (List ℕ) :=
  (run (argTurn m ptr args) fuel ⟨[empty], 0⟩).map Arguments.argv

structure Image where
  tlsRegionInfo : Bool
  sceLibcPosixDisableFios2Init : BitVec 32
  sceUserModuleList : List (List Char)
  preinitArray : List ℕ
  initArray : List ℕ

inductive Ask
  | cxaSetDsoHandleMain
  | sceLdTlsRegisterModuleInfo
  | sceKernelLoadStartModule (path : List Char) (flags : Option (BitVec 32))
  | call (f : ℕ)
  | main (argv : List ℕ)
deriving DecidableEq, Repr

abbrev Ask.Answer : Ask → Type
  | .cxaSetDsoHandleMain | .call _ => Unit
  | _ => BitVec 32

abbrev Startup := Program Ask Ask.Answer

abbrev Asked := (q : Ask) × q.Answer

/-- How the program ends: with `exit`, or with `abort` after what `sceClibPrintf` is asked for. -/
inductive End
  | exited (status : BitVec 32)
  | aborted (message : Option (String × BitVec 32 × List Char))
deriving DecidableEq, Repr

def DEFAULT_LIBC_POSIX_PATH : List Char := "app0:sce_module/SceLibcPosix.suprx".toList

def SCE_LIBC_POSIX_FLAG_DISABLE_FIOS2_INIT : BitVec 32 := 1

/-- What the kernel returns for a module that there already is. -/
def ALREADY_LOADED : BitVec 32 := 0x8002D013

def Image.flags (i : Image) : BitVec 32 :=
  if i.sceLibcPosixDisableFios2Init ≠ 0 then SCE_LIBC_POSIX_FLAG_DISABLE_FIOS2_INIT else 0

def loadModules : List (List Char) → Startup End → Startup End
  | [], rest => rest
  | path :: paths, rest =>
    .ask (.sceKernelLoadStartModule path none) fun (ret : BitVec 32) ↦
      if ret.toInt < 0 then
        pure (.aborted (some ("Preload module failed 0x%08x : %s\n", ret, path)))
      else loadModules paths rest

def callEach (fs : List ℕ) : Startup Unit := Program.forEach .call fs

/-- `_initialize` after the loop over the arguments. -/
def startMain (i : Image) (argv : List ℕ) : Startup End :=
  .ask (.sceKernelLoadStartModule DEFAULT_LIBC_POSIX_PATH (some i.flags)) fun (ret : BitVec 32) ↦
    if ret.toInt < 0 ∧ ret ≠ ALREADY_LOADED then
      pure (.aborted (some ("Preload SceLibcPosix failed 0x%08x : %s\n", ret,
        DEFAULT_LIBC_POSIX_PATH)))
    else
      loadModules i.sceUserModuleList do
        callEach i.preinitArray
        callEach i.initArray
        .ask (.main argv) fun (status : BitVec 32) ↦ pure (.exited status)

/-- `_initialize`, which goes on with the arguments. -/
def initializeTls (i : Image) (rest : Startup End) : Startup End :=
  .ask .cxaSetDsoHandleMain fun _ ↦
    if i.tlsRegionInfo then
      .ask .sceLdTlsRegisterModuleInfo fun (ret : BitVec 32) ↦
        if ret ≠ 0 then pure (.aborted none) else rest
    else rest

def start (i : Image) (m : Memory) (empty ptr args fuel : ℕ) : Option (Startup End) :=
  (arguments m empty ptr args fuel).map fun argv ↦ initializeTls i (startMain i argv)

section Arguments

variable {m : Memory} {empty ptr args : ℕ} {a : Arguments} {ls : List (List (BitVec 8))}

theorem arguments_laid (loc : ℕ) (argv : List ℕ) (hptr : ptr ≠ 0)
    (hlaid : Laid m.bytes (ptr + loc) ls) (hargs : args = loc + extent ls) (hsize : args < 2 ^ 32)
    (hroom : argv.length < ARGC_MAX) :
    ∃ n b argv', Loops.Ends (argTurn m ptr args) n ⟨argv, loc⟩ b ∧ b.argv = argv ++ argv' ∧
      List.Forall₂ (Holds m.bytes) argv' (ls.take (ARGC_MAX - argv.length)) := by
  induction ls generalizing loc argv with
  | nil =>
    rw [extent_nil] at hargs
    refine ⟨0, _, [], .stop (if_neg (by simp [hargs])), (List.append_nil _).symm, ?_⟩
    rw [List.take_nil]
    exact .nil
  | cons l ls ih =>
    obtain ⟨hl, hlaid⟩ := hlaid
    rw [extent_cons] at hargs
    have hlen : strnlenS m (ptr + loc) (args - loc) = l.length := by
      rw [strnlenS, if_neg (by omega)]
      exact strnlen_holds hl (by omega)
    have hpush : Arguments.push m ptr args ⟨argv, loc⟩ =
        ⟨argv ++ [ptr + loc], loc + l.length + 1⟩ := by
      have hmod : (loc + l.length + 1) % 2 ^ 32 = loc + l.length + 1 :=
        Nat.mod_eq_of_lt (by omega)
      simp only [Arguments.push, hlen, hmod]
    have hturn : argTurn m ptr args ⟨argv, loc⟩ =
        if (argv ++ [ptr + loc]).length = ARGC_MAX then
          .stop ⟨argv ++ [ptr + loc], loc + l.length + 1⟩
        else .next ⟨argv ++ [ptr + loc], loc + l.length + 1⟩ := by
      have hloc : loc < args := by omega
      simp only [argTurn, if_pos hloc, hpush]
    have hlast : (argv ++ [ptr + loc]).length = argv.length + 1 := List.length_append
    by_cases hmax : (argv ++ [ptr + loc]).length = ARGC_MAX
    · rw [if_pos hmax] at hturn
      have hone : ARGC_MAX - argv.length = 1 := by omega
      refine ⟨0, _, [ptr + loc], .stop hturn, rfl, ?_⟩
      rw [hone, List.take_succ_cons, List.take_zero]
      exact .cons hl .nil
    · rw [if_neg hmax] at hturn
      rw [show ptr + loc + l.length + 1 = ptr + (loc + l.length + 1) by omega] at hlaid
      have hroom' : (argv ++ [ptr + loc]).length < ARGC_MAX := by omega
      obtain ⟨n, b, argv', hends, hb, hholds⟩ := ih _ _ hlaid (by omega) hroom'
      refine ⟨n + 1, b, (ptr + loc) :: argv', .next hturn hends, ?_, ?_⟩
      · rw [hb, List.append_assoc, List.singleton_append]
      · have hmore : ARGC_MAX - argv.length = ARGC_MAX - (argv ++ [ptr + loc]).length + 1 := by
          omega
        rw [hmore, List.take_succ_cons]
        exact .cons hl hholds

theorem arguments_bounded (m : Memory) (hargc : a.argv.length < ARGC_MAX)
    (hin : ∀ p ∈ a.argv, p = empty ∨ ptr ≤ p ∧ p < ptr + args) :
    ∃ n b, Loops.Ends (argTurn m ptr args) n a b ∧ b.argv.length ≤ ARGC_MAX ∧
      ∀ p ∈ b.argv, p = empty ∨ ptr ≤ p ∧ p < ptr + args := by
  induction hk : ARGC_MAX - a.argv.length generalizing a with
  | zero => omega
  | succ k ih =>
    by_cases hloc : a.loc < args
    · have hlen : (a.push m ptr args).argv.length = a.argv.length + 1 := List.length_append
      have hin' : ∀ p ∈ (a.push m ptr args).argv, p = empty ∨ ptr ≤ p ∧ p < ptr + args := by
        simp only [Arguments.push, List.mem_append, List.mem_singleton]
        rintro p (hp | rfl)
        · exact hin p hp
        · omega
      by_cases hmax : (a.push m ptr args).argv.length = ARGC_MAX
      · refine ⟨0, _, .stop ?_, Nat.le_of_eq hmax, hin'⟩
        rw [argTurn, if_pos hloc, if_pos hmax]
      · obtain ⟨n, b, hends, hb⟩ := ih (by omega) hin' (by omega)
        refine ⟨n + 1, b, .next ?_ hends, hb⟩
        rw [argTurn, if_pos hloc, if_neg hmax]
    · exact ⟨0, a, .stop (if_neg hloc), Nat.le_of_lt hargc, hin⟩

theorem arguments_returns (m : Memory) (empty ptr args : ℕ) :
    ∃ argv, Returns (arguments m empty ptr args) argv ∧ argv.length ≤ ARGC_MAX ∧
      (∀ p ∈ argv, p = empty ∨ ptr ≤ p ∧ p < ptr + args) ∧
      ∀ ls, ptr ≠ 0 → Holds m.bytes empty [] → Laid m.bytes ptr ls → args = extent ls →
        args < 2 ^ 32 → List.Forall₂ (Holds m.bytes) argv ([] :: ls.take (ARGC_MAX - 1)) := by
  have hstart : ([empty] : List ℕ).length < ARGC_MAX := by simp [ARGC_MAX]
  have hin : ∀ p ∈ [empty], p = empty ∨ ptr ≤ p ∧ p < ptr + args :=
    fun p hp ↦ .inl (List.mem_singleton.mp hp)
  obtain ⟨n, b, hends, hlen, hin⟩ := arguments_bounded (a := ⟨[empty], 0⟩) m hstart hin
  have hreturns : Returns (arguments m empty ptr args) b.argv := hends.returns.map Arguments.argv
  refine ⟨b.argv, hreturns, hlen, hin, fun ls hptr hempty hlaid hargs hsize ↦ ?_⟩
  obtain ⟨n', b', argv', hends', hb', hholds⟩ := arguments_laid 0 [empty] hptr
    hlaid (hargs.trans (Nat.zero_add _).symm) hsize hstart
  have hreturns' : Returns (arguments m empty ptr args) b'.argv :=
    hends'.returns.map Arguments.argv
  rw [hreturns.unique hreturns', hb']
  exact .cons hempty hholds

end Arguments

section Traces

def Failed : Asked → Prop
  | ⟨.sceLdTlsRegisterModuleInfo, (ret : BitVec 32)⟩ => ret ≠ 0
  | ⟨.sceKernelLoadStartModule _ (some _), (ret : BitVec 32)⟩ =>
    ret.toInt < 0 ∧ ret ≠ ALREADY_LOADED
  | ⟨.sceKernelLoadStartModule _ none, (ret : BitVec 32)⟩ => ret.toInt < 0
  | _ => False

def Image.preparations (i : Image) : List Ask :=
  .cxaSetDsoHandleMain :: ((if i.tlsRegionInfo then [.sceLdTlsRegisterModuleInfo] else []) ++
    .sceKernelLoadStartModule DEFAULT_LIBC_POSIX_PATH (some i.flags) ::
      i.sceUserModuleList.map (.sceKernelLoadStartModule · none))

def Image.constructors (i : Image) : List Ask := (i.preinitArray ++ i.initArray).map .call

/-- All has been asked for in turn and `main` has returned, or the last answer was a failure and
came before all of `code`. -/
def Started (before code : List Ask) (argv : List ℕ) (tr : List Asked) (e : End) : Prop :=
  (∃ status, e = .exited status ∧ tr.map Sigma.fst = before ++ code ++ [.main argv] ∧
    ⟨.main argv, status⟩ ∈ tr ∧ ∀ x ∈ tr, ¬ Failed x) ∨
  ∃ message front x, e = .aborted message ∧ tr = front ++ [x] ∧ tr.map Sigma.fst <+: before ∧
    Failed x ∧ ∀ y ∈ front, ¬ Failed y

variable {i : Image} {argv : List ℕ} {tr : List Asked} {e : End} {before code : List Ask}
  {q : Ask} {x : q.Answer}

theorem Started.cons (h : Started before code argv tr e) (hx : ¬ Failed ⟨q, x⟩) :
    Started (q :: before) code argv (⟨q, x⟩ :: tr) e := by
  obtain ⟨status, rfl, htr, hmem, hfine⟩ | ⟨message, front, y, rfl, rfl, hpre, hy, hfine⟩ := h
  · refine .inl ⟨status, rfl, ?_, List.mem_cons_of_mem _ hmem, List.forall_mem_cons.mpr ⟨hx, hfine⟩⟩
    rw [List.map_cons, htr, List.cons_append, List.cons_append]
  · refine .inr ⟨message, ⟨q, x⟩ :: front, y, rfl, rfl, ?_, hy,
      List.forall_mem_cons.mpr ⟨hx, hfine⟩⟩
    exact (List.prefix_cons_inj q).mpr hpre

theorem started_of_failed {message : Option (String × BitVec 32 × List Char)}
    (hx : Failed ⟨q, x⟩) : Started (q :: before) code argv [⟨q, x⟩] (.aborted message) :=
  .inr ⟨message, [], ⟨q, x⟩, rfl, rfl, List.cons_prefix_cons.mpr ⟨rfl, List.nil_prefix⟩, hx,
    fun _ hy ↦ absurd hy List.not_mem_nil⟩

theorem callEach_path {fs : List ℕ} {u : Unit} (h : Program.Path (callEach fs) tr u) :
    tr.map Sigma.fst = fs.map .call ∧ ∀ x ∈ tr, ¬ Failed x := by
  obtain rfl : tr = fs.map fun f ↦ ⟨.call f, ()⟩ := Program.forEach_path (fun _ _ ↦ rfl) h
  refine ⟨List.map_map, fun x hx ↦ ?_⟩
  obtain ⟨f, -, rfl⟩ := List.mem_map.mp hx
  exact id

theorem loadModules_started {paths : List (List Char)} {rest : Startup End}
    (hrest : ∀ tr e, Program.Path rest tr e → Started [] code argv tr e)
    (h : Program.Path (loadModules paths rest) tr e) :
    Started (paths.map (.sceKernelLoadStartModule · none)) code argv tr e := by
  induction paths generalizing tr with
  | nil => exact hrest tr e h
  | cons path paths ih =>
    cases h with
    | ask _ _ ret h =>
      dsimp only at h
      split at h
      · next hret =>
        cases h
        exact started_of_failed hret
      · next hret => exact (ih h).cons hret

theorem code_started (h : Program.Path (do
      callEach i.preinitArray
      callEach i.initArray
      .ask (.main argv) fun (status : BitVec 32) ↦ pure (.exited status)) tr e) :
    Started [] i.constructors argv tr e := by
  obtain ⟨tr₁, _, tr', rfl, h₁, h⟩ := h.of_bind
  obtain ⟨tr₂, _, tr₃, rfl, h₂, h⟩ := h.of_bind
  obtain ⟨htr₁, hfine₁⟩ := callEach_path h₁
  obtain ⟨htr₂, hfine₂⟩ := callEach_path h₂
  cases h with
  | ask _ _ status h =>
    cases h
    refine .inl ⟨status, rfl, ?_, by simp, ?_⟩
    · simp [htr₁, htr₂, Image.constructors]
    · simp only [List.forall_mem_append, List.forall_mem_cons]
      exact ⟨hfine₁, hfine₂, id, fun _ hx ↦ absurd hx List.not_mem_nil⟩

theorem startMain_started (h : Program.Path (startMain i argv) tr e) :
    Started (.sceKernelLoadStartModule DEFAULT_LIBC_POSIX_PATH (some i.flags) ::
      i.sceUserModuleList.map (.sceKernelLoadStartModule · none)) i.constructors argv tr e := by
  cases h with
  | ask _ _ ret h =>
    dsimp only at h
    split at h
    · next hret =>
      cases h
      exact started_of_failed hret
    · next hret => exact (loadModules_started (fun _ _ ↦ code_started) h).cons hret

theorem initializeTls_started (h : Program.Path (initializeTls i (startMain i argv)) tr e) :
    Started i.preparations i.constructors argv tr e := by
  cases h with
  | ask _ _ _ h =>
    refine Started.cons ?_ id
    split at h
    · next htls =>
      rw [if_pos htls]
      cases h with
      | ask _ _ ret h =>
        dsimp only at h
        split at h
        · next hret =>
          cases h
          exact started_of_failed hret
        · next hret => exact (startMain_started h).cons hret
    · next htls =>
      rw [if_neg htls]
      exact startMain_started h

end Traces

/-- However a program is started, `argv` has room for the arguments, which are strings in the block,
or an empty one: the first ones of those that have been laid there. `main` is called once, with
them, after everything that it needs has been loaded and all constructors have been called in their
order, and its status is what the program exits with; or something has failed, and then none of the
code has been called. -/
theorem main_called (i : Image) (m : Memory) (empty ptr args : ℕ) :
    ∃ p argv, Returns (start i m empty ptr args) p ∧ argv.length ≤ ARGC_MAX ∧
      (∀ q ∈ argv, q = empty ∨ ptr ≤ q ∧ q < ptr + args) ∧
      (∀ ls, ptr ≠ 0 → Holds m.bytes empty [] → Laid m.bytes ptr ls → args = extent ls →
        args < 2 ^ 32 → List.Forall₂ (Holds m.bytes) argv ([] :: ls.take (ARGC_MAX - 1))) ∧
      ∀ tr e, Program.Path p tr e → Started i.preparations i.constructors argv tr e := by
  obtain ⟨argv, hreturns, hlen, hin, hlaid⟩ := arguments_returns m empty ptr args
  exact ⟨_, argv, hreturns.map fun argv ↦ initializeTls i (startMain i argv), hlen, hin, hlaid,
    fun _ _ ↦ initializeTls_started⟩

def twoArguments : Memory where
  bytes a := if a = 4 then 0x61 else if a = 6 then 0x62 else 0
  stored _ := false

theorem main_called_twoArguments (i : Image) :
    ∃ p argv, Returns (start i twoArguments 1 4 4) p ∧
      List.Forall₂ (Holds twoArguments.bytes) argv [[], [0x61], [0x62]] := by
  obtain ⟨p, argv, hreturns, -, -, hlaid, -⟩ := main_called i twoArguments 1 4 4
  refine ⟨p, argv, hreturns, hlaid [[0x61], [0x62]] (by decide) ⟨trivial, rfl⟩ ?_ rfl (by decide)⟩
  exact ⟨⟨⟨rfl, by decide, trivial⟩, rfl⟩, ⟨⟨rfl, by decide, trivial⟩, rfl⟩, trivial⟩

end SceLibcPosix.Crt
