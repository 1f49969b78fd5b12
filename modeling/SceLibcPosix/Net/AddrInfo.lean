import Mathlib.Data.List.Forall2
import SceLibcPosix.Lib.Heap
import SceLibcPosix.Lib.Loops
import SceLibcPosix.Net.Aton

namespace SceLibcPosix.Net

open Numerals Heaps Loops Function

def PF_UNSPEC : ℤ := 0

/-- This is `PF_INET`, too. -/
def AF_INET : ℤ := 2

def SOCK_STREAM : ℤ := 1

def SOCK_DGRAM : ℤ := 2

def IPPROTO_TCP : ℤ := 6

def IPPROTO_UDP : ℤ := 17

def AI_PASSIVE : ℕ := 1

def AI_CANONNAME : ℕ := 2

def AI_NUMERICHOST : ℕ := 4

inductive EaiError
  | EAI_FAMILY
  | EAI_SERVICE
  | EAI_MEMORY
  | EAI_NODATA
deriving DecidableEq, Repr

/-- `struct sockaddr_in`, with the port and the address in network order. -/
structure SockaddrIn where
  sinLen : ℕ := 0
  sinFamily : ℤ := 0
  sinPort : ℕ := 0
  sinAddr : InAddr := ⟨0, 0, 0, 0⟩
deriving DecidableEq, Repr

/-- `struct addrinfo`, and the socket address that `ai_addr` points to. The flags are those of
`ai_flags` as a word. -/
structure AddrInfo where
  aiFlags : ℕ := 0
  aiFamily : ℤ := 0
  aiSocktype : ℤ := 0
  aiProtocol : ℤ := 0
  aiAddrlen : ℕ := 0
  aiCanonname : Option Pointer := none
  aiAddr : SockaddrIn := {}
  aiNext : Option Pointer := none
deriving DecidableEq, Repr

structure Hostent where
  hName : Option (List Char)
  hAddrList : List InAddr
deriving DecidableEq, Repr

structure Servent where
  sPort : ℕ
deriving DecidableEq, Repr

/-- What `getaddrinfo` works on: the heap with the nodes and the strings in it, the number of
requests for memory, and the pointer at `res`. -/
structure Memory where
  heap : Heap := {}
  nodes : Pointer → AddrInfo := fun _ ↦ {}
  strings : Pointer → List Char := fun _ ↦ []
  asked : ℕ := 0
  res : Option Pointer := none

/-- `sceNetResolverCreate`, and `sceNetResolverStartNtoa` with the address that it stores. -/
structure Resolver where
  create : ℤ
  startNtoa : List Char → ℤ × InAddr

def MAX_NAME : ℕ := 512

def gethostbyname (r : Resolver) (name : List Char) : Option Hostent :=
  if r.create < 0 then none
  else if (r.startNtoa name).1 < 0 then none
  else some ⟨some (name.take (MAX_NAME - 1)), [(r.startNtoa name).2]⟩

def getservbyname (_name : List Char) (_proto : Option String) : Option Servent := none

def htons (x : ℤ) : ℕ := (x % 256).toNat * 256 + (x / 256 % 256).toNat

def ntohs (n : ℕ) : ℕ := n % 256 * 256 + n / 256 % 256

def atoi (s : List Char) : ℤ :=
  let t := s.dropWhile isspace
  let neg := t.head? = some '-'
  let t := if neg ∨ t.head? = some '+' then t.tail else t
  let v := value 10 (t.takeWhile (isDigit 10))
  if neg then max (-v) (-2 ^ 31) else min v (2 ^ 31 - 1)

structure Request where
  port : ℕ
  socktype : ℤ
  proto : ℤ
deriving DecidableEq, Repr

def hasFlag (hints : Option AddrInfo) (flag : ℕ) : Bool :=
  hints.any fun h ↦ h.aiFlags &&& flag ≠ 0

def socktypeOf (hints : Option AddrInfo) : ℤ :=
  (hints.bind fun h ↦ if h.aiSocktype ≠ 0 then some h.aiSocktype else none).getD SOCK_STREAM

def protoOf (hints : Option AddrInfo) : ℤ :=
  (hints.bind fun h ↦ if h.aiProtocol ≠ 0 then some h.aiProtocol else none).getD
    (if socktypeOf hints = SOCK_DGRAM then IPPROTO_UDP
    else if socktypeOf hints = SOCK_STREAM then IPPROTO_TCP else 0)

def peProto (socktype : ℤ) : Option String :=
  if socktype = SOCK_DGRAM then some "udp" else if socktype = SOCK_STREAM then some "tcp" else none

def portOf (service : Option (List Char)) (socktype : ℤ) : Option ℕ :=
  match service with
  | none => some 0
  | some s =>
    if s.head?.any Char.isDigit then some (htons (atoi s))
    else (getservbyname s (peProto socktype)).map Servent.sPort

/-- The first part of `getaddrinfo`, which reads `hints` and `service`. -/
def request (hints : Option AddrInfo) (service : Option (List Char)) : Except EaiError Request :=
  if hints.any fun h ↦ h.aiFamily ≠ AF_INET ∧ h.aiFamily ≠ PF_UNSPEC then .error .EAI_FAMILY
  else
    match portOf service (socktypeOf hints) with
    | none => .error .EAI_SERVICE
    | some port => .ok ⟨port, socktypeOf hints, protoOf hints⟩

def Request.node (rq : Request) (addr : InAddr) : AddrInfo where
  aiFamily := AF_INET
  aiSocktype := rq.socktype
  aiProtocol := rq.proto
  aiAddrlen := 16
  aiAddr := ⟨16, AF_INET, rq.port, addr⟩

/-- `malloc_ai`. The request for memory with the number `i` is granted if `grants i`. -/
def Memory.mallocAi (m : Memory) (grants : ℕ → Bool) (rq : Request) (addr : InAddr) :
    Option Pointer × Memory :=
  let p := (m.heap.malloc (grants m.asked)).1
  (p, { m with
    heap := (m.heap.malloc (grants m.asked)).2
    nodes := p.elim m.nodes fun p ↦ update m.nodes p (rq.node addr)
    asked := m.asked + 1 })

def Memory.strdup (m : Memory) (grants : ℕ → Bool) (s : List Char) : Option Pointer × Memory :=
  let p := (m.heap.malloc (grants m.asked)).1
  (p, { m with
    heap := (m.heap.malloc (grants m.asked)).2
    strings := p.elim m.strings fun p ↦ update m.strings p s
    asked := m.asked + 1 })

def freeTurn : Option Pointer × Memory → Turn (Option Pointer × Memory)
  | (none, m) => .stop (none, m)
  | (some p, m) =>
    .next ((m.nodes p).aiNext,
      { m with heap := (m.heap.free (m.nodes p).aiCanonname).free (some p) })

def freeaddrinfo (res : Option Pointer) (m : Memory) (n : ℕ) : Option Memory :=
  (run freeTurn n (res, m)).map Prod.snd

def Memory.answer (m : Memory) (grants : ℕ → Bool) (rq : Request) (addr : InAddr) :
    Option EaiError × Memory :=
  let (p, m) := m.mallocAi grants rq addr
  (if p.isSome then none else some .EAI_MEMORY, { m with res := p })

/-- The loop over the addresses of a host: whether it has come to their end. -/
def Memory.addNodes (grants : ℕ → Bool) (rq : Request) :
    List InAddr → Option Pointer → Memory → Bool × Memory
  | [], _, m => (true, m)
  | a :: as, prev, m =>
    match m.mallocAi grants rq a with
    | (none, m) => (false, m)
    | (some cur, m) =>
      addNodes grants rq as (some cur)
        (match prev with
        | some prev =>
          { m with nodes := update m.nodes prev { m.nodes prev with aiNext := some cur } }
        | none => { m with res := some cur })

/-- `if (*res) freeaddrinfo(*res); return EAI_MEMORY;` -/
def Memory.noMemory (m : Memory) (n : ℕ) : Option (Option EaiError × Memory) :=
  if m.res.isSome then (freeaddrinfo m.res m n).map (some .EAI_MEMORY, ·)
  else some (some .EAI_MEMORY, m)

def Memory.canonname (m : Memory) (grants : ℕ → Bool) (hints : Option AddrInfo) (name : List Char)
    (n : ℕ) : Option (Option EaiError × Memory) :=
  match hasFlag hints AI_CANONNAME, m.res with
  | true, some p =>
    let (s, m) := m.strdup grants name
    let m := { m with nodes := update m.nodes p { m.nodes p with aiCanonname := s } }
    if s.isSome then some (none, m) else (freeaddrinfo m.res m n).map (some .EAI_MEMORY, ·)
  | _, _ => some (none, m)

def Memory.answerHost (m : Memory) (grants : ℕ → Bool) (rq : Request) (hints : Option AddrInfo)
    (name : List Char) (addrs : List InAddr) (n : ℕ) : Option (Option EaiError × Memory) :=
  match m.addNodes grants rq addrs none with
  | (false, m) => m.noMemory n
  | (true, m) => m.canonname grants hints name n

/-- The name of a host that has one, and the addresses if there are any. -/
def Hostent.addresses (hp : Hostent) : Option (List Char × List InAddr) :=
  match hp.hName, hp.hAddrList with
  | some (c :: name), a :: as => some (c :: name, a :: as)
  | _, _ => none

/-- `getaddrinfo`: none on success, or the error. The variable `in` has no value before
`inet_aton`. -/
def getaddrinfo (grants : ℕ → Bool) (gethostbyname : List Char → Option Hostent)
    (node service : Option (List Char)) (hints : Option AddrInfo) (m : Memory) (n : ℕ) :
    Option (Option EaiError × Memory) :=
  match request hints service with
  | .error e => some (some e, m)
  | .ok rq =>
    match node with
    | none =>
      some (m.answer grants rq
        (networkOrder (if hasFlag hints AI_PASSIVE then 0x00000000 else 0x7f000001)))
    | some node =>
      if (inetAton node ⟨0, 0, 0, 0⟩).1 ≠ 0 then
        some (m.answer grants rq (inetAton node ⟨0, 0, 0, 0⟩).2)
      else if hasFlag hints AI_NUMERICHOST then some (some .EAI_NODATA, m)
      else
        match (gethostbyname node).bind Hostent.addresses with
        | none => some (some .EAI_NODATA, m)
        | some (name, addrs) => m.answerHost grants rq hints name addrs n

def Chain (nodes : Pointer → AddrInfo) : Option Pointer → List Pointer → Prop
  | r, [] => r = none
  | r, p :: ps => r = some p ∧ Chain nodes (nodes p).aiNext ps

/-- The blocks that these nodes consist of, in the order in which they are freed. -/
def blocks (nodes : Pointer → AddrInfo) (ps : List Pointer) : List Pointer :=
  ps.flatMap fun p ↦ (nodes p).aiCanonname.toList ++ [p]

def requestedPort (service : Option (List Char)) : ℕ :=
  (service.map fun s ↦ (atoi s % 2 ^ 16).toNat).getD 0

/-- A node for the address `addr`, as it is asked for. -/
structure AddrInfo.Answers (ai : AddrInfo) (service : Option (List Char))
    (hints : Option AddrInfo) (addr : InAddr) : Prop where
  family : ai.aiFamily = AF_INET ∧ ai.aiAddr.sinFamily = AF_INET
  addr : ai.aiAddr.sinAddr = addr
  port : ntohs ai.aiAddr.sinPort = requestedPort service
  socktype : ai.aiSocktype = socktypeOf hints
  proto : ai.aiProtocol = protoOf hints

/-- The host whose addresses are asked for, if it comes to that, and they are there. -/
def hostAsked (gethostbyname : List Char → Option Hostent) (node service : Option (List Char))
    (hints : Option AddrInfo) : Option (List Char × List InAddr) :=
  if (request hints service).toBool then
    node.bind fun node ↦
      if (inetAton node ⟨0, 0, 0, 0⟩).1 ≠ 0 ∨ hasFlag hints AI_NUMERICHOST then none
      else (gethostbyname node).bind Hostent.addresses
  else none

def addressesOf (gethostbyname : List Char → Option Hostent) (node : Option (List Char))
    (hints : Option AddrInfo) : List InAddr :=
  match node with
  | none => [networkOrder (if hasFlag hints AI_PASSIVE then 0x00000000 else 0x7f000001)]
  | some node =>
    if (inetAton node ⟨0, 0, 0, 0⟩).1 ≠ 0 then [(inetAton node ⟨0, 0, 0, 0⟩).2]
    else (gethostbyname node).elim [] Hostent.hAddrList

/-- The blocks that have been allocated since then have been freed, each of them once, and nothing
else has been freed. -/
def Memory.FreedOwn (m m' : Memory) : Prop :=
  ∃ fs, m'.heap.freed = fs ++ m.heap.freed ∧ fs.Nodup ∧
    ∀ p, p ∈ fs ↔ m'.heap.Allocated p ∧ ¬ m.heap.Allocated p

/-- The list at `res` has a new node for each of the addresses, and nothing has been freed. -/
def Memory.Answered (m m' : Memory) (service : Option (List Char)) (hints : Option AddrInfo)
    (addrs : List InAddr) : Prop :=
  m'.heap.freed = m.heap.freed ∧ ∃ ps, Chain m'.nodes m'.res ps ∧ ps.Nodup ∧
    (∀ p ∈ ps, m'.heap.Allocated p ∧ ¬ m.heap.Allocated p) ∧
    List.Forall₂ (fun p a ↦ (m'.nodes p).Answers service hints a) ps addrs

/-- What a call that began with `m` and ended with `m'` should have done. -/
structure Memory.Proper (m m' : Memory) (e : Option EaiError) (service : Option (List Char))
    (hints : Option AddrInfo) (addrs : List InAddr) : Prop where
  failure : e ≠ none → m.FreedOwn m'
  success : e = none → m.Answered m' service hints addrs

/-- The call ends with an answer, or an error after which the heap is as it should be, and the
result is the one that it has with a null pointer at `res`. -/
def FreesOwn (grants : ℕ → Bool) (gethostbyname : List Char → Option Hostent)
    (node service : Option (List Char)) (hints : Option AddrInfo) (m : Memory) : Prop :=
  ∃ e m', Returns (getaddrinfo grants gethostbyname node service hints m) (e, m') ∧
    m.Proper m' e service hints (addressesOf gethostbyname node hints) ∧
    ∃ m₀, Returns (getaddrinfo grants gethostbyname node service hints { m with res := none })
      (e, m₀) ∧ m₀.heap = m'.heap

inductive Way (grants : ℕ → Bool) (ghbn : List Char → Option Hostent)
    (node service : Option (List Char)) (hints : Option AddrInfo) (m : Memory) : Prop
  | early (e : EaiError) (hno : hostAsked ghbn node service hints = none)
    (h : ∀ q, getaddrinfo grants ghbn node service hints { m with res := q } =
      fun _ ↦ some (some e, { m with res := q }))
  | answered (e : Option EaiError) (m' : Memory)
    (hno : hostAsked ghbn node service hints = none ∨ grants m.asked = true)
    (hproper : m.Proper m' e service hints (addressesOf ghbn node hints))
    (h : ∀ q, Returns (getaddrinfo grants ghbn node service hints { m with res := q }) (e, m'))
  | refused (hhost : (hostAsked ghbn node service hints).isSome) (hg : grants m.asked = false)
    (h : ∀ q, getaddrinfo grants ghbn node service hints { m with res := q } =
      Memory.noMemory { m with asked := m.asked + 1, res := q })

section

variable {grants : ℕ → Bool} {ghbn : List Char → Option Hostent}
  {node service : Option (List Char)} {hints : Option AddrInfo} {m m' : Memory} {rq : Request}
  {nodes nodes' : Pointer → AddrInfo} {r : Option Pointer} {p q : Pointer} {ps : List Pointer}
  {addr : InAddr} {addrs : List InAddr} {n : ℕ}

theorem ntohs_htons (x : ℤ) : ntohs (htons x) = (x % 2 ^ 16).toNat := by
  have h := Int.emod_lt_of_pos x (by decide : (0 : ℤ) < 256)
  have h' := Int.emod_lt_of_pos (x / 256) (by decide : (0 : ℤ) < 256)
  have hx : x % 2 ^ 16 = 256 * (x / 256 % 256) + x % 256 := by omega
  have hlow : htons x % 256 = (x / 256 % 256).toNat := by unfold htons; omega
  have hhigh : htons x / 256 % 256 = (x % 256).toNat := by unfold htons; omega
  rw [ntohs, hlow, hhigh, hx]
  omega

def linked (nodes : Pointer → AddrInfo) (q p : Pointer) (ai : AddrInfo) : Pointer → AddrInfo :=
  update (update nodes p ai) q { update nodes p ai q with aiNext := some p }

def Memory.freeAll (m : Memory) (ps : List Pointer) : Memory :=
  { m with heap := { m.heap with freed := ps.reverse ++ m.heap.freed } }

def AddrInfo.bare (ai : AddrInfo) : AddrInfo := { ai with aiNext := none, aiCanonname := none }

/-- These nodes have been allocated for the addresses, and nothing else has happened to the heap. -/
structure Memory.Built (m m' : Memory) (rq : Request) (ps : List Pointer)
    (addrs : List InAddr) : Prop where
  freed : m'.heap.freed = m.heap.freed
  next : m.heap.next ≤ m'.heap.next
  mem : ∀ p, p ∈ ps ↔ m'.heap.Allocated p ∧ ¬ m.heap.Allocated p
  nodup : ps.Nodup
  chain : Chain m'.nodes m'.res ps
  unnamed : ∀ p ∈ ps, (m'.nodes p).aiCanonname = none
  bare : ps.map (fun p ↦ (m'.nodes p).bare) = addrs.map rq.node

theorem Chain.congr (h : Chain nodes r ps)
    (heq : ∀ p ∈ ps, (nodes' p).aiNext = (nodes p).aiNext) : Chain nodes' r ps := by
  induction ps generalizing r with
  | nil => exact h
  | cons p ps ih =>
    refine ⟨h.1, ?_⟩
    rw [heq p List.mem_cons_self]
    exact ih h.2 fun q hq ↦ heq q (List.mem_cons_of_mem _ hq)

theorem Chain.concat (h : Chain nodes r (ps ++ [q]))
    (hps : ∀ s ∈ ps, (nodes' s).aiNext = (nodes s).aiNext) (hnext : (nodes' q).aiNext = some p)
    (hlast : (nodes' p).aiNext = none) : Chain nodes' r (ps ++ [q] ++ [p]) := by
  induction ps generalizing r with
  | nil => exact ⟨h.1, hnext, hlast⟩
  | cons s ps ih =>
    refine ⟨h.1, ?_⟩
    rw [hps s List.mem_cons_self]
    exact ih h.2 fun t ht ↦ hps t (List.mem_cons_of_mem _ ht)

theorem Memory.freeAll_cons (m : Memory) (p : Pointer) (ps : List Pointer) :
    Memory.freeAll { m with heap := (m.heap.free (m.nodes p).aiCanonname).free (some p) }
      (blocks m.nodes ps) = m.freeAll (blocks m.nodes (p :: ps)) := by
  cases hname : (m.nodes p).aiCanonname <;> simp [Memory.freeAll, blocks, Heap.free, hname]

theorem Chain.freeaddrinfo (h : Chain m.nodes r ps) :
    Returns (freeaddrinfo r m) (m.freeAll (blocks m.nodes ps)) := by
  suffices hend : Loops.Ends freeTurn ps.length (r, m)
      (none, m.freeAll (blocks m.nodes ps)) from hend.returns.map Prod.snd
  induction ps generalizing r m with
  | nil =>
    cases (h : r = none)
    exact .stop rfl
  | cons p ps ih =>
    obtain ⟨rfl, h⟩ := h
    rw [← Memory.freeAll_cons]
    exact .next (b := ((m.nodes p).aiNext, _)) rfl (ih h)

theorem mallocAi_refused (hg : grants m.asked = false) :
    m.mallocAi grants rq addr = (none, { m with asked := m.asked + 1 }) := by
  simp [Memory.mallocAi, Heap.malloc, hg]

theorem mallocAi_granted (hg : grants m.asked = true) :
    m.mallocAi grants rq addr = (some (.block m.heap.next), { m with
      heap := { m.heap with next := m.heap.next + 1 }
      nodes := update m.nodes (.block m.heap.next) (rq.node addr)
      asked := m.asked + 1 }) := by
  simp [Memory.mallocAi, Heap.malloc, hg]

theorem Memory.Built.first (m : Memory) (rq : Request) (addr : InAddr) (k : ℕ) :
    m.Built { m with
      heap := { m.heap with next := m.heap.next + 1 }
      nodes := update m.nodes (.block m.heap.next) (rq.node addr)
      asked := k
      res := some (.block m.heap.next) } rq [.block m.heap.next] [addr] where
  freed := rfl
  next := Nat.le_succ _
  mem := by
    intro p
    rw [List.mem_singleton, Heap.allocated_succ, or_and_right, and_not_self_iff, false_or]
    refine ⟨fun hp ↦ ⟨hp, hp ▸ Heap.not_allocated_next⟩, And.left⟩
  nodup := List.nodup_singleton _
  chain := by simp [Chain, Request.node]
  unnamed := by simp [Request.node]
  bare := by simp [Request.node, AddrInfo.bare]

theorem linked_new (nodes : Pointer → AddrInfo) (ai : AddrInfo) (h : p ≠ q) :
    linked nodes q p ai p = ai := by
  rw [linked, update_of_ne h, update_self]

theorem linked_last (nodes : Pointer → AddrInfo) (ai : AddrInfo) (h : p ≠ q) :
    linked nodes q p ai q = { nodes q with aiNext := some p } := by
  rw [linked, update_self, update_of_ne h.symm]

theorem linked_old {s : Pointer} (nodes : Pointer → AddrInfo) (ai : AddrInfo) (hp : s ≠ p)
    (hq : s ≠ q) : linked nodes q p ai s = nodes s := by
  rw [linked, update_of_ne hq, update_of_ne hp]

theorem Memory.Built.step (h : m.Built m' rq (ps ++ [q]) addrs) (addr : InAddr) (k : ℕ) :
    m.Built { m' with
      heap := { m'.heap with next := m'.heap.next + 1 }
      nodes := linked m'.nodes q (.block m'.heap.next) (rq.node addr)
      asked := k } rq (ps ++ [q] ++ [.block m'.heap.next]) (addrs ++ [addr]) := by
  have hnew : .block m'.heap.next ∉ ps ++ [q] := fun hmem ↦
    Heap.not_allocated_next ((h.mem _).mp hmem).1
  have hlast := linked_last m'.nodes (rq.node addr) (fun heq ↦ hnew (by simp [heq]) :
    .block m'.heap.next ≠ q)
  have hnode := linked_new m'.nodes (rq.node addr) (fun heq ↦ hnew (by simp [heq]) :
    .block m'.heap.next ≠ q)
  have hold : ∀ s ∈ ps, linked m'.nodes q (.block m'.heap.next) (rq.node addr) s = m'.nodes s := by
    intro s hs
    apply linked_old
    · exact fun heq ↦ hnew (heq ▸ List.mem_append_left _ hs)
    · exact fun heq ↦ (List.nodup_append.mp h.nodup).2.2 s hs q (by simp) heq
  refine ⟨h.freed, Nat.le_succ_of_le h.next, fun s ↦ ?_, ?_, ?_, fun s hs ↦ ?_, ?_⟩
  · rw [List.mem_append, h.mem, List.mem_singleton, Heap.allocated_succ, or_and_right]
    refine or_congr Iff.rfl ⟨fun hs ↦ ⟨hs, fun hs' ↦ ?_⟩, And.left⟩
    obtain ⟨j, hj, heq⟩ := hs'
    cases hs.symm.trans heq
    exact absurd hj (Nat.not_lt.mpr h.next)
  · refine List.nodup_append.mpr ⟨h.nodup, List.nodup_singleton _, fun s hs t ht heq ↦ ?_⟩
    exact hnew (List.mem_singleton.mp ht ▸ heq ▸ hs)
  · refine h.chain.concat (fun s hs ↦ ?_) ?_ ?_
    · exact congrArg _ (hold s hs)
    · exact congrArg _ hlast
    · exact congrArg _ hnode
  · simp only [List.mem_append, List.mem_singleton] at hs
    rcases hs with (hs | rfl) | rfl
    · exact (congrArg _ (hold s hs)).trans (h.unnamed s (by simp [hs]))
    · exact (congrArg _ hlast).trans (h.unnamed s (by simp))
    · exact congrArg _ hnode
  · have hbare := h.bare
    rw [List.map_append, List.map_singleton] at hbare ⊢
    rw [List.map_append, List.map_append, ← hbare, List.map_singleton, List.map_singleton]
    refine congrArg₂ _ (congrArg₂ _ (List.map_congr_left fun s hs ↦ ?_) ?_) ?_
    · exact congrArg AddrInfo.bare (hold s hs)
    · exact (congrArg (fun ai ↦ [AddrInfo.bare ai]) hlast).trans rfl
    · exact congrArg (fun ai ↦ [AddrInfo.bare ai]) hnode

theorem Memory.Built.addNodes (ps : List Pointer) (grants : ℕ → Bool)
    (h : m.Built m' rq (ps ++ [q]) addrs) (rest : List InAddr) :
    ∃ ok m'' qs done, m'.addNodes grants rq rest (some q) = (ok, m'') ∧ qs ≠ [] ∧
      m.Built m'' rq qs done ∧ (ok = true → done = addrs ++ rest) := by
  induction rest generalizing m' ps q addrs with
  | nil => exact ⟨true, m', ps ++ [q], addrs, rfl, by simp, h, fun _ ↦ by simp⟩
  | cons a rest ih =>
    cases hg : grants m'.asked with
    | false =>
      refine ⟨false, { m' with asked := m'.asked + 1 }, ps ++ [q], addrs, ?_, by simp, ?_, nofun⟩
      · rw [Memory.addNodes, mallocAi_refused hg]
      · exact ⟨h.freed, h.next, h.mem, h.nodup, h.chain, h.unnamed, h.bare⟩
    | true =>
      obtain ⟨ok, m'', qs, done, heq, hqs, hbuilt, hdone⟩ :=
        ih (ps ++ [q]) (h.step a (m'.asked + 1))
      refine ⟨ok, m'', qs, done, ?_, hqs, hbuilt, fun hok ↦ ?_⟩
      · rw [Memory.addNodes, mallocAi_granted hg]
        exact heq
      · rw [hdone hok, List.append_assoc, List.singleton_append]

theorem request_eq_ok (h : request hints service = .ok rq) :
    ntohs rq.port = requestedPort service ∧ rq.socktype = socktypeOf hints ∧
      rq.proto = protoOf hints := by
  unfold request at h
  split at h
  · cases h
  · cases service with
    | none =>
      cases h
      exact ⟨by simp [ntohs, requestedPort], rfl, rfl⟩
    | some s =>
      by_cases hs : s.head?.any Char.isDigit
      · simp only [portOf, hs, if_true] at h
        cases h
        exact ⟨ntohs_htons _, rfl, rfl⟩
      · simp [portOf, hs, getservbyname] at h

theorem Memory.FreedOwn.refl (h : m'.heap = m.heap) : m.FreedOwn m' :=
  ⟨[], by rw [h, List.nil_append], List.nodup_nil, by simp [h]⟩

theorem Memory.Built.answered (h : m.Built m' rq ps addrs) (hrq : request hints service = .ok rq) :
    m.Answered m' service hints addrs := by
  obtain ⟨hport, hsock, hproto⟩ := request_eq_ok hrq
  refine ⟨h.freed, ps, h.chain, h.nodup, fun p hp ↦ (h.mem p).mp hp, ?_⟩
  have hbare := h.bare
  rw [← List.forall₂_eq_eq_eq, List.forall₂_map_left_iff, List.forall₂_map_right_iff] at hbare
  apply hbare.imp
  intro p a heq
  have haddr := congrArg AddrInfo.aiAddr heq
  refine ⟨⟨congrArg AddrInfo.aiFamily heq, congrArg SockaddrIn.sinFamily haddr⟩,
    congrArg SockaddrIn.sinAddr haddr, ?_, ?_, ?_⟩
  · exact (congrArg (fun x ↦ ntohs (SockaddrIn.sinPort x)) haddr).trans hport
  · exact (congrArg AddrInfo.aiSocktype heq).trans hsock
  · exact (congrArg AddrInfo.aiProtocol heq).trans hproto

theorem blocks_of_unnamed (h : ∀ p ∈ ps, (nodes p).aiCanonname = none) : blocks nodes ps = ps := by
  induction ps with
  | nil => rfl
  | cons p ps ih =>
    have hps := ih fun q hq ↦ h q (List.mem_cons_of_mem _ hq)
    unfold blocks at hps ⊢
    rw [List.flatMap_cons, hps, h p List.mem_cons_self]
    rfl

theorem Memory.Built.release (h : m.Built m' rq ps addrs) :
    Returns (freeaddrinfo m'.res m') (m'.freeAll ps) ∧ m.FreedOwn (m'.freeAll ps) := by
  have hret := h.chain.freeaddrinfo
  rw [blocks_of_unnamed h.unnamed] at hret
  refine ⟨hret, ps.reverse, ?_, List.nodup_reverse.mpr h.nodup, fun p ↦ ?_⟩
  · rw [← h.freed]
    rfl
  · rw [List.mem_reverse, h.mem]
    rfl

theorem Memory.Built.noMemory (h : m.Built m' rq ps addrs) (hps : ps ≠ []) :
    Returns m'.noMemory (some .EAI_MEMORY, m'.freeAll ps) := by
  obtain ⟨p, ps, rfl⟩ := List.exists_cons_of_ne_nil hps
  unfold Memory.noMemory
  simp only [h.chain.1, Option.isSome_some, if_true]
  exact h.chain.1 ▸ h.release.1.map _

theorem AddrInfo.Answers.named {ai : AddrInfo} (h : ai.Answers service hints addr) :
    ({ ai with aiCanonname := r } : AddrInfo).Answers service hints addr :=
  ⟨h.family, h.addr, h.port, h.socktype, h.proto⟩

theorem Memory.Answered.named (h : m.Answered m' service hints addrs) (p : Pointer) (k : ℕ)
    (strings : Pointer → List Char) :
    m.Answered { m' with
      heap := { m'.heap with next := m'.heap.next + 1 }
      nodes := update m'.nodes p { m'.nodes p with aiCanonname := r }
      strings := strings
      asked := k } service hints addrs := by
  obtain ⟨hfreed, ps, hchain, hnodup, hnew, hans⟩ := h
  refine ⟨hfreed, ps, hchain.congr fun q hq ↦ ?_, hnodup, fun q hq ↦ ?_, hans.imp fun q a h ↦ ?_⟩
  · by_cases hqp : q = p
    · subst hqp
      dsimp only
      rw [update_self]
    · exact congrArg _ (update_of_ne hqp _ _)
  · exact ⟨Heap.grows_succ.allocated (hnew q hq).1, (hnew q hq).2⟩
  · by_cases hqp : q = p
    · subst hqp
      dsimp only
      rw [update_self]
      exact h.named
    · dsimp only
      rwa [update_of_ne hqp]

theorem Memory.Built.canonname (h : m.Built m' rq ps addrs) (hrq : request hints service = .ok rq)
    (grants : ℕ → Bool) (name : List Char) :
    ∃ e m'', Returns (m'.canonname grants hints name) (e, m'') ∧
      m.Proper m'' e service hints addrs := by
  by_cases hname : hasFlag hints AI_CANONNAME = true ∧ ps ≠ []
  · obtain ⟨hflag, hps⟩ := hname
    obtain ⟨p, ps, rfl⟩ := List.exists_cons_of_ne_nil hps
    cases hg : grants m'.asked with
    | false =>
      -- The null pointer is stored where there has been one before.
      have hstored : update m'.nodes p { m'.nodes p with aiCanonname := none } = m'.nodes := by
        rw [update_eq_self_iff, ← h.unnamed p List.mem_cons_self]
      have hasked : m.Built { m' with asked := m'.asked + 1 } rq (p :: ps) addrs :=
        ⟨h.freed, h.next, h.mem, h.nodup, h.chain, h.unnamed, h.bare⟩
      obtain ⟨hret, hfreed⟩ := hasked.release
      refine ⟨some .EAI_MEMORY, _, ?_, fun _ ↦ hfreed, nofun⟩
      convert hret.map (some EaiError.EAI_MEMORY, ·) using 2 with n
      simp [Memory.canonname, hflag, h.chain.1, Memory.strdup, Heap.malloc, hg, hstored]
    | true =>
      have hans := (h.answered hrq).named (r := some (.block m'.heap.next)) p (m'.asked + 1)
        (update m'.strings (.block m'.heap.next) name)
      refine ⟨none, _, ?_, nofun, fun _ ↦ hans⟩
      convert Returns.pure _ using 2 with n
      simp [Memory.canonname, hflag, h.chain.1, Memory.strdup, Heap.malloc, hg]
  · refine ⟨none, m', ?_, nofun, fun _ ↦ h.answered hrq⟩
    convert Returns.pure _ using 2 with n
    unfold Memory.canonname
    split
    · next p hflag hres =>
      refine absurd ⟨hflag, fun hps ↦ ?_⟩ hname
      subst hps
      cases (h.chain : m'.res = none).symm.trans hres
    · rfl

/-- The addresses of a host are answered if there is memory for the first node. -/
theorem answerHost_proper (hg : grants m.asked = true) (hrq : request hints service = .ok rq)
    (name : List Char) (addr : InAddr) (addrs : List InAddr) :
    ∃ e m', m.Proper m' e service hints (addr :: addrs) ∧ ∀ q, Returns
      (Memory.answerHost { m with res := q } grants rq hints name (addr :: addrs)) (e, m') := by
  obtain ⟨ok, m', ps, done, heq, hps, hbuilt, hdone⟩ :=
    (Memory.Built.first m rq addr (m.asked + 1)).addNodes [] grants addrs
  have hfirst : ∀ q, Memory.addNodes grants rq (addr :: addrs) none { m with res := q } =
      (ok, m') := by
    intro q
    rw [Memory.addNodes, mallocAi_granted (m := { m with res := q }) hg]
    exact heq
  cases ok with
  | false =>
    refine ⟨some .EAI_MEMORY, _, ⟨fun _ ↦ hbuilt.release.2, nofun⟩, fun q ↦ ?_⟩
    have hrun : Memory.answerHost { m with res := q } grants rq hints name (addr :: addrs) =
        m'.noMemory := by
      funext n
      rw [Memory.answerHost, hfirst q]
    exact hrun ▸ hbuilt.noMemory hps
  | true =>
    obtain ⟨e, m'', hret, hproper⟩ := hbuilt.canonname hrq grants name
    rw [hdone rfl] at hproper
    refine ⟨e, m'', hproper, fun q ↦ ?_⟩
    have hrun : Memory.answerHost { m with res := q } grants rq hints name (addr :: addrs) =
        m'.canonname grants hints name := by
      funext n
      rw [Memory.answerHost, hfirst q]
    exact hrun ▸ hret

theorem answerHost_refused (hg : grants m.asked = false) (name : List Char) (addr : InAddr)
    (addrs : List InAddr) : m.answerHost grants rq hints name (addr :: addrs) =
      Memory.noMemory { m with asked := m.asked + 1 } := by
  funext n
  rw [Memory.answerHost, Memory.addNodes, mallocAi_refused hg]

theorem answer_proper (grants : ℕ → Bool) (m : Memory) (hrq : request hints service = .ok rq)
    (addr : InAddr) : ∃ e m', m.Proper m' e service hints [addr] ∧
      ∀ q, Memory.answer { m with res := q } grants rq addr = (e, m') := by
  cases hg : grants m.asked with
  | false =>
    refine ⟨some .EAI_MEMORY, { m with asked := m.asked + 1, res := none },
      ⟨fun _ ↦ .refl rfl, nofun⟩, fun q ↦ ?_⟩
    rw [Memory.answer, mallocAi_refused (m := { m with res := q }) hg]
    rfl
  | true =>
    refine ⟨none, _, ⟨nofun, fun _ ↦ (Memory.Built.first m rq addr (m.asked + 1)).answered hrq⟩,
      fun q ↦ ?_⟩
    rw [Memory.answer, mallocAi_granted (m := { m with res := q }) hg]
    rfl

theorem addresses_eq_some {hp : Hostent} {name : List Char}
    (h : hp.addresses = some (name, addrs)) :
    addrs = hp.hAddrList ∧ addrs ≠ [] := by
  unfold Hostent.addresses at h
  split at h
  · next heq =>
    cases h
    exact ⟨heq.symm, List.cons_ne_nil _ _⟩
  · cases h

theorem host_way (ghbn : List Char → Option Hostent) (m : Memory)
    (hrq : request hints service = .ok rq) {node : List Char}
    (haton : ¬ (inetAton node ⟨0, 0, 0, 0⟩).1 ≠ 0) (hflag : ¬ hasFlag hints AI_NUMERICHOST) :
    Way grants ghbn (some node) service hints m := by
  have hhost : hostAsked ghbn (some node) service hints =
      (ghbn node).bind Hostent.addresses := by
    simp [hostAsked, hrq, Except.toBool, not_not.mp haton, hflag]
  have hrun : ∀ q n, getaddrinfo grants ghbn (some node) service hints { m with res := q } n =
      ((ghbn node).bind Hostent.addresses).elim (some (some .EAI_NODATA, { m with res := q }))
        fun h ↦ Memory.answerHost { m with res := q } grants rq hints h.1 h.2 n := by
    intro q n
    simp only [getaddrinfo, hrq, if_neg haton, if_neg hflag]
    cases (ghbn node).bind Hostent.addresses <;> rfl
  cases hbind : (ghbn node).bind Hostent.addresses with
  | none =>
    refine .early .EAI_NODATA (hhost.trans hbind) fun q ↦ ?_
    funext n
    rw [hrun, hbind]
    rfl
  | some h =>
    obtain ⟨hp, hghbn, haddrs⟩ := Option.bind_eq_some_iff.mp hbind
    obtain ⟨heq, hne⟩ := addresses_eq_some haddrs
    obtain ⟨addr, addrs, hcons⟩ := List.exists_cons_of_ne_nil hne
    have hcall : ∀ q, getaddrinfo grants ghbn (some node) service hints { m with res := q } =
        Memory.answerHost { m with res := q } grants rq hints h.1 (addr :: addrs) := by
      intro q
      funext n
      rw [hrun, hbind, ← hcons]
      rfl
    cases hg : grants m.asked with
    | false =>
      refine .refused (by simp [hhost, hbind]) hg fun q ↦ ?_
      rw [hcall]
      exact answerHost_refused (m := { m with res := q }) hg h.1 addr addrs
    | true =>
      obtain ⟨e, m', hproper, h⟩ := answerHost_proper hg hrq h.1 addr addrs
      have haddr : addressesOf ghbn (some node) hints = addr :: addrs := by
        rw [← hcons, heq, addressesOf, hghbn]
        exact if_neg haton
      exact .answered e m' (.inr hg) (haddr ▸ hproper) fun q ↦ hcall q ▸ h q

theorem getaddrinfo_way (grants : ℕ → Bool) (ghbn : List Char → Option Hostent)
    (node service : Option (List Char)) (hints : Option AddrInfo) (m : Memory) :
    Way grants ghbn node service hints m := by
  cases hrq : request hints service with
  | error e =>
    refine .early e ?_ fun q ↦ ?_
    · simp [hostAsked, hrq, Except.toBool]
    · funext n
      rw [getaddrinfo, hrq]
  | ok rq =>
    cases node with
    | none =>
      obtain ⟨e, m', hproper, h⟩ := answer_proper grants m hrq
        (networkOrder (if hasFlag hints AI_PASSIVE then 0x00000000 else 0x7f000001))
      refine .answered e m' (.inl ?_) hproper fun q ↦ ?_
      · simp [hostAsked]
      · rw [← h q]
        convert Returns.pure _ using 2 with n
        simp only [getaddrinfo, hrq]
    | some node =>
      by_cases haton : (inetAton node ⟨0, 0, 0, 0⟩).1 ≠ 0
      · obtain ⟨e, m', hproper, h⟩ := answer_proper grants m hrq (inetAton node ⟨0, 0, 0, 0⟩).2
        have haddr : addressesOf ghbn (some node) hints = [(inetAton node ⟨0, 0, 0, 0⟩).2] :=
          if_pos haton
        refine .answered e m' (.inl ?_) (haddr ▸ hproper) fun q ↦ ?_
        · simp [hostAsked, haton]
        · rw [← h q]
          convert Returns.pure _ using 2 with n
          simp only [getaddrinfo, hrq, if_pos haton]
      · by_cases hflag : hasFlag hints AI_NUMERICHOST
        · refine .early .EAI_NODATA ?_ fun q ↦ ?_
          · simp [hostAsked, hflag]
          · funext n
            simp only [getaddrinfo, hrq, if_neg haton, if_pos hflag]
        · exact host_way ghbn m hrq haton hflag

theorem length_free (h : Heap) (r : Option Pointer) :
    h.freed.length ≤ (h.free r).freed.length := (Heap.grows_free r).freed.length_le

theorem freed_of_freeaddrinfo (h : freeaddrinfo (some p) m n = some m') :
    m'.heap.next = m.heap.next ∧ m.heap.freed.length < m'.heap.freed.length := by
  obtain ⟨⟨r, m''⟩, hrun, rfl⟩ := Option.map_eq_some_iff.mp h
  obtain ⟨k, hend⟩ := exists_ends_of_run hrun
  let Freed (s : Option Pointer × Memory) : Prop :=
    s.2.heap.next = m.heap.next ∧ m.heap.freed.length < s.2.heap.freed.length
  cases hend with
  | stop hturn => cases hturn
  | next hturn hend =>
    cases hturn
    refine hend.invariant (P := Freed) (Q := Freed) ⟨by simp, ?_⟩ ?_ ?_
    · have := length_free m.heap (m.nodes p).aiCanonname
      simp only [Heap.free_some, List.length_cons]
      omega
    · intro ⟨r, s⟩ b ⟨hnext, hlt⟩ hturn
      cases r with
      | none => cases hturn
      | some q =>
        cases hturn
        have := length_free s.heap (s.nodes q).aiCanonname
        refine ⟨by simpa using hnext, ?_⟩
        simp only [Heap.free_some, List.length_cons] at hlt ⊢
        omega
    · intro ⟨r, s⟩ b hs hturn
      cases r with
      | none =>
        cases hturn
        exact hs
      | some q => cases hturn

theorem not_proper_of_noMemory {e : Option EaiError} {m'' : Memory}
    (h : Returns m'.noMemory (e, m'')) (hres : m'.res = some p) (hheap : m'.heap = m.heap) :
    ¬ m.Proper m'' e service hints addrs := by
  intro hproper
  obtain ⟨N, hN⟩ := h
  have hN := hN N le_rfl
  rw [Memory.noMemory, hres, if_pos Option.isSome_some] at hN
  obtain ⟨m₁, hfree, heq⟩ := Option.map_eq_some_iff.mp hN
  cases heq
  obtain ⟨hnext, hlt⟩ := freed_of_freeaddrinfo hfree
  obtain ⟨fs, hfs, -, hmem⟩ := hproper.failure (Option.some_ne_none _)
  rw [hheap] at hnext hlt
  have hnil : fs = [] := by
    apply List.eq_nil_iff_forall_not_mem.mpr
    intro q hq
    obtain ⟨⟨j, hj, rfl⟩, hnew⟩ := (hmem q).mp hq
    exact hnew ⟨j, hnext ▸ hj, rfl⟩
  rw [hfs, hnil, List.nil_append] at hlt
  exact Nat.lt_irrefl _ hlt

theorem not_freesOwn (hhost : (hostAsked ghbn node service hints).isSome)
    (hg : grants m.asked = false) (hres : m.res = some p) :
    ¬ FreesOwn grants ghbn node service hints m := by
  intro ⟨e, m', hret, hproper, _⟩
  cases getaddrinfo_way grants ghbn node service hints m with
  | early e hno =>
    rw [hno] at hhost
    cases hhost
  | answered e m' hno =>
    rcases hno with hno | hno
    · rw [hno] at hhost
      cases hhost
    · rw [hno] at hg
      cases hg
  | refused _ _ h =>
    have hcall : getaddrinfo grants ghbn node service hints m =
        Memory.noMemory { m with asked := m.asked + 1 } := h m.res
    rw [hcall] at hret
    exact absurd hproper (not_proper_of_noMemory hret hres rfl)

/-- `getaddrinfo` frees what it has allocated and nothing else, except where there is no memory for
the first address of a host: then it frees what has been at `res`, too. -/
theorem freesOwn_iff (grants : ℕ → Bool) (gethostbyname : List Char → Option Hostent)
    (node service : Option (List Char)) (hints : Option AddrInfo) (m : Memory) :
    FreesOwn grants gethostbyname node service hints m ↔
      ¬ ((hostAsked gethostbyname node service hints).isSome ∧ grants m.asked = false ∧
        m.res ≠ none) := by
  constructor
  · intro h ⟨hhost, hg, hres⟩
    obtain ⟨p, hp⟩ := Option.ne_none_iff_exists'.mp hres
    exact not_freesOwn hhost hg hp h
  · intro hcond
    cases getaddrinfo_way grants gethostbyname node service hints m with
    | early e hno h =>
      refine ⟨some e, m, ?_, ⟨fun _ ↦ .refl rfl, nofun⟩, { m with res := none }, ?_, rfl⟩
      · exact h m.res ▸ .pure _
      · exact h none ▸ .pure _
    | answered e m' hno hproper h => exact ⟨e, m', h m.res, hproper, m', h none, rfl⟩
    | refused hhost hg h =>
      have hres : m.res = none := not_not.mp fun hres ↦ hcond ⟨hhost, hg, hres⟩
      have hrun : ∀ q : Option Pointer, q = none → Returns
          (getaddrinfo grants gethostbyname node service hints { m with res := q })
          (some .EAI_MEMORY, { m with asked := m.asked + 1, res := none }) := by
        intro q hq
        rw [h q, hq]
        exact .pure _
      exact ⟨some .EAI_MEMORY, _, hrun m.res hres, ⟨fun _ ↦ .refl rfl, nofun⟩, _, hrun none rfl,
        rfl⟩

/-- The pointer at `res` is freed as the caller has left it. -/
theorem freesOwn_uninitialized : ¬ FreesOwn (fun _ ↦ false)
    (gethostbyname ⟨1, fun _ ↦ (0, ⟨10, 0, 0, 1⟩)⟩) (some ['v', 'i', 't', 'a']) none none
    { res := some (.foreign 7) } :=
  not_freesOwn (by decide) rfl rfl

end

end SceLibcPosix.Net
