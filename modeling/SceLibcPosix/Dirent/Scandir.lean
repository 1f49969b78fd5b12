import Mathlib.Data.Nat.Size
import SceLibcPosix.Dirent.Position

namespace SceLibcPosix.Dirents

open Errno VitaError Programs Descriptor Heaps

/-- What `readdir` returns until it returns a null pointer, and the error number that it sets
then. -/
inductive Lists {σ : Type} (net : NetErrno → ℤ) (K : Oracle σ) :
    Listing σ → List Dirent → Option ℤ → Prop
  | finish {st st' : Listing σ} {out : Outcome}
    (h : st.run net K (readdir net) = some (out, st')) (hret : out.ret = 0) :
    Lists net K st [] out.errno
  | entry {st st' : Listing σ} {out : Outcome} {ds : List Dirent} {e : Option ℤ}
    (h : st.run net K (readdir net) = some (out, st')) (hret : out.ret ≠ 0)
    (hrest : Lists net K st' ds e) : Lists net K st (st'.dir.dir :: ds) e

/-- What `readdir` returns for these entries, one after the other, if its stream has the array `b`
in its entry. -/
def delivered : List UInt8 → List SceFiosDirEntry → List Dirent
  | _, [] => []
  | b, e :: es =>
    let b := strncpy b (e.fullPath.drop e.offsetToName) e.nameLength
    ⟨0, b⟩ :: delivered b es

/-- The entries that the selector accepts. -/
def accepted (sel : Option (Dirent → Bool)) (ds : List Dirent) : List Dirent :=
  ds.filter fun de ↦ sel.all fun sel ↦ sel de

/-- The requests for memory from `n` on that come before `m` are granted. -/
def Granted (grants : ℕ → Bool) (n m : ℕ) : Prop := ∀ j, n ≤ j → j < m → grants j = true

/-- The number of requests of `scandir` for `n` records: that of `opendir`, one for each record,
and one each time that the array of pointers is full. -/
def requests (n : ℕ) : ℕ := 1 + n + n.size

def Scan.own (s : Scan) : List Pointer := s.names.toList ++ s.records.map Prod.fst

/-- The heap has these blocks beside those of `h`. -/
structure Scan.Holds (h : Heap) (s : Scan) : Prop where
  sound : s.heap.Sound
  live : ∀ p, s.heap.Live p ↔ h.Live p ∨ p ∈ s.own
  fresh : ∀ p ∈ s.own, ¬ h.Live p
  nodup : s.own.Nodup
  empty : s.names = none → s.records = []

/-- The variables `len` and `cnt`, and the number of requests. -/
structure Scan.Counted (s : Scan) : Prop where
  len : s.len = 2 ^ s.records.length.size - 1
  asked : s.asked = requests s.records.length
  short : s.records.length < 2 ^ 30

inductive ReserveOutcome (grants : ℕ → Bool) (s : Scan) : Except Stop Scan → Prop
  | kept (h : s.records.length < s.len) : ReserveOutcome grants s (.ok s)
  | tooLong (h : s.len ≤ s.records.length) (hlen : SIZE_MAX / 4 < 2 * s.len + 1) :
    ReserveOutcome grants s (.error .tooLong)
  | refused (h : s.len ≤ s.records.length) (hg : grants s.asked = false) :
    ReserveOutcome grants s (.error .noMemory)
  | grown (h : s.len ≤ s.records.length) (hlen : 2 * s.len + 1 ≤ SIZE_MAX / 4)
    (hg : grants s.asked = true) :
    ReserveOutcome grants s (.ok { s with
      names := some (.block s.heap.next)
      len := 2 * s.len + 1
      heap := ({ s.heap with next := s.heap.next + 1 } : Heap).free s.names
      asked := s.asked + 1 })

section

variable {σ : Type} {net : NetErrno → ℤ} {K : Oracle σ} {grants : ℕ → Bool} {h : Heap} {s s' : Scan}
  {sel : Option (Dirent → Bool)} {de : Dirent} {st st' : Listing σ} {ds : List Dirent}
  {e : Option ℤ} {n m : ℕ} {out : Outcome}

theorem Listing.At.lists (net : NetErrno → ℤ) {entries : List SceFiosDirEntry}
    {pos : σ → ℤ → Option ℕ} {dirPath : ℤ} {slot : Slot} {i : Entry}
    (hK : Directory entries K pos dirPath) (hfits : Fitting K pos)
    (h : st.At entries pos slot i n) :
    Lists net K st (delivered st.dir.dir.dName (entries.drop n)) none := by
  induction hm : entries.length - n generalizing st n with
  | zero =>
    have he : entries[n]? = none := List.getElem?_eq_none (by omega)
    obtain ⟨e, k, hrun, -⟩ := h.read_end net hK (h.fits hfits) he
    rw [List.drop_eq_nil_of_le (by omega)]
    exact .finish hrun rfl
  | succ m ih =>
    have hlt : n < entries.length := by omega
    obtain ⟨k, hrun, hnext⟩ := h.read_next net hK (h.fits hfits)
      (List.getElem?_eq_getElem hlt)
    rw [List.drop_eq_getElem_cons hlt]
    exact .entry hrun (by decide) (ih hnext (by omega))

theorem Lists.unique {ds' : List Dirent} {e' : Option ℤ} (h : Lists net K st ds e)
    (h' : Lists net K st ds' e') : ds' = ds ∧ e' = e := by
  induction h generalizing ds' e' with
  | finish hrun hret =>
    cases h' with
    | finish hrun' =>
      cases hrun.symm.trans hrun'
      exact ⟨rfl, rfl⟩
    | entry hrun' hret' =>
      cases hrun.symm.trans hrun'
      exact absurd hret hret'
  | entry hrun hret _ ih =>
    cases h' with
    | finish hrun' hret' =>
      cases hrun.symm.trans hrun'
      exact absurd hret' hret
    | entry hrun' _ hrest =>
      cases hrun.symm.trans hrun'
      obtain ⟨rfl, rfl⟩ := ih hrest
      exact ⟨rfl, rfl⟩

theorem size_succ_of_lt (h : n < 2 ^ n.size - 1) : (n + 1).size = n.size :=
  Nat.le_antisymm (Nat.size_le.mpr (by omega)) (Nat.size_le_size (Nat.le_succ n))

theorem size_succ_of_le (h : 2 ^ n.size - 1 ≤ n) : (n + 1).size = n.size + 1 := by
  have hlt := Nat.lt_size_self n
  have heq : n + 1 = 2 ^ n.size := by omega
  rw [heq, Nat.size_pow]

theorem requests_lt (h : n < m) : requests n < requests m := by
  have := Nat.size_le_size (Nat.le_of_lt h)
  unfold requests
  omega

theorem Scan.reserve_outcome (grants : ℕ → Bool) (s : Scan) :
    ReserveOutcome grants s (s.reserve grants) := by
  unfold Scan.reserve
  split
  · next h =>
    dsimp only
    split
    · next hlen => exact .tooLong h hlen
    · next hlen =>
      cases hg : grants s.asked with
      | false => exact .refused h hg
      | true => exact .grown h (Nat.le_of_not_lt hlen) hg
  · next h => exact .kept (Nat.lt_of_not_le h)

theorem Scan.Holds.reserve (hs : s.Holds h) {s' : Scan} (heq : s.reserve grants = .ok s') :
    s'.Holds h := by
  have hout := s.reserve_outcome grants
  rw [heq] at hout
  cases hout with
  | kept => exact hs
  | grown hfull hlen hg =>
    have hnew : ¬ s.heap.Live (.block s.heap.next) := fun hlive ↦ Heap.not_allocated_next hlive.1
    have hown : ∀ p, s.names = some p → p ∈ s.own := fun p hp ↦ by simp [Scan.own, hp]
    have hrec : ∀ p ∈ s.records.map Prod.fst, p ∈ s.own := fun p hp ↦ List.mem_append_right _ hp
    have hne : ∀ p ∈ s.records.map Prod.fst, s.names ≠ some p := fun p hp hnames ↦
      (List.nodup_append.mp hs.nodup).2.2 p (by simp [hnames]) p hp rfl
    refine ⟨?_, fun p ↦ ?_, fun p hp ↦ ?_, ?_, nofun⟩
    · cases hnames : s.names with
      | none => exact hs.sound.succ
      | some p =>
        have hlive := (hs.live p).mpr (.inr (hown p hnames))
        exact hs.sound.succ.free (hs.sound.live_succ.mpr (.inl hlive))
    · rw [Heap.live_free_option, hs.sound.live_succ, hs.live]
      constructor
      · rintro ⟨(hp | hp) | rfl, hnames⟩
        · exact .inl hp
        · rcases List.mem_append.mp hp with hp | hp
          · exact absurd (Option.mem_toList.mp hp) hnames
          · exact .inr (List.mem_cons_of_mem _ hp)
        · exact .inr List.mem_cons_self
      · rintro (hp | hp)
        · exact ⟨.inl (.inl hp), fun hnames ↦ hs.fresh p (hown p hnames) hp⟩
        · rcases List.mem_cons.mp hp with rfl | hp
          · exact ⟨.inr rfl, fun hnames ↦ hnew ((hs.live _).mpr (.inr (hown _ hnames)))⟩
          · exact ⟨.inl (.inr (hrec p hp)), hne p hp⟩
    · rcases List.mem_cons.mp hp with rfl | hp
      · exact fun hlive ↦ hnew ((hs.live _).mpr (.inl hlive))
      · exact hs.fresh p (hrec p hp)
    · refine List.nodup_cons.mpr ⟨fun hmem ↦ ?_, (List.nodup_append.mp hs.nodup).2.1⟩
      exact hnew ((hs.live _).mpr (.inr (hrec _ hmem)))

theorem Scan.record_ok {s' : Scan} (heq : s.record grants de = .ok s') :
    grants s.asked = true ∧ s' = { s with
      records := s.records ++ [(.block s.heap.next, de)]
      heap := { s.heap with next := s.heap.next + 1 }
      asked := s.asked + 1 } := by
  unfold Scan.record at heq
  cases hg : grants s.asked with
  | false => simp [Heap.malloc, hg] at heq
  | true => simpa [Heap.malloc, hg, eq_comm] using heq

theorem Scan.Holds.record (hs : s.Holds h) {s' : Scan} (hnames : s.names ≠ none)
    (heq : s.record grants de = .ok s') : s'.Holds h := by
  obtain ⟨-, rfl⟩ := Scan.record_ok heq
  have hnew : ¬ s.heap.Live (.block s.heap.next) := fun hlive ↦ Heap.not_allocated_next hlive.1
  have hown : ∀ p, p ∈ s.names.toList ++
      (s.records ++ [(Pointer.block s.heap.next, de)]).map Prod.fst ↔
        p ∈ s.own ∨ p = .block s.heap.next := by
    intro p
    simp [Scan.own, or_assoc]
  refine ⟨hs.sound.succ, fun p ↦ ?_, fun p hp ↦ ?_, ?_, fun h ↦ absurd h hnames⟩
  · rw [hs.sound.live_succ, hs.live, or_assoc]
    exact or_congr_right (hown p).symm
  · rcases (hown p).mp hp with hp | rfl
    · exact hs.fresh p hp
    · exact fun hlive ↦ hnew ((hs.live _).mpr (.inl hlive))
  · rw [Scan.own, List.map_append, ← List.append_assoc]
    refine List.nodup_append.mpr ⟨hs.nodup, List.nodup_singleton _, fun p hp q hq hpq ↦ ?_⟩
    rw [List.map_singleton, List.mem_singleton] at hq
    rw [hpq, hq] at hp
    exact hnew ((hs.live _).mpr (.inr hp))

/-- Where the loop has stopped, and with which records, if `ds` are the entries that it still would
accept. -/
inductive Stopped (grants : ℕ → Bool) (s : Scan) (ds : List Dirent) (e : Option ℤ) :
    Stop → Scan → Prop
  | finished (s' : Scan) (he : e = none) (hshort : s.records.length + ds.length < 2 ^ 30)
    (hg : Granted grants s.asked (requests (s.records.length + ds.length)))
    (hrec : s'.records.map Prod.snd = s.records.map Prod.snd ++ ds) :
    Stopped grants s ds e .finished s'
  | readdir (s' : Scan) (errno : ℤ) (he : e = some errno) :
    Stopped grants s ds e (.readdir errno) s'
  | tooLong (s' : Scan) (hlong : 2 ^ 30 ≤ s.records.length + ds.length)
    (hrec : s'.records.length < s.records.length + ds.length) :
    Stopped grants s ds e .tooLong s'
  | noMemory (s' : Scan)
    (hg : ¬ Granted grants s.asked (requests (s.records.length + ds.length))) :
    Stopped grants s ds e .noMemory s'

theorem requests_le (h : n ≤ m) : requests n ≤ requests m := by
  rcases Nat.eq_or_lt_of_le h with rfl | h
  · exact le_rfl
  · exact Nat.le_of_lt (requests_lt h)

theorem Granted.mono {n' m' : ℕ} (h : Granted grants n m) (hn : n ≤ n') (hm : m' ≤ m) :
    Granted grants n' m' := fun j hj hlt ↦ h j (hn.trans hj) (hlt.trans_le hm)

theorem Granted.trans {l : ℕ} (hn : Granted grants n m) (hm : Granted grants m l) :
    Granted grants n l := by
  intro j hj hlt
  rcases Nat.lt_or_ge j m with hjm | hjm
  · exact hn j hj hjm
  · exact hm j hjm hlt

/-- What has been found where there is room for one more pointer. -/
structure Scan.Roomy (grants : ℕ → Bool) (s s' : Scan) : Prop where
  records : s'.records = s.records
  names : s'.names ≠ none
  len : s'.len = 2 ^ (s.records.length + 1).size - 1
  asked : s'.asked + 1 = requests (s.records.length + 1)
  granted : Granted grants s.asked s'.asked
  short : s.records.length + 1 < 2 ^ 30

theorem sizeMax_quarter : SIZE_MAX / 4 = 2 ^ 30 - 1 := by decide

theorem Scan.Counted.reserve_ok (hs : s.Counted) (hh : s.Holds h) {s' : Scan}
    (heq : s.reserve grants = .ok s') : s.Roomy grants s' := by
  have hlen := hs.len
  have hasked := hs.asked
  have hout := s.reserve_outcome grants
  rw [heq] at hout
  unfold requests at hasked
  cases hout with
  | kept hroom =>
    have hsize := size_succ_of_lt (hlen ▸ hroom)
    refine ⟨rfl, fun hnames ↦ ?_, ?_, ?_, fun j hj hlt ↦ absurd hlt (not_lt.mpr hj), ?_⟩
    · rw [hh.empty hnames] at hroom hlen
      simp at hroom hlen
      omega
    · rw [hsize]
      exact hlen
    · rw [requests, hsize]
      omega
    · have hpow := Nat.pow_le_pow_right (n := 2) (by decide) (Nat.size_le.mpr hs.short)
      omega
  | grown hfull hfits hg =>
    have hpow := Nat.one_le_two_pow (n := s.records.length.size)
    have hlt := Nat.lt_size_self s.records.length
    have hsize := size_succ_of_le (hlen ▸ hfull)
    rw [sizeMax_quarter] at hfits
    refine ⟨rfl, nofun, ?_, ?_, fun j hj hj' ↦ ?_, ?_⟩
    · rw [hsize, Nat.pow_succ]
      dsimp only
      omega
    · rw [requests, hsize]
      dsimp only
      omega
    · dsimp only at hj'
      obtain rfl : j = s.asked := by omega
      exact hg
    · omega

theorem Scan.Counted.reserve_error (hs : s.Counted) {stop : Stop}
    (heq : s.reserve grants = .error stop) :
    stop = .tooLong ∧ 2 ^ 30 ≤ s.records.length + 1 ∨
      stop = .noMemory ∧ ¬ Granted grants s.asked (requests (s.records.length + 1)) := by
  have hout := s.reserve_outcome grants
  rw [heq] at hout
  cases hout with
  | tooLong hfull hlong =>
    refine .inl ⟨rfl, ?_⟩
    have hlt := Nat.lt_size_self s.records.length
    have hlen := hs.len
    rw [sizeMax_quarter] at hlong
    have hsize : 30 ≤ s.records.length.size := by
      by_contra hsize
      have hpow := Nat.pow_le_pow_right (n := 2) (by decide)
        (Nat.le_of_lt_succ (Nat.lt_of_not_le hsize))
      omega
    have hpow := Nat.pow_le_pow_right (n := 2) (by decide) hsize
    omega
  | refused hfull hg =>
    refine .inr ⟨rfl, fun hall ↦ ?_⟩
    have hlt := requests_lt (Nat.lt_succ_self s.records.length)
    rw [← hs.asked] at hlt
    rw [hall _ le_rfl hlt] at hg
    cases hg

theorem Scan.Roomy.record (hr : s.Roomy grants s') {s'' : Scan}
    (heq : s'.record grants de = .ok s'') : s''.Counted ∧
      s''.records.map Prod.snd = s.records.map Prod.snd ++ [de] ∧
      s''.records.length = s.records.length + 1 ∧ Granted grants s.asked s''.asked := by
  obtain ⟨hg, rfl⟩ := Scan.record_ok heq
  have hlength : (s'.records ++ [(Pointer.block s'.heap.next, de)]).length =
      s.records.length + 1 := by
    simp [hr.records]
  refine ⟨⟨?_, ?_, ?_⟩, by simp [hr.records], hlength, hr.granted.trans fun j hj hlt ↦ ?_⟩
  · rw [hlength]
    exact hr.len
  · rw [hlength]
    exact hr.asked
  · rw [hlength]
    exact hr.short
  · obtain rfl : j = s'.asked := by
      dsimp only at hlt
      omega
    exact hg

theorem Scan.Roomy.record_error (hr : s.Roomy grants s') (hs : s.Counted) {stop : Stop}
    (heq : s'.record grants de = .error stop) :
    stop = .noMemory ∧ ¬ Granted grants s.asked (requests (s.records.length + 1)) := by
  unfold Scan.record at heq
  cases hg : grants s'.asked with
  | true => simp [Heap.malloc, hg] at heq
  | false =>
    refine ⟨by simpa [Heap.malloc, hg, eq_comm] using heq, fun hall ↦ ?_⟩
    have hlt : requests s.records.length < requests (s.records.length + 1) :=
      requests_lt (Nat.lt_succ_self _)
    have hasked := hs.asked
    have hasked' := hr.asked
    rw [hall s'.asked (by omega) (by omega)] at hg
    cases hg

theorem scanLoop_end (hrun : st.run net K (readdir net) = some (out, st')) (hret : out.ret = 0)
    (fuel : ℕ) (s : Scan) : scanLoop net K sel grants (fuel + 1) st s =
      some (out.errno.elim .finished .readdir, st', s) := by
  simp [scanLoop, hrun, hret]

theorem scanLoop_skip (hrun : st.run net K (readdir net) = some (out, st')) (hret : out.ret ≠ 0)
    (hsel : (sel.all fun sel ↦ sel st'.dir.dir) = false) (fuel : ℕ) (s : Scan) :
    scanLoop net K sel grants (fuel + 1) st s = scanLoop net K sel grants fuel st' s := by
  have hskip : (sel.any fun sel ↦ !sel st'.dir.dir) = true := by
    cases sel with
    | none => cases hsel
    | some sel => simpa using hsel
  simp [scanLoop, hrun, hret, hskip]

theorem any_not_selected (hsel : (sel.all fun sel ↦ sel de) = true) :
    (sel.any fun sel ↦ !sel de) = false := by
  cases sel with
  | none => rfl
  | some sel => simpa using hsel

theorem scanLoop_full (hrun : st.run net K (readdir net) = some (out, st')) (hret : out.ret ≠ 0)
    (hsel : (sel.all fun sel ↦ sel st'.dir.dir) = true) (fuel : ℕ) {stop : Stop}
    (hroom : s.reserve grants = .error stop) :
    scanLoop net K sel grants (fuel + 1) st s = some (stop, st', s) := by
  simp [scanLoop, hrun, hret, any_not_selected hsel, hroom]

theorem scanLoop_refused (hrun : st.run net K (readdir net) = some (out, st'))
    (hret : out.ret ≠ 0) (hsel : (sel.all fun sel ↦ sel st'.dir.dir) = true) (fuel : ℕ)
    (hroom : s.reserve grants = .ok s') {stop : Stop}
    (hrec : s'.record grants st'.dir.dir = .error stop) :
    scanLoop net K sel grants (fuel + 1) st s = some (stop, st', s') := by
  simp [scanLoop, hrun, hret, any_not_selected hsel, hroom, hrec]

theorem scanLoop_add (hrun : st.run net K (readdir net) = some (out, st')) (hret : out.ret ≠ 0)
    (hsel : (sel.all fun sel ↦ sel st'.dir.dir) = true) (fuel : ℕ)
    (hroom : s.reserve grants = .ok s') {s'' : Scan}
    (hrec : s'.record grants st'.dir.dir = .ok s'') :
    scanLoop net K sel grants (fuel + 1) st s = scanLoop net K sel grants fuel st' s'' := by
  simp [scanLoop, hrun, hret, any_not_selected hsel, hroom, hrec]

theorem Stopped.add {stop : Stop} {s'' : Scan} (hs : s.Counted) (hs' : s'.Counted)
    (hrec : s'.records.map Prod.snd = s.records.map Prod.snd ++ [de])
    (hg : Granted grants s.asked s'.asked) (h : Stopped grants s' ds e stop s'') :
    Stopped grants s (de :: ds) e stop s'' := by
  have hlength : s'.records.length = s.records.length + 1 := by
    simpa using congrArg List.length hrec
  have htotal : s.records.length + (de :: ds).length = s'.records.length + ds.length := by
    rw [List.length_cons]
    omega
  have hle : s.asked ≤ s'.asked := by
    rw [hs.asked, hs'.asked]
    exact requests_le (by omega)
  cases h with
  | finished _ he hshort hg' hrec' =>
    refine .finished s'' he (htotal ▸ hshort) (htotal ▸ hg.trans hg') ?_
    rw [hrec', hrec, List.append_assoc]
    rfl
  | readdir _ errno he => exact .readdir s'' errno he
  | tooLong _ hlong hrec' => exact .tooLong s'' (htotal ▸ hlong) (htotal ▸ hrec')
  | noMemory _ hg' => exact .noMemory s'' fun hall ↦ hg' ((htotal ▸ hall).mono hle le_rfl)

theorem scanLoop_outcome (sel : Option (Dirent → Bool)) {slot : Slot} {i : Entry}
    (hlist : Lists net K st ds e) (hopen : st.Opened slot i) (hs : s.Counted) (hh : s.Holds h)
    {fuel : ℕ} (hfuel : ds.length < fuel) :
    ∃ stop st' s', scanLoop net K sel grants fuel st s = some (stop, st', s') ∧ s'.Holds h ∧
      st'.table = st.table ∧ st'.dir.fd = st.dir.fd ∧
        Stopped grants s (accepted sel ds) e stop s' := by
  induction hlist generalizing s fuel with
  | @finish st st' out hrun hret =>
    obtain ⟨fuel, rfl⟩ := Nat.exists_eq_succ_of_ne_zero (Nat.ne_of_gt hfuel)
    obtain ⟨htable, hfd⟩ := hopen.read hrun
    refine ⟨_, st', s, scanLoop_end hrun hret fuel s, hh, htable, hfd, ?_⟩
    cases he : out.errno with
    | none =>
      refine .finished s rfl hs.short (fun j hj hlt ↦ ?_) (List.append_nil _).symm
      rw [hs.asked] at hj
      exact absurd hlt (not_lt.mpr hj)
    | some errno => exact .readdir s errno rfl
  | @entry st st' out ds e hrun hret hrest ih =>
    obtain ⟨fuel, rfl⟩ := Nat.exists_eq_succ_of_ne_zero (Nat.ne_of_gt (Nat.zero_lt_of_lt hfuel))
    obtain ⟨htable, hfd⟩ := hopen.read hrun
    have hopen' : st'.Opened slot i := by
      refine ⟨?_, ?_⟩
      · rw [htable, hfd]
        exact hopen.opened
      · rw [htable]
        exact hopen.refs
    have hfuel' := Nat.lt_of_succ_lt_succ hfuel
    cases hsel : sel.all fun sel ↦ sel st'.dir.dir with
    | false =>
      obtain ⟨stop, st'', s', hloop, hh', htable', hfd', hstop⟩ := ih hopen' hs hh hfuel'
      refine ⟨stop, st'', s', (scanLoop_skip hrun hret hsel fuel s).trans hloop, hh',
        htable'.trans htable, hfd'.trans hfd, ?_⟩
      rwa [accepted, List.filter_cons_of_neg (by simpa using hsel)]
    | true =>
      rw [accepted, List.filter_cons_of_pos (by simpa using hsel), ← accepted]
      have hlonger : requests (s.records.length + 1) ≤
          requests (s.records.length + (st'.dir.dir :: accepted sel ds).length) :=
        requests_le (by simp)
      cases hroom : s.reserve grants with
      | error stop =>
        refine ⟨stop, st', s, scanLoop_full hrun hret hsel fuel hroom, hh, htable, hfd, ?_⟩
        rcases hs.reserve_error hroom with ⟨rfl, hlong⟩ | ⟨rfl, hg⟩
        · refine .tooLong s (hlong.trans ?_) ?_ <;> simp
        · exact .noMemory s fun hall ↦ hg (hall.mono le_rfl hlonger)
      | ok s₁ =>
        have hroomy := hs.reserve_ok hh hroom
        have hh₁ := hh.reserve hroom
        cases hrec : s₁.record grants st'.dir.dir with
        | error stop =>
          refine ⟨stop, st', s₁, scanLoop_refused hrun hret hsel fuel hroom hrec, hh₁, htable, hfd,
            ?_⟩
          obtain ⟨rfl, hg⟩ := hroomy.record_error hs hrec
          exact .noMemory s₁ fun hall ↦ hg (hall.mono le_rfl hlonger)
        | ok s₂ =>
          obtain ⟨hs₂, hrecords, -, hg⟩ := hroomy.record hrec
          have hh₂ := hh₁.record hroomy.names hrec
          obtain ⟨stop, st'', s', hloop, hh', htable', hfd', hstop⟩ := ih hopen' hs₂ hh₂ hfuel'
          exact ⟨stop, st'', s', (scanLoop_add hrun hret hsel fuel hroom hrec).trans hloop, hh',
            htable'.trans htable, hfd'.trans hfd, hstop.add hs hs₂ hrecords hg⟩

theorem scanLoop_prefix {stop : Stop} {fuel : ℕ} (hlist : Lists net K st ds e)
    (hloop : scanLoop net K sel grants fuel st s = some (stop, st', s')) :
    s'.records.map Prod.snd <+: s.records.map Prod.snd ++ accepted sel ds := by
  induction hlist generalizing s fuel with
  | @finish st st₁ out hrun hret =>
    cases fuel with
    | zero => cases hloop
    | succ fuel =>
      rw [scanLoop_end hrun hret] at hloop
      cases hloop
      exact List.prefix_append _ _
  | @entry st st₁ out ds e hrun hret _ ih =>
    cases fuel with
    | zero => cases hloop
    | succ fuel =>
      cases hsel : sel.all fun sel ↦ sel st₁.dir.dir with
      | false =>
        rw [scanLoop_skip hrun hret hsel] at hloop
        rw [accepted, List.filter_cons_of_neg (by simpa using hsel)]
        exact ih hloop
      | true =>
        rw [accepted, List.filter_cons_of_pos (by simpa using hsel), ← accepted]
        cases hroom : s.reserve grants with
        | error stop =>
          rw [scanLoop_full hrun hret hsel fuel hroom] at hloop
          cases hloop
          exact List.prefix_append _ _
        | ok s₁ =>
          have hsame : s₁.records = s.records := by
            have hout := s.reserve_outcome grants
            rw [hroom] at hout
            cases hout <;> rfl
          cases hrec : s₁.record grants st₁.dir.dir with
          | error stop =>
            rw [scanLoop_refused hrun hret hsel fuel hroom hrec] at hloop
            cases hloop
            rw [hsame]
            exact List.prefix_append _ _
          | ok s₂ =>
            rw [scanLoop_add hrun hret hsel fuel hroom hrec] at hloop
            have hadd := ih hloop
            obtain ⟨-, rfl⟩ := Scan.record_ok hrec
            simpa [hsame] using hadd

end

end SceLibcPosix.Dirents
