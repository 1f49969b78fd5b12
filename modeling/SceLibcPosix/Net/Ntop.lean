import SceLibcPosix.Net.Ipv6Text

namespace SceLibcPosix.Net

open Numerals Errno Function

/-- A run of zero words. There is none where the field `base` of the source is -1. -/
structure ZeroRun where
  base : ℕ
  len : ℕ
deriving DecidableEq, Repr

/-- The loop that copies the bytes at `src` into words. -/
def wordsOf (src : ℕ → UInt8) : ℕ → ℕ :=
  (List.range NS_IN6ADDRSZ).foldl
    (fun words i ↦ update words (i / 2)
      (words (i / 2) ||| (src i).toNat <<< ((1 - i % 2) <<< 3))) fun _ ↦ 0

def better (best : Option ZeroRun) (cur : ZeroRun) : Option ZeroRun :=
  if best.all fun best ↦ cur.len > best.len then some cur else best

/-- One turn of the loop that finds the runs of zero words, on `best` and `cur`. -/
def scanTurn (words : ℕ → ℕ) (s : Option ZeroRun × Option ZeroRun) (i : ℕ) :
    Option ZeroRun × Option ZeroRun :=
  if words i = 0 then (s.1, some (s.2.elim ⟨i, 1⟩ fun cur ↦ { cur with len := cur.len + 1 }))
  else (s.2.elim s.1 (better s.1), none)

/-- The longest run of two zero words or more. -/
def bestRun (words : ℕ → ℕ) : Option ZeroRun :=
  let s := (List.range (NS_IN6ADDRSZ / NS_INT16SZ)).foldl (scanTurn words) (none, none)
  (s.2.elim s.1 (better s.1)).filter fun best ↦ ¬ best.len < 2

def tmpSize : ℕ := 46

section

-- What `sceNetInetNtop` writes for `AF_INET` to a buffer of this size, or the error number that it
-- stands for.
variable (sceNetInetNtop : InAddr → ℕ → Except ℤ (List Char))

/-- The loop that writes the words with these indices behind `tp`. -/
def ntopLoop (src : ℕ → UInt8) (words : ℕ → ℕ) (best : Option ZeroRun) :
    List ℕ → List Char → Except ℤ (List Char)
  | [], tp => .ok tp
  | i :: is, tp =>
    if best.any fun best ↦ best.base ≤ i ∧ i < best.base + best.len then
      ntopLoop src words best is (if best.any fun best ↦ i = best.base then tp ++ [':'] else tp)
    else
      let tp := if i ≠ 0 then tp ++ [':'] else tp
      if i = 6 ∧ best.any fun best ↦
          best.base = 0 ∧ (best.len = 6 ∨ best.len = 5 ∧ words 5 = 0xffff) then
        (sceNetInetNtop ⟨src 12, src 13, src 14, src 15⟩ (tmpSize - tp.length)).map (tp ++ ·)
      else ntopLoop src words best is (tp ++ numeral 16 (words i))

/-- The text that `inet_ntop6` puts together in `tmp`. -/
def ntopText (src : ℕ → UInt8) : Except ℤ (List Char) :=
  let words := wordsOf src
  let best := bestRun words
  (ntopLoop sceNetInetNtop src words best (List.range (NS_IN6ADDRSZ / NS_INT16SZ)) []).map fun tp ↦
    if best.any fun best ↦ best.base + best.len = NS_IN6ADDRSZ / NS_INT16SZ then tp ++ [':'] else tp

def inetNtop6 (src : ℕ → UInt8) (size : ℕ) : Except ℤ (List Char) :=
  match ntopText sceNetInetNtop src with
  | .error e => .error e
  | .ok tmp => if tmp.length + 1 > size then .error ENOSPC else .ok tmp

/-- The text that `inet_ntop` copies to a buffer of this size, or the error number with which it
returns a null pointer. -/
def inetNtop (af : Family) (src : ℕ → UInt8) (size : ℕ) : Except ℤ (List Char) :=
  match af with
  | .AF_INET => sceNetInetNtop ⟨src 0, src 1, src 2, src 3⟩ size
  | .AF_INET6 => inetNtop6 sceNetInetNtop src size
  | .other => .error EAFNOSUPPORT

end

/-- Where there is room for any dotted quad, `sceNetInetNtop` writes one for the address, and
`sceNetInetPton` reads it back. -/
def PrintsQuads (sceNetInetPton : List Char → ℤ × InAddr)
    (sceNetInetNtop : InAddr → ℕ → Except ℤ (List Char)) : Prop :=
  ∀ a size, 16 ≤ size → ∃ t, sceNetInetNtop a size = .ok t ∧ dottedQuad t = some a ∧
    (sceNetInetPton t).1 > 0 ∧ (sceNetInetPton t).2 = a

/-- What is printed for an address is read back, and it is not printed only if it does not fit. -/
def PrintsThenParses (sceNetInetPton : List Char → ℤ × InAddr)
    (sceNetInetNtop : InAddr → ℕ → Except ℤ (List Char)) (src : ℕ → UInt8) (size : ℕ) : Prop :=
  (∀ t, inetNtop sceNetInetNtop .AF_INET6 src size = .ok t → t.length + 1 ≤ size ∧
    ∀ dst, (inetPton sceNetInetPton .AF_INET6 t dst).ret = 1 ∧
      (List.range 16).map (inetPton sceNetInetPton .AF_INET6 t dst).dst =
        (List.range 16).map src) ∧
  ∀ e, inetNtop sceNetInetNtop .AF_INET6 src size = .error e → e = ENOSPC ∧
    ∃ t, inetNtop sceNetInetNtop .AF_INET6 src tmpSize = .ok t ∧ size < t.length + 1

/-- A run of zero words, the first `k` of which have been looked at. -/
structure ZeroRun.In (r : ZeroRun) (words : ℕ → ℕ) (k : ℕ) : Prop where
  bound : r.base + r.len ≤ k
  zero : ∀ i, r.base ≤ i → i < r.base + r.len → words i = 0

section

variable {f : List Char → ℤ × InAddr} {g : InAddr → ℕ → Except ℤ (List Char)} {src : ℕ → UInt8}
  {words : ℕ → ℕ} {best : Option ZeroRun} {r cur : ZeroRun} {i k n size : ℕ} {is : List ℕ}
  {s tp : List Char} {gs : List (List Char)} {bs : List UInt8}

theorem words_foldl (src : ℕ → UInt8) (k j : ℕ) :
    (List.range k).foldl (fun words i ↦ update words (i / 2)
      (words (i / 2) ||| (src i).toNat <<< ((1 - i % 2) <<< 3))) (fun _ ↦ 0) j =
      (if 2 * j < k then (src (2 * j)).toNat <<< 8 else 0) |||
        if 2 * j + 1 < k then (src (2 * j + 1)).toNat else 0 := by
  induction k with
  | zero => simp
  | succ k ih =>
    rw [List.range_succ, List.foldl_append, List.foldl_cons, List.foldl_nil]
    by_cases hj : j = k / 2
    · rw [← hj, update_self, ih]
      rcases Nat.mod_two_eq_zero_or_one k with hk | hk
      · obtain rfl : k = 2 * j := by omega
        simp
      · obtain rfl : k = 2 * j + 1 := by omega
        simp [Nat.add_mod]
    · have hlow : 2 * j < k + 1 ↔ 2 * j < k := by omega
      have hhigh : 2 * j + 1 < k + 1 ↔ 2 * j + 1 < k := by omega
      rw [update_of_ne hj, ih]
      simp only [hlow, hhigh]

theorem wordsOf_eq (src : ℕ → UInt8) (hi : i < 8) :
    wordsOf src i = (src (2 * i)).toNat * 256 + (src (2 * i + 1)).toNat := by
  have hlt := (src (2 * i + 1)).toNat_lt
  rw [wordsOf, NS_IN6ADDRSZ, words_foldl, if_pos (by omega), if_pos (by omega), Nat.shiftLeft_eq,
    Nat.mul_comm, ← Nat.two_pow_add_eq_or_of_lt hlt, Nat.mul_comm]

theorem ZeroRun.In.mono (h : r.In words k) (hkn : k ≤ n) : r.In words n :=
  ⟨h.bound.trans hkn, h.zero⟩

theorem better_zero (hbest : ∀ r ∈ best, r.In words k) (hcur : cur.In words k) :
    ∀ r ∈ better best cur, r.In words k := by
  unfold better
  split
  · intro r hr
    cases Option.mem_some_iff.mp hr
    exact hcur
  · exact hbest

theorem scan_zero (words : ℕ → ℕ) (k : ℕ) :
    (∀ r ∈ ((List.range k).foldl (scanTurn words) (none, none)).1, r.In words k) ∧
      ∀ r ∈ ((List.range k).foldl (scanTurn words) (none, none)).2,
        r.In words k ∧ r.base + r.len = k := by
  induction k with
  | zero => exact ⟨nofun, nofun⟩
  | succ k ih =>
    rw [List.range_succ, List.foldl_append, List.foldl_cons, List.foldl_nil]
    generalize (List.range k).foldl (scanTurn words) (none, none) = s at ih
    obtain ⟨best, cur⟩ := s
    obtain ⟨hbest, hcur⟩ := ih
    have hbest' : ∀ r ∈ best, r.In words (k + 1) := fun r hr ↦ (hbest r hr).mono (Nat.le_succ k)
    by_cases hzero : words k = 0
    · rw [scanTurn, if_pos hzero]
      refine ⟨hbest', fun r hr ↦ ?_⟩
      cases Option.mem_some_iff.mp hr
      cases cur with
      | none =>
        refine ⟨⟨le_rfl, fun i hle hlt ↦ ?_⟩, rfl⟩
        obtain rfl : i = k := Nat.le_antisymm (Nat.le_of_lt_succ hlt) hle
        exact hzero
      | some cur =>
        obtain ⟨hrun, hend⟩ := hcur cur rfl
        have hend' : cur.base + (cur.len + 1) = k + 1 := congrArg (· + 1) hend
        refine ⟨⟨hend'.le, fun i hle hlt ↦ ?_⟩, hend'⟩
        rcases Nat.lt_or_ge i k with hik | hki
        · exact hrun.zero i hle (hend ▸ hik)
        · have hlt' : i < k + 1 := lt_of_lt_of_eq hlt hend'
          obtain rfl : i = k := Nat.le_antisymm (Nat.le_of_lt_succ hlt') hki
          exact hzero
    · rw [scanTurn, if_neg hzero]
      refine ⟨?_, nofun⟩
      cases cur with
      | none => exact hbest'
      | some cur => exact better_zero hbest' ((hcur cur rfl).1.mono (Nat.le_succ k))

theorem bestRun_zero (h : bestRun words = some r) : r.In words 8 ∧ 2 ≤ r.len := by
  obtain ⟨hr, hlen⟩ := Option.filter_eq_some_iff.mp h
  obtain ⟨hbest, hcur⟩ := scan_zero words 8
  refine ⟨?_, Nat.le_of_not_lt (of_decide_eq_true hlen)⟩
  unfold NS_IN6ADDRSZ NS_INT16SZ at hr
  generalize (List.range (16 / 2)).foldl (scanTurn words) (none, none) = s at hr hbest hcur
  obtain ⟨best, cur⟩ := s
  cases cur with
  | none => exact hbest r hr
  | some cur => exact better_zero hbest (hcur cur rfl).1 r hr

def Inside (best : Option ZeroRun) (i : ℕ) : Prop :=
  ∃ r ∈ best, r.base ≤ i ∧ i < r.base + r.len

def AsQuad (words : ℕ → ℕ) (best : Option ZeroRun) : Prop :=
  ∃ r ∈ best, r.base = 0 ∧ (r.len = 6 ∨ r.len = 5 ∧ words 5 = 0xffff)

theorem any_iff {P : ZeroRun → Prop} [DecidablePred P] :
    best.any (fun r ↦ decide (P r)) = true ↔ ∃ r ∈ best, P r := by
  simp [Option.any_eq_true]

theorem ntopLoop_inside (h : Inside best i) (is : List ℕ) (tp : List Char) :
    ntopLoop g src words best (i :: is) tp = ntopLoop g src words best is
      (if best.any fun best ↦ i = best.base then tp ++ [':'] else tp) := by
  rw [ntopLoop, if_pos (any_iff.mpr h)]

theorem ntopLoop_word (h : ¬ Inside best i) (hquad : ¬ (i = 6 ∧ AsQuad words best))
    (is : List ℕ) (tp : List Char) :
    ntopLoop g src words best (i :: is) tp = ntopLoop g src words best is
      (tp ++ ((if i = 0 then [] else [':']) ++ numeral 16 (words i))) := by
  rw [ntopLoop, if_neg (any_iff.not.mpr h)]
  dsimp only
  rw [if_neg (fun h ↦ hquad ⟨h.1, any_iff.mp h.2⟩)]
  by_cases hi : i = 0
  · simp [hi]
  · simp [hi]

theorem ntopLoop_quad (h : ¬ Inside best 6) (hquad : AsQuad words best) (is : List ℕ)
    (tp : List Char) : ntopLoop g src words best (6 :: is) tp =
      (g ⟨src 12, src 13, src 14, src 15⟩ (tmpSize - (tp.length + 1))).map (tp ++ ':' :: ·) := by
  rw [ntopLoop, if_neg (any_iff.not.mpr h)]
  dsimp only
  rw [if_pos (show 6 = 6 ∧ _ from ⟨rfl, any_iff.mpr hquad⟩), if_pos (by decide),
    List.length_append, List.length_singleton]
  simp only [List.append_assoc, List.singleton_append]

theorem ntopLoop_words (js : List ℕ) (h : ∀ i ∈ js, ¬ Inside best i)
    (hquad : ∀ i ∈ js, ¬ (i = 6 ∧ AsQuad words best)) (is : List ℕ) (tp : List Char) :
    ntopLoop g src words best (js ++ is) tp = ntopLoop g src words best is
      (tp ++ js.flatMap fun i ↦ (if i = 0 then [] else [':']) ++ numeral 16 (words i)) := by
  induction js generalizing tp with
  | nil => simp
  | cons i js ih =>
    rw [List.forall_mem_cons] at h hquad
    rw [List.cons_append, ntopLoop_word h.1 hquad.1, ih h.2 hquad.2, List.flatMap_cons]
    simp only [List.append_assoc]

theorem ntopLoop_skip (js : List ℕ) (h : ∀ i ∈ js, Inside (some r) i ∧ i ≠ r.base)
    (is : List ℕ) (tp : List Char) :
    ntopLoop g src words (some r) (js ++ is) tp = ntopLoop g src words (some r) is tp := by
  induction js with
  | nil => rfl
  | cons i js ih =>
    rw [List.forall_mem_cons] at h
    rw [List.cons_append, ntopLoop_inside h.1.1, if_neg (by simpa using h.1.2), ih h.2]

theorem colons_map (h : ℕ → List Char) (t : List Char) (js : List ℕ) :
    colons (t :: js.map h) = t ++ js.flatMap fun i ↦ ':' :: h i := by
  induction js generalizing t with
  | nil => simp [colons]
  | cons i js ih =>
    rw [List.map_cons, colons_cons t (List.cons_ne_nil _ _), ih, List.flatMap_cons,
      List.cons_append]

theorem ntopLoop_run (hlen : 0 < r.len) (is : List ℕ) (tp : List Char) :
    ntopLoop g src words (some r) (List.range' r.base r.len ++ is) tp =
      ntopLoop g src words (some r) is (tp ++ [':']) := by
  obtain ⟨m, hm⟩ := Nat.exists_eq_succ_of_ne_zero hlen.ne'
  have hinside : ∀ i, r.base ≤ i → i < r.base + r.len → Inside (some r) i := fun i hle hlt ↦
    ⟨r, rfl, hle, hlt⟩
  rw [hm, List.range'_succ, List.cons_append, ntopLoop_inside (hinside _ le_rfl (by omega)),
    if_pos (by simp), ntopLoop_skip]
  intro i hi
  rw [List.mem_range'_1] at hi
  exact ⟨hinside i (by omega) (by omega), by omega⟩

theorem isGroup_numeral (hn : n < 2 ^ 16) : IsGroup false (numeral 16 n) :=
  ⟨isNumeral_numeral (by decide) (by decide) n,
    (length_numeral_le_iff (by decide) (by decide)).mpr hn⟩

theorem groupBytes_word (src : ℕ → UInt8) (hi : i < 8) :
    groupBytes (numeral 16 (wordsOf src i)) = [src (2 * i), src (2 * i + 1)] := by
  have hlow := (src (2 * i + 1)).toNat_lt
  rw [groupBytes, value_numeral (by decide) (by decide), wordsOf_eq src hi]
  have hdiv : ((src (2 * i)).toNat * 256 + (src (2 * i + 1)).toNat) / 256 =
      (src (2 * i)).toNat := by omega
  have hmod : UInt8.ofNat ((src (2 * i)).toNat * 256 + (src (2 * i + 1)).toNat) =
      src (2 * i + 1) := by
    apply UInt8.toNat_inj.mp
    rw [UInt8.toNat_ofNat']
    omega
  rw [hdiv, hmod, UInt8.ofNat_toNat]

theorem wordsOf_lt (src : ℕ → UInt8) (hi : i < 8) : wordsOf src i < 2 ^ 16 := by
  have hhigh := (src (2 * i)).toNat_lt
  have hlow := (src (2 * i + 1)).toNat_lt
  rw [wordsOf_eq src hi]
  omega

def pairs (src : ℕ → UInt8) (js : List ℕ) : List UInt8 :=
  js.flatMap fun i ↦ [src (2 * i), src (2 * i + 1)]

theorem length_pairs (src : ℕ → UInt8) (js : List ℕ) :
    (pairs src js).length = 2 * js.length := by
  induction js with
  | nil => rfl
  | cons i js ih =>
    rw [pairs, List.flatMap_cons, ← pairs, List.length_append, ih, Nat.add_comm]
    rfl

theorem pairs_range' (src : ℕ → UInt8) (k n : ℕ) :
    pairs src (List.range' k n) = (List.range' (2 * k) (2 * n)).map src := by
  induction n generalizing k with
  | zero => rfl
  | succ n ih =>
    rw [List.range'_succ, pairs, List.flatMap_cons, ← pairs, ih, Nat.mul_succ 2 n,
      List.range'_succ, List.range'_succ, List.map_cons, List.map_cons]
    rfl

theorem pairs_append (src : ℕ → UInt8) (is js : List ℕ) :
    pairs src (is ++ js) = pairs src is ++ pairs src js := List.flatMap_append

theorem groups_words (src : ℕ → UInt8) (js : List ℕ) (hjs : ∀ i ∈ js, i < 8)
    (h : Groups false gs bs) :
    Groups false (js.map (fun i ↦ numeral 16 (wordsOf src i)) ++ gs) (pairs src js ++ bs) := by
  induction js with
  | nil => exact h
  | cons i js ih =>
    rw [List.forall_mem_cons] at hjs
    have hgroup := Groups.group (isGroup_numeral (wordsOf_lt src hjs.1)) (ih hjs.2)
    rw [groupBytes_word src hjs.1, ← List.append_assoc] at hgroup
    exact hgroup

theorem src_eq_zero (src : ℕ → UInt8) (hi : i < 8) (h : wordsOf src i = 0) :
    src (2 * i) = 0 ∧ src (2 * i + 1) = 0 := by
  rw [wordsOf_eq src hi] at h
  exact ⟨UInt8.toNat_inj.mp (by simp; omega), UInt8.toNat_inj.mp (by simp; omega)⟩

theorem pairs_zero (src : ℕ → UInt8) (js : List ℕ) (hjs : ∀ i ∈ js, i < 8)
    (h : ∀ i ∈ js, wordsOf src i = 0) : pairs src js = List.replicate (2 * js.length) 0 := by
  induction js with
  | nil => rfl
  | cons i js ih =>
    rw [List.forall_mem_cons] at hjs h
    obtain ⟨hhigh, hlow⟩ := src_eq_zero src hjs.1 h.1
    rw [pairs, List.flatMap_cons, ← pairs, ih hjs.2 h.2, hhigh, hlow, List.length_cons]
    rfl

theorem flatMap_later (words : ℕ → ℕ) {js : List ℕ} (hjs : ∀ i ∈ js, i ≠ 0) :
    (js.flatMap fun i ↦ (if i = 0 then [] else [':']) ++ numeral 16 (words i)) =
      js.flatMap fun i ↦ ':' :: numeral 16 (words i) :=
  List.flatMap_congr fun i hi ↦ by rw [if_neg (hjs i hi), List.singleton_append]

theorem flatMap_first (words : ℕ → ℕ) (n : ℕ) :
    ((List.range' 0 n).flatMap fun i ↦ (if i = 0 then [] else [':']) ++ numeral 16 (words i)) =
      colons ((List.range' 0 n).map fun i ↦ numeral 16 (words i)) := by
  cases n with
  | zero => rfl
  | succ n =>
    have hpos : ∀ i ∈ List.range' (0 + 1) n, i ≠ 0 := by
      intro i hi
      rw [List.mem_range'_1] at hi
      omega
    rw [List.range'_succ, List.flatMap_cons, if_pos rfl, List.map_cons,
      colons_map fun i ↦ numeral 16 (words i), flatMap_later words hpos, List.nil_append]

theorem flatMap_colons (h : ℕ → List Char) (js : List ℕ) (hgs : gs ≠ []) :
    (js.flatMap fun i ↦ ':' :: h i) ++ ':' :: colons gs = ':' :: colons (js.map h ++ gs) := by
  induction js with
  | nil => rfl
  | cons i js ih =>
    have hne : js.map h ++ gs ≠ [] := fun hnil ↦ hgs (List.append_eq_nil_iff.mp hnil).2
    rw [List.flatMap_cons, List.append_assoc, ih, List.map_cons, List.cons_append,
      List.cons_append, colons_cons (h i) hne]

theorem flatMap_of_ne_nil (h : ℕ → List Char) {js : List ℕ} (hjs : js ≠ []) :
    (js.flatMap fun i ↦ ':' :: h i) = ':' :: colons (js.map h) := by
  obtain ⟨i, js, rfl⟩ := List.exists_cons_of_ne_nil hjs
  rw [List.flatMap_cons, List.map_cons, colons_map, List.cons_append]

theorem map_range_eq_pairs (hzero : r.In (wordsOf src) 8) : (List.range 16).map src =
    pairs src (List.range' 0 r.base) ++ List.replicate (2 * r.len) 0 ++
      pairs src (List.range' (r.base + r.len) (8 - (r.base + r.len))) := by
  have hbound := hzero.bound
  have hrun : pairs src (List.range' r.base r.len) = List.replicate (2 * r.len) 0 := by
    rw [pairs_zero src, List.length_range']
    · intro i hi
      rw [List.mem_range'_1] at hi
      omega
    · intro i hi
      rw [List.mem_range'_1] at hi
      exact hzero.zero i hi.1 hi.2
  rw [← hrun, pairs_range', pairs_range', pairs_range', ← List.map_append, ← List.map_append]
  refine congrArg (List.map src) ?_
  have hfirst := List.range'_append_1 (s := 0) (m := 2 * r.base) (n := 2 * r.len)
  have hall := List.range'_append_1 (s := 0) (m := 2 * r.base + 2 * r.len)
    (n := 2 * (8 - (r.base + r.len)))
  have hsize : 2 * r.base + 2 * r.len + 2 * (8 - (r.base + r.len)) = 16 := by omega
  rw [Nat.zero_add] at hfirst hall
  rw [Nat.mul_zero, hfirst, Nat.mul_add, hall, hsize, List.range_eq_range']

theorem flatMap_groupBytes (src : ℕ → UInt8) (js : List ℕ) (hjs : ∀ i ∈ js, i < 8) :
    (js.map fun i ↦ numeral 16 (wordsOf src i)).flatMap groupBytes = pairs src js := by
  rw [List.flatMap_map]
  exact List.flatMap_congr fun i hi ↦ groupBytes_word src (hjs i hi)

theorem lt_of_mem_range' {j : ℕ} (hkn : k + n ≤ 8) (hj : j ∈ List.range' k n) : j < 8 := by
  rw [List.mem_range'_1] at hj
  omega

theorem range_eight (hkn : k + n ≤ 8) : List.range (NS_IN6ADDRSZ / NS_INT16SZ) =
    List.range' 0 k ++ (List.range' k n ++ List.range' (k + n) (8 - (k + n))) := by
  have hlast := List.range'_append_1 (s := 0) (m := k) (n := n + (8 - (k + n)))
  have hsize : k + (n + (8 - (k + n))) = 8 := by omega
  rw [Nat.zero_add, hsize, ← List.range'_append_1] at hlast
  rw [hlast, ← List.range_eq_range']
  rfl

theorem dot_notMem_words (words : ℕ → ℕ) (js : List ℕ) :
    '.' ∉ colons (js.map fun i ↦ numeral 16 (words i)) := by
  induction js with
  | nil => exact List.not_mem_nil
  | cons i js ih =>
    have hnumeral : '.' ∉ numeral 16 (words i) := fun hmem ↦
      absurd ((isNumeral_numeral (by decide) (by decide) (words i)).2 '.' hmem) (by decide)
    rw [List.map_cons]
    by_cases hjs : js = []
    · subst hjs
      rw [List.map_nil, colons, List.intercalate_singleton]
      exact hnumeral
    · rw [colons_cons _ (by simpa using hjs)]
      simp [hnumeral, ih]

theorem readsQuads_of_notMem (h : '.' ∉ s) : ReadsQuads f s := by
  intro q addr hsuffix hq
  obtain ⟨p, rest, rfl, -⟩ := dottedQuad_shape hq
  have hmem : '.' ∈ ':' :: s := hsuffix.subset (by simp)
  simp [h] at hmem

theorem readsQuads_append {q : List Char} {addr : InAddr} (hq : dottedQuad q = some addr)
    (hf : inetPton4 f q > 0 ∧ (f q).2 = addr) (s : List Char) :
    ReadsQuads f (s ++ ':' :: q) := by
  intro q' addr' hsuffix hq'
  have hown : (':' :: q) <:+ (':' :: (s ++ ':' :: q)) := List.suffix_append (':' :: s) (':' :: q)
  have heq : q' = q := by
    rcases List.suffix_or_suffix_of_suffix hsuffix hown with h | h
    · rcases List.suffix_cons_iff.mp h with h | h
      · exact (List.cons.inj h).2
      · exact absurd (h.subset List.mem_cons_self) (colon_notMem hq)
    · rcases List.suffix_cons_iff.mp h with h | h
      · exact (List.cons.inj h).2.symm
      · exact absurd (h.subset List.mem_cons_self) (colon_notMem hq')
  subst heq
  cases hq.symm.trans hq'
  exact hf

theorem not_inside (h : i < r.base ∨ r.base + r.len ≤ i) : ¬ Inside (some r) i := by
  intro hinside
  obtain ⟨r', hr, hle, hlt⟩ := hinside
  cases Option.mem_some_iff.mp hr
  omega

theorem ntopLoop_last (js : List ℕ) (h : ∀ i ∈ js, ¬ Inside best i)
    (hquad : ∀ i ∈ js, ¬ (i = 6 ∧ AsQuad words best)) (tp : List Char) :
    ntopLoop g src words best js tp =
      .ok (tp ++ js.flatMap fun i ↦ (if i = 0 then [] else [':']) ++ numeral 16 (words i)) := by
  have hloop : ntopLoop g src words best (js ++ []) tp = _ := ntopLoop_words js h hquad [] tp
  rw [List.append_nil] at hloop
  exact hloop

theorem ntopText_none (hbest : bestRun (wordsOf src) = none) :
    ∃ t, ntopText g src = .ok t ∧ Ipv6 false t ((List.range 16).map src) ∧ ReadsQuads f t := by
  refine ⟨colons ((List.range' 0 8).map fun i ↦ numeral 16 (wordsOf src i)), ?_, ?_,
    readsQuads_of_notMem (dot_notMem_words (wordsOf src) (List.range' 0 8))⟩
  · simp only [ntopText, hbest]
    rw [NS_IN6ADDRSZ, NS_INT16SZ, List.range_eq_range', ntopLoop_last _
      (fun _ _ h ↦ by simp [Inside] at h) (fun _ _ h ↦ by simp [AsQuad] at h), flatMap_first]
    rfl
  · have h := groups_words src (List.range' 0 8) (fun _ ↦ lt_of_mem_range' le_rfl) .nil
    rw [List.append_nil, List.append_nil, pairs_range'] at h
    exact .full h rfl

theorem ipv6_run (hzero : r.In (wordsOf src) 8) (hlen : 2 ≤ r.len)
    (h : Groups false gs (pairs src (List.range' (r.base + r.len) (8 - (r.base + r.len))))) :
    Ipv6 false (colons ((List.range' 0 r.base).map fun i ↦ numeral 16 (wordsOf src i)) ++
      ':' :: ':' :: colons gs) ((List.range 16).map src) := by
  have hbound := hzero.bound
  have hbase : ∀ i ∈ List.range' 0 r.base, i < 8 := fun i hi ↦ lt_of_mem_range' (by omega) hi
  have hfirst : ∀ p ∈ (List.range' 0 r.base).map fun i ↦ numeral 16 (wordsOf src i),
      IsGroup false p := by
    intro p hp
    obtain ⟨i, hi, rfl⟩ := List.mem_map.mp hp
    exact isGroup_numeral (wordsOf_lt src (hbase i hi))
  have hipv6 := Ipv6.short hfirst h (by
    rw [List.length_map, List.length_range', length_pairs, List.length_range']
    exact (by omega : 2 * r.base + 2 * (8 - (r.base + r.len)) ≤ 14))
  have hzeros : 16 - 2 * r.base - 2 * (8 - (r.base + r.len)) = 2 * r.len := by omega
  rw [flatMap_groupBytes src _ hbase, List.length_map, List.length_range', length_pairs,
    List.length_range', hzeros, ← map_range_eq_pairs hzero] at hipv6
  exact hipv6

theorem ntopText_run (hbest : bestRun (wordsOf src) = some r)
    (hquad : ¬ AsQuad (wordsOf src) (some r)) :
    ∃ t, ntopText g src = .ok t ∧ Ipv6 false t ((List.range 16).map src) ∧ ReadsQuads f t := by
  obtain ⟨hzero, hlen⟩ := bestRun_zero hbest
  have hbound := hzero.bound
  let l := (List.range' 0 r.base).map fun i ↦ numeral 16 (wordsOf src i)
  let js := List.range' (r.base + r.len) (8 - (r.base + r.len))
  have hjs : ∀ i ∈ js, r.base + r.len ≤ i ∧ i < 8 := by
    intro i hi
    rw [List.mem_range'_1] at hi
    omega
  refine ⟨colons l ++ ':' :: ':' :: colons (js.map fun i ↦ numeral 16 (wordsOf src i)), ?_, ?_,
    readsQuads_of_notMem (by simp [l, dot_notMem_words])⟩
  · have hno : ∀ i : ℕ, ¬ (i = 6 ∧ AsQuad (wordsOf src) (some r)) := fun i h ↦ hquad h.2
    have hfirst : ∀ i ∈ List.range' 0 r.base, i < r.base := by
      intro i hi
      rw [List.mem_range'_1] at hi
      omega
    have hpos : ∀ i ∈ js, i ≠ 0 := by
      intro i hi
      have := (hjs i hi).1
      omega
    simp only [ntopText, hbest]
    rw [range_eight hbound, ntopLoop_words _ (fun i hi ↦ not_inside (.inl (hfirst i hi)))
      (fun i _ ↦ hno i), ntopLoop_run (by omega), ntopLoop_last js
      (fun i hi ↦ not_inside (.inr (hjs i hi).1)) (fun i _ ↦ hno i), flatMap_later _ hpos,
      flatMap_first, Except.map]
    refine congrArg Except.ok ?_
    by_cases hend : r.base + r.len = 8
    · have hnil : js = [] := by simp [js, hend]
      rw [if_pos (any_iff.mpr ⟨r, rfl, hend⟩), hnil]
      simp [l, colons]
    · have hne : js ≠ [] := by
        simp only [js, ne_eq, List.range'_eq_nil_iff]
        omega
      rw [if_neg (fun h ↦ hend (by simpa using h : r.base + r.len = NS_IN6ADDRSZ / NS_INT16SZ)),
        flatMap_of_ne_nil _ hne]
      simp [l]
  · have h := groups_words src js (fun i hi ↦ (hjs i hi).2) .nil
    rw [List.append_nil, List.append_nil] at h
    exact ipv6_run hzero hlen h

/-- The words between the run and the dotted quad, none or one, leave room for any quad. -/
theorem quad_room (hlen : n = 6 ∨ n = 5 ∧ words 5 = 0xffff) :
    List.range' 0 n ++ (List.range' n (6 - n) ++ [6, 7]) = List.range 8 ∧
      List.range' n (6 - n) ++ [6, 7] = List.range' n (8 - n) ∧
      ((List.range' n (6 - n)).flatMap fun i ↦ ':' :: numeral 16 (words i)).length ≤ 5 := by
  rcases hlen with rfl | ⟨rfl, hword⟩
  · exact ⟨by decide, by decide, by simp⟩
  · have hffff : (numeral 16 0xffff).length = 4 := by decide
    exact ⟨by decide, by decide, by simp [hword, hffff]⟩

theorem ntopText_quad (hg : PrintsQuads f g) (hbest : bestRun (wordsOf src) = some r)
    (hquad : AsQuad (wordsOf src) (some r)) :
    ∃ t, ntopText g src = .ok t ∧ Ipv6 false t ((List.range 16).map src) ∧ ReadsQuads f t := by
  obtain ⟨hzero, hlen⟩ := bestRun_zero hbest
  obtain ⟨r, hr, hbase, hwords⟩ := hquad
  cases Option.mem_some_iff.mp hr
  obtain ⟨hrange, hlast, hroom⟩ := quad_room hwords
  let js := List.range' r.len (6 - r.len)
  let tp := ':' :: js.flatMap fun i ↦ ':' :: numeral 16 (wordsOf src i)
  have hjs : ∀ i ∈ js, r.len ≤ i ∧ i < 6 := by
    intro i hi
    rw [List.mem_range'_1] at hi
    omega
  obtain ⟨q, hgq, hq, hpos, haddr⟩ := hg ⟨src 12, src 13, src 14, src 15⟩
    (tmpSize - (tp.length + 1)) (by simp only [tp, js, tmpSize, List.length_cons]; omega)
  have hret : inetPton4 f q > 0 := by
    rw [inetPton4, if_neg (by omega)]
    exact hpos
  refine ⟨tp ++ ':' :: q, ?_, ?_, readsQuads_append hq ⟨hret, haddr⟩ tp⟩
  · have hfirst : ∀ i ∈ js, ¬ (i = 6 ∧ AsQuad (wordsOf src) (some r)) := by
      intro i hi h
      have := (hjs i hi).2
      omega
    have hne : ∀ i ∈ js, i ≠ 0 := by
      intro i hi
      have := (hjs i hi).1
      omega
    have hloop : ntopLoop g src (wordsOf src) (some r) (List.range 8) [] =
        .ok (tp ++ ':' :: q) := by
      have hmap : ntopLoop g src (wordsOf src) (some r) [6, 7] tp = _ :=
        ntopLoop_quad (not_inside (.inr (by omega))) ⟨r, rfl, hbase, hwords⟩ [7] tp
      rw [hgq] at hmap
      rw [← hrange, ← hbase, ntopLoop_run (by omega), ntopLoop_words js
        (fun i hi ↦ not_inside (.inr (by have := (hjs i hi).1; omega))) hfirst, flatMap_later _ hne]
      exact hmap
    simp only [ntopText, hbest]
    rw [NS_IN6ADDRSZ, NS_INT16SZ, hloop, Except.map, if_neg]
    intro h
    have hend : r.base + r.len = 16 / 2 := by simpa using h
    omega
  · have hgroups := groups_words src js (fun i hi ↦ by have := (hjs i hi).2; omega) (.quad hq)
    have hbytes : pairs src js ++ InAddr.bytes ⟨src 12, src 13, src 14, src 15⟩ =
        pairs src (List.range' (r.base + r.len) (8 - (r.base + r.len))) := by
      rw [hbase, Nat.zero_add, ← hlast, pairs_append]
      rfl
    have htext : tp ++ ':' :: q =
        ':' :: ':' :: colons (js.map (fun i ↦ numeral 16 (wordsOf src i)) ++ [q]) := by
      have hcolons := flatMap_colons (fun i ↦ numeral 16 (wordsOf src i)) js
        (List.cons_ne_nil q [])
      have hone : colons [q] = q := List.intercalate_singleton
      rw [hone] at hcolons
      rw [← hcolons]
      rfl
    rw [hbytes] at hgroups
    have hipv6 := ipv6_run hzero hlen hgroups
    rw [hbase] at hipv6
    rw [htext]
    exact hipv6

theorem ntopText_ipv6 (hg : PrintsQuads f g) (src : ℕ → UInt8) :
    ∃ t, ntopText g src = .ok t ∧ Ipv6 false t ((List.range 16).map src) ∧ ReadsQuads f t := by
  cases hbest : bestRun (wordsOf src) with
  | none => exact ntopText_none hbest
  | some r =>
    by_cases hquad : AsQuad (wordsOf src) (some r)
    · exact ntopText_quad hg hbest hquad
    · exact ntopText_run hbest hquad

theorem Groups.length_le (h : Groups false gs bs) :
    2 * (colons gs).length ≤ 5 * bs.length + 10 := by
  induction h with
  | nil => decide
  | quad h =>
    obtain ⟨-, -, -, -, -, hlen, -⟩ := dottedQuad_shape h
    simp [colons, InAddr.bytes]
    omega
  | stray h => cases h
  | @group g gs bs hg h ih =>
    have hlen : g.length ≤ 4 := hg.2
    rw [List.length_append, length_groupBytes]
    cases gs with
    | nil =>
      simp [colons]
      omega
    | cons g' gs =>
      rw [colons_cons g (List.cons_ne_nil g' gs), List.length_append, List.length_cons]
      omega

theorem length_colons_le (l : List (List Char)) (hl : ∀ g ∈ l, g.length ≤ n) :
    (colons l).length ≤ (n + 1) * l.length := by
  induction l with
  | nil => exact Nat.zero_le _
  | cons g l ih =>
    rw [List.forall_mem_cons] at hl
    rw [List.length_cons, Nat.mul_succ]
    have ih := ih hl.2
    cases l with
    | nil => exact (by simpa [colons] using hl.1.trans (Nat.le_succ n))
    | cons g' l =>
      rw [colons_cons g (List.cons_ne_nil g' l), List.length_append, List.length_cons]
      omega

theorem Ipv6.length_lt (h : Ipv6 false s bs) : s.length < tmpSize := by
  rw [tmpSize]
  cases h with
  | full h hlen =>
    have := h.length_le
    omega
  | @short l r bs hl h hlen =>
    have hleft := length_colons_le l fun g hg ↦ ((hl g hg).2 : g.length ≤ 4)
    have hright := h.length_le
    have hlen : 2 * l.length + bs.length ≤ 14 := hlen
    rw [List.length_append, List.length_cons, List.length_cons]
    omega

theorem printsThenParses (f : List Char → ℤ × InAddr) (g : InAddr → ℕ → Except ℤ (List Char))
    (hg : PrintsQuads f g) (src : ℕ → UInt8) (size : ℕ) : PrintsThenParses f g src size := by
  obtain ⟨t, ht, hipv6, hreads⟩ := ntopText_ipv6 hg src
  have hntop : ∀ size, inetNtop g .AF_INET6 src size =
      if t.length + 1 > size then .error ENOSPC else .ok t := by
    intro size
    simp only [inetNtop, inetNtop6, ht]
  rw [PrintsThenParses, hntop, hntop, if_neg (Nat.not_lt.mpr hipv6.length_lt)]
  split
  · next hsize =>
    refine ⟨nofun, fun e he ↦ ?_⟩
    cases he
    exact ⟨rfl, t, rfl, hsize⟩
  · next hsize =>
    refine ⟨fun t' ht' ↦ ?_, nofun⟩
    cases ht'
    refine ⟨Nat.le_of_not_lt hsize, fun dst ↦ ?_⟩
    obtain ⟨hret, hdst⟩ := inetPton_of_ipv6 hreads hipv6 dst
    exact ⟨hret, (hdst rfl).1⟩

end

theorem octet_numeral (b : UInt8) : octet (numeral 10 b.toNat) = some b := by
  have hlt := b.toNat_lt
  have hcond : (numeral 10 b.toNat).length ≤ 3 ∧ b.toNat ≤ 255 := ⟨length_byte b, by omega⟩
  rw [octet, read_numeral (by decide) (by decide), Option.filter_some,
    if_pos (by simpa using hcond), Option.map_some, UInt8.ofNat_toNat]

theorem dottedQuad_inetNtoa (a : InAddr) : dottedQuad (inetNtoa a) = some a := by
  rw [dottedQuad, splitOn_inetNtoa]
  simp only [InAddr.bytes, List.map_cons, List.map_nil, octet_numeral]
  rfl

def fittingQuad (a : InAddr) (size : ℕ) : Except ℤ (List Char) :=
  if (inetNtoa a).length + 1 > size then .error ENOSPC else .ok (inetNtoa a)

theorem printsQuads_fittingQuad : PrintsQuads quadsOnly fittingQuad := by
  intro a size hsize
  have hquad := dottedQuad_inetNtoa a
  obtain ⟨-, -, -, -, -, hlen, -⟩ := dottedQuad_shape hquad
  refine ⟨inetNtoa a, if_neg (by omega), hquad, ?_, ?_⟩
  · simp [quadsOnly, hquad]
  · simp [quadsOnly, hquad]

theorem printsThenParses_mapped : PrintsThenParses quadsOnly fittingQuad
    (fun i ↦ [0, 0, 0, 0, 0, 0, 0, 0, 0, 0, 255, 255, 1, 2, 3, 4].getD i 0) 16 :=
  printsThenParses quadsOnly fittingQuad printsQuads_fittingQuad _ 16

end SceLibcPosix.Net
