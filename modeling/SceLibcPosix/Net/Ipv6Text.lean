import Mathlib.Data.Bool.AllAny
import Mathlib.Data.List.GetD
import Mathlib.Data.List.TakeWhile
import SceLibcPosix.Net.Pton

namespace SceLibcPosix.Net

open Numerals Function

section

variable {f : List Char → ℤ × InAddr} {lax : Bool} {s src rest g p q : List Char}
  {gs l r : List (List Char)} {bs cs : List UInt8} {a a' : Pton} {addr : InAddr} {c : Char}
  {b : UInt8} {n : ℕ}

theorem lt_of_mem_xdigits : ∀ c ∈ xdigitsL ++ xdigitsU, c.toNat < 128 :=
  List.all_iff_forall_prop.mp (by decide)

theorem xdigit_ofNat : ∀ n < 128, xdigit (Char.ofNat n) = digitOf 16 (Char.ofNat n) := by decide

theorem charVal_of_le (h : 128 ≤ c.toNat) : charVal c = none := by
  have hdigit : ¬ c.isDigit := fun hc ↦ by
    have hle := (bounds_of_isDigit hc).2
    omega
  have hlower : ¬ c.isLower := fun hc ↦ by
    have hle := (bounds_of_isLower hc).2
    omega
  have hupper : ¬ c.isUpper := fun hc ↦ by
    have hle := (bounds_of_isUpper hc).2
    omega
  rw [charVal, if_neg hdigit, if_neg hlower, if_neg hupper]

theorem xdigit_eq (c : Char) : xdigit c = digitOf 16 c := by
  rcases Nat.lt_or_ge c.toNat 128 with hlt | hge
  · rw [← Char.ofNat_toNat c]
    exact xdigit_ofNat _ hlt
  · have hL : xdigitsL.idxOf? c = none := List.idxOf?_eq_none_iff.mpr fun h ↦
      absurd (lt_of_mem_xdigits c (List.mem_append_left _ h)) (by omega)
    have hU : xdigitsU.idxOf? c = none := List.idxOf?_eq_none_iff.mpr fun h ↦
      absurd (lt_of_mem_xdigits c (List.mem_append_right _ h)) (by omega)
    rw [xdigit, hL, hU, digitOf, charVal_of_le hge]
    rfl

theorem shiftLeft_or (v : ℕ) {d : ℕ} (hd : d < 16) : v <<< 4 ||| d = v * 16 + d := by
  rw [Nat.shiftLeft_eq, Nat.mul_comm, ← Nat.two_pow_add_eq_or_of_lt (by omega), Nat.mul_comm]

theorem octet_eq_some (h : octet p = some b) : IsNumeral 10 p ∧ p.length ≤ 3 := by
  obtain ⟨v, hv, -⟩ := Option.map_eq_some_iff.mp h
  obtain ⟨hread, hcond⟩ := Option.filter_eq_some_iff.mp hv
  exact ⟨(read_eq_some.mp hread).1, (of_decide_eq_true hcond).1⟩

theorem dottedQuad_shape (h : dottedQuad q = some addr) :
    ∃ p rest, q = p ++ '.' :: rest ∧ IsNumeral 10 p ∧ p.length ≤ 3 ∧ q.length ≤ 15 ∧
      ∀ c ∈ q, c = '.' ∨ isDigit 10 c := by
  unfold dottedQuad at h
  split at h
  · next p₀ p₁ p₂ p₃ hsplit =>
    have hq : ['.'].intercalate (q.splitOn '.') = q := List.intercalate_splitOn '.'
    simp only [Option.bind_eq_bind, Option.bind_eq_some_iff] at h
    obtain ⟨_, h₀, _, h₁, _, h₂, _, h₃, -⟩ := h
    have h₀ := octet_eq_some h₀
    have h₁ := octet_eq_some h₁
    have h₂ := octet_eq_some h₂
    have h₃ := octet_eq_some h₃
    rw [hsplit] at hq
    have hlen : q.length ≤ 15 := by
      have hlens := And.intro h₀.2 (And.intro h₁.2 (And.intro h₂.2 h₃.2))
      simp [← hq]
      omega
    refine ⟨p₀, p₁ ++ '.' :: p₂ ++ '.' :: p₃, by simp [← hq], h₀.1, h₀.2, hlen, fun c hc ↦ ?_⟩
    simp only [← hq, List.intercalate_cons_cons, List.intercalate_singleton, List.mem_append,
      List.mem_singleton] at hc
    rcases hc with (hc | hc) | (hc | hc) | (hc | hc) | hc
    · exact .inr (h₀.1.2 c hc)
    · exact .inl hc
    · exact .inr (h₁.1.2 c hc)
    · exact .inl hc
    · exact .inr (h₂.1.2 c hc)
    · exact .inl hc
    · exact .inr (h₃.1.2 c hc)
  · cases h

theorem colon_notMem (h : dottedQuad q = some addr) : ':' ∉ q := by
  obtain ⟨-, -, -, -, -, -, hchars⟩ := dottedQuad_shape h
  intro hmem
  rcases hchars ':' hmem with h | h
  · exact absurd h (by decide)
  · exact absurd h (by decide)

theorem value_le_append (s t : List Char) : value 16 s ≤ value 16 (s ++ t) := by
  rw [value_append]
  exact Nat.le_add_right_of_le (Nat.le_mul_of_pos_right _ (by positivity))

theorem ptonLoop_digits (hg : ∀ c ∈ g, isDigit 16 c) (rest : List Char) (ha : a.val = value 16 p)
    (hp : value 16 p < 2 ^ 16) : ptonLoop f (g ++ rest) a =
      if value 16 (p ++ g) < 2 ^ 16 then
        ptonLoop f rest { a with val := value 16 (p ++ g), sawXdigit := a.sawXdigit || !g.isEmpty }
      else none := by
  induction g generalizing p a with
  | nil =>
    rw [List.append_nil, if_pos hp, ← ha]
    simp
  | cons c g ih =>
    obtain ⟨d, hd⟩ := Option.isSome_iff_exists.mp (hg c List.mem_cons_self)
    have hval : a.val <<< 4 ||| d = value 16 (p ++ [c]) := by
      rw [shiftLeft_or _ (digitOf_eq_some.mp hd).2, value_concat, hd, ha]
      rfl
    have hle := value_le_append (p ++ [c]) g
    rw [List.append_assoc, List.singleton_append] at hle
    rw [List.cons_append, ptonLoop, xdigit_eq, hd]
    simp only [hval]
    split
    · rw [if_neg (by omega)]
    · rw [ih (a := { a with val := value 16 (p ++ [c]), sawXdigit := true })
        (fun c hc ↦ hg c (List.mem_cons_of_mem _ hc)) rfl (by omega), List.append_assoc,
        List.singleton_append]
      simp

structure Pton.Stored (a : Pton) (bs : List UInt8) : Prop where
  tp : a.tp = bs.length
  tmp : ∀ i, a.tmp i = bs.getD i 0

structure Pton.At (a : Pton) (src : List Char) (bs : List UInt8) : Prop where
  stored : a.Stored bs
  curtok : a.curtok = src
  sawXdigit : a.sawXdigit = false
  val : a.val = 0

theorem Pton.Stored.put (h : a.Stored bs) (cs : List UInt8) : (a.put cs).Stored (bs ++ cs) := by
  induction cs generalizing a bs with
  | nil =>
    rw [List.append_nil]
    exact h
  | cons b cs ih =>
    have hput : ({ a with tmp := update a.tmp a.tp b, tp := a.tp + 1 } : Pton).Stored
        (bs ++ [b]) := by
      refine ⟨by simp [h.tp], fun i ↦ ?_⟩
      dsimp only
      rcases Nat.lt_trichotomy i bs.length with hlt | rfl | hgt
      · rw [update_of_ne (h.tp ▸ Nat.ne_of_lt hlt), h.tmp, List.getD_append _ _ _ _ hlt]
      · rw [← h.tp, update_self, h.tp, List.getD_append_right _ _ _ _ le_rfl, Nat.sub_self]
        rfl
      · rw [update_of_ne (h.tp ▸ Nat.ne_of_gt hgt), h.tmp, List.getD_eq_default _ _ (by omega),
          List.getD_eq_default _ _ (by rw [List.length_append, List.length_singleton]; omega)]
    have h := ih hput
    rw [List.append_assoc, List.singleton_append] at h
    exact h

@[simp] theorem put_colonp (a : Pton) (cs : List UInt8) : (a.put cs).colonp = a.colonp := by
  induction cs generalizing a with
  | nil => rfl
  | cons b cs ih => exact ih _

theorem Pton.Stored.putVal (h : a.Stored bs) (hv : a.val = value 16 g) :
    a.putVal.Stored (bs ++ groupBytes g) := by
  have hshift : a.val >>> 8 = a.val / 256 := Nat.shiftRight_eq_div_pow a.val 8
  unfold Pton.putVal groupBytes
  rw [hshift, hv]
  exact h.put _

theorem Pton.At.digits (ha : a.At src bs) (hg : ∀ c ∈ g, isDigit 16 c) (rest : List Char) :
    ptonLoop f (g ++ rest) a = if value 16 g < 2 ^ 16 then
      ptonLoop f rest { a with val := value 16 g, sawXdigit := !g.isEmpty } else none := by
  have h := ptonLoop_digits (f := f) (p := []) hg rest ha.val (by decide)
  rw [List.nil_append, ha.sawXdigit, Bool.false_or] at h
  exact h

theorem IsGroup.value_lt (h : IsGroup lax g) : value 16 g < 2 ^ 16 := by
  cases lax with
  | true => exact h.2
  | false =>
    have hlen : g.length ≤ 4 := h.2
    calc value 16 g < 16 ^ g.length := Numerals.value_lt (by decide)
      _ ≤ 16 ^ 4 := Nat.pow_le_pow_right (by decide) hlen

theorem xdigit_colon : xdigit ':' = none := by decide

theorem Pton.At.group (ha : a.At src bs) (hg : IsGroup lax g) (rest : List Char) :
    ∃ a', ptonLoop f (g ++ rest) a = ptonLoop f rest a' ∧ a'.Stored bs ∧ a'.sawXdigit = true ∧
      a'.val = value 16 g ∧ a'.colonp = a.colonp := by
  refine ⟨{ a with val := value 16 g, sawXdigit := !g.isEmpty }, ?_, ⟨ha.stored.tp, ha.stored.tmp⟩,
    ?_, rfl, rfl⟩
  · rw [ha.digits hg.1.2, if_pos hg.value_lt]
  · simpa using hg.1.1

theorem Pton.At.group_colon (ha : a.At src bs) (hg : IsGroup lax g) (rest : List Char) :
    ptonLoop f (g ++ ':' :: rest) a = none ∧ 16 < bs.length + 2 ∨ bs.length + 2 ≤ 16 ∧
      ∃ a', ptonLoop f (g ++ ':' :: rest) a = ptonLoop f rest a' ∧
        a'.At rest (bs ++ groupBytes g) ∧ a'.colonp = a.colonp := by
  obtain ⟨a', hrun, hstored, hsaw, hval, hcolonp⟩ := ha.group (f := f) hg (':' :: rest)
  rw [hrun, ptonLoop, xdigit_colon]
  simp only [hsaw, Bool.not_true, if_true, NS_INT16SZ, NS_IN6ADDRSZ, hstored.tp]
  rcases Nat.lt_or_ge 16 (bs.length + 2) with hlt | hle
  · exact .inl ⟨by rw [if_neg (by decide), if_pos hlt], hlt⟩
  · refine .inr ⟨hle, _, by rw [if_neg (by decide), if_neg (Nat.not_lt.mpr hle)], ?_⟩
    exact ⟨⟨⟨(hstored.putVal hval).tp, (hstored.putVal hval).tmp⟩, rfl, rfl, rfl⟩,
      (put_colonp _ _).trans hcolonp⟩

theorem Pton.At.colon (ha : a.At src bs) (rest : List Char) :
    ptonLoop f (':' :: rest) a = if a.colonp.isSome then none else
      ptonLoop f rest { a with curtok := rest, colonp := some a.tp } := by
  rw [ptonLoop, xdigit_colon]
  simp [ha.sawXdigit]

theorem Pton.At.close_group (ha : a.At src bs) (hg : IsGroup lax g) :
    (ptonLoop f g a).bind Pton.close = none ∧ 16 < bs.length + 2 ∨ bs.length + 2 ≤ 16 ∧
      ∃ a', (ptonLoop f g a).bind Pton.close = some a' ∧ a'.Stored (bs ++ groupBytes g) ∧
        a'.colonp = a.colonp := by
  obtain ⟨a', hrun, hstored, hsaw, hval, hcolonp⟩ := ha.group (f := f) hg []
  rw [List.append_nil] at hrun
  rw [hrun, ptonLoop, Option.bind_some, Pton.close, hsaw, if_pos rfl]
  simp only [NS_INT16SZ, NS_IN6ADDRSZ, hstored.tp]
  rcases Nat.lt_or_ge 16 (bs.length + 2) with hlt | hle
  · exact .inl ⟨if_pos hlt, hlt⟩
  · exact .inr ⟨hle, _, if_neg (Nat.not_lt.mpr hle), hstored.putVal hval,
      (put_colonp _ _).trans hcolonp⟩

theorem isDigit_sixteen {b : ℕ} (hb : b ≤ 16) (h : isDigit b c) : isDigit 16 c := by
  obtain ⟨d, hd⟩ := Option.isSome_iff_exists.mp h
  obtain ⟨hval, hlt⟩ := digitOf_eq_some.mp hd
  exact Option.isSome_iff_exists.mpr ⟨d, digitOf_eq_some.mpr ⟨hval, by omega⟩⟩

theorem acceptsQuads_iff (hf : AcceptsQuads f) :
    inetPton4 f s > 0 ∧ (f s).2 = addr ↔ dottedQuad s = some addr := by
  rw [hf s]
  unfold inetPton4
  split <;> split <;> simp_all
  omega

/-- `sceNetInetPton` reads the dotted quads that stand at the end of the text, at its beginning or
behind a colon. -/
def ReadsQuads (f : List Char → ℤ × InAddr) (s : List Char) : Prop :=
  ∀ q addr, (':' :: q) <:+ (':' :: s) → dottedQuad q = some addr →
    inetPton4 f q > 0 ∧ (f q).2 = addr

theorem AcceptsQuads.reads (hf : AcceptsQuads f) (s : List Char) : ReadsQuads f s :=
  fun _ _ _ hq ↦ (acceptsQuads_iff hf).mpr hq

theorem ReadsQuads.suffix (hf : ReadsQuads f s) (h : (':' :: p) <:+ (':' :: s)) : ReadsQuads f p :=
  fun q addr hq ↦ hf q addr (hq.trans h)

theorem Pton.At.other (ha : a.At src bs) (hp : ∀ c ∈ p, isDigit 16 c) (hc : ¬ isDigit 16 c)
    (hcolon : c ≠ ':') (rest : List Char) :
    (value 16 p < 2 ^ 16 ∧ c = '.' ∧ bs.length + 4 ≤ 16 ∧ inetPton4 f src > 0) ∧
        (∃ a', ptonLoop f (p ++ c :: rest) a = some a' ∧ a'.Stored (bs ++ (f src).2.bytes) ∧
          a'.sawXdigit = false ∧ a'.colonp = a.colonp) ∨
      ¬ (value 16 p < 2 ^ 16 ∧ c = '.' ∧ bs.length + 4 ≤ 16 ∧ inetPton4 f src > 0) ∧
        ptonLoop f (p ++ c :: rest) a = none := by
  have hx : xdigit c = none := by
    rw [xdigit_eq]
    exact Option.not_isSome_iff_eq_none.mp hc
  have hput : ({ a with val := value 16 p, sawXdigit := !p.isEmpty } : Pton).Stored bs :=
    ⟨ha.stored.tp, ha.stored.tmp⟩
  have hput := hput.put (f src).2.bytes
  rw [ha.digits hp, ptonLoop, hx, ← ha.stored.tp, ← ha.curtok] at *
  dsimp only
  rw [if_neg hcolon]
  by_cases hval : value 16 p < 2 ^ 16
  · by_cases hquad : c = '.' ∧ a.tp + 4 ≤ 16 ∧ inetPton4 f a.curtok > 0
    · refine .inl ⟨⟨hval, hquad⟩, _, (if_pos hval).trans (if_pos hquad), ⟨hput.tp, hput.tmp⟩, rfl,
        put_colonp _ _⟩
    · exact .inr ⟨fun h ↦ hquad h.2, (if_pos hval).trans (if_neg hquad)⟩
  · exact .inr ⟨fun h ↦ hval h.1, if_neg hval⟩

theorem Pton.At.close_quad (hf : ReadsQuads f q) (ha : a.At q bs) (hq : dottedQuad q = some addr)
    (hlen : bs.length + 4 ≤ 16) :
    ∃ a', (ptonLoop f q a).bind Pton.close = some a' ∧ a'.Stored (bs ++ addr.bytes) ∧
      a'.colonp = a.colonp := by
  obtain ⟨hret, haddr⟩ := hf q addr List.suffix_rfl hq
  obtain ⟨p, rest, rfl, hp, hplen, -⟩ := dottedQuad_shape hq
  have hval : value 16 p < 2 ^ 16 := by
    calc value 16 p < 16 ^ p.length := Numerals.value_lt (by decide)
      _ ≤ 16 ^ 4 := Nat.pow_le_pow_right (by decide) (by omega)
  rcases ha.other (f := f) (c := '.') (fun c hc ↦ isDigit_sixteen (by decide) (hp.2 c hc))
    (by decide) (by decide) rest with ⟨-, a', hrun, hstored, hsaw, hcolonp⟩ | ⟨hno, -⟩
  · rw [haddr] at hstored
    refine ⟨a', ?_, hstored, hcolonp⟩
    rw [hrun, Option.bind_some, Pton.close, hsaw]
    rfl
  · exact absurd ⟨hval, rfl, hlen, hret⟩ hno

theorem colons_cons (g : List Char) (h : gs ≠ []) : colons (g :: gs) = g ++ ':' :: colons gs := by
  rw [colons, List.intercalate_cons_of_ne_nil h, List.append_assoc]
  rfl

theorem length_groupBytes (g : List Char) : (groupBytes g).length = 2 := rfl

theorem Pton.At.close_nil (ha : a.At [] bs) : (ptonLoop f [] a).bind Pton.close = some a := by
  rw [ptonLoop, Option.bind_some, Pton.close, ha.sawXdigit]
  rfl

theorem Groups.run (hf : ReadsQuads f (colons gs)) (h : Groups lax gs bs)
    (ha : a.At (colons gs) cs) (hlen : cs.length + bs.length ≤ 16) :
    ∃ a', (ptonLoop f (colons gs) a).bind Pton.close = some a' ∧ a'.Stored (cs ++ bs) ∧
      a'.colonp = a.colonp := by
  induction h generalizing a cs with
  | nil => exact ⟨a, ha.close_nil, by simpa using ha.stored, rfl⟩
  | stray => exact ⟨a, ha.close_nil, by simpa using ha.stored, rfl⟩
  | quad hq =>
    rw [colons, List.intercalate_singleton] at ha hf ⊢
    exact ha.close_quad hf hq hlen
  | @group g gs bs hg h ih =>
    rw [List.length_append, length_groupBytes] at hlen
    by_cases hgs : gs = []
    · subst hgs
      cases h
      rw [colons, List.intercalate_singleton] at ha ⊢
      rw [List.append_nil]
      rcases ha.close_group (f := f) hg with ⟨-, hlt⟩ | ⟨-, h⟩
      · omega
      · exact h
    · rw [colons_cons g hgs] at ha hf ⊢
      have hf' := hf.suffix (List.suffix_append (':' :: g) (':' :: colons gs))
      rcases ha.group_colon (f := f) hg (colons gs) with ⟨-, hlt⟩ | ⟨-, a', hrun, hat, hcolonp⟩
      · omega
      · rw [hrun, ← hcolonp, ← List.append_assoc]
        exact ih hf' hat (by rw [List.length_append, length_groupBytes]; omega)

def prefixed (l : List (List Char)) : List Char := l.flatMap (· ++ [':'])

theorem prefixed_cons (g : List Char) (l : List (List Char)) (s : List Char) :
    prefixed (g :: l) ++ s = g ++ ':' :: (prefixed l ++ s) := by
  simp [prefixed]

theorem prefixed_append (h : l ≠ []) (s : List Char) :
    prefixed l ++ s = colons l ++ ':' :: s := by
  induction l with
  | nil => exact absurd rfl h
  | cons g l ih =>
    rw [prefixed_cons]
    by_cases hl : l = []
    · subst hl
      simp [prefixed, colons]
    · rw [ih hl, colons_cons g hl, List.append_assoc]
      rfl

theorem length_flatMap_groupBytes (l : List (List Char)) :
    (l.flatMap groupBytes).length = 2 * l.length := by
  induction l with
  | nil => rfl
  | cons g l ih =>
    rw [List.flatMap_cons, List.length_append, ih, length_groupBytes, List.length_cons]
    omega

theorem Pton.At.prefixed (ha : a.At (prefixed l ++ rest) bs) (hl : ∀ g ∈ l, IsGroup lax g)
    (hlen : bs.length + 2 * l.length ≤ 16) :
    ∃ a', ptonLoop f (prefixed l ++ rest) a = ptonLoop f rest a' ∧
      a'.At rest (bs ++ l.flatMap groupBytes) ∧ a'.colonp = a.colonp := by
  induction l generalizing a bs with
  | nil => exact ⟨a, rfl, (List.append_nil bs).symm ▸ ha, rfl⟩
  | cons g l ih =>
    rw [prefixed_cons] at ha ⊢
    rw [List.length_cons] at hlen
    rcases ha.group_colon (f := f) (hl g List.mem_cons_self) (Net.prefixed l ++ rest) with
      ⟨-, hlt⟩ | ⟨-, a', hrun, hat, hcolonp⟩
    · omega
    · rw [hrun, ← hcolonp, List.flatMap_cons, ← List.append_assoc]
      refine ih hat (fun g hg ↦ hl g (List.mem_cons_of_mem _ hg)) ?_
      rw [List.length_append, length_groupBytes]
      omega

theorem IsGroup.head? (hg : IsGroup lax g) (s : List Char) : (g ++ s).head? ≠ some ':' := by
  obtain ⟨c, g, rfl⟩ := List.exists_cons_of_ne_nil hg.1.1
  rw [List.cons_append, List.head?_cons, ne_eq, Option.some_inj]
  rintro rfl
  exact absurd (hg.1.2 ':' List.mem_cons_self) (by decide)

theorem Groups.head? (h : Groups lax gs bs) : (colons gs).head? ≠ some ':' := by
  cases h with
  | nil => simp [colons]
  | stray => simp [colons]
  | @quad q a hq =>
    rw [colons, List.intercalate_singleton]
    intro hhead
    exact colon_notMem hq (List.mem_of_mem_head? hhead)
  | @group g gs bs hg h =>
    by_cases hgs : gs = []
    · subst hgs
      have hhead := hg.head? []
      rw [List.append_nil] at hhead
      rwa [colons, List.intercalate_singleton]
    · rw [colons_cons g hgs]
      exact hg.head? _

theorem leading_of_head? (h : s.head? ≠ some ':') : leading s = some s := if_neg h

theorem leading_short (hl : ∀ g ∈ l, IsGroup lax g) (s : List Char) :
    leading (colons l ++ ':' :: ':' :: s) = some (prefixed l ++ ':' :: s) := by
  cases l with
  | nil => rfl
  | cons g l =>
    rw [prefixed_append (List.cons_ne_nil g l)]
    apply leading_of_head?
    by_cases hl' : l = []
    · subst hl'
      rw [colons, List.intercalate_singleton]
      exact (hl g List.mem_cons_self).head? _
    · rw [colons_cons g hl', List.append_assoc]
      exact (hl g List.mem_cons_self).head? _

/-- The loop that moves bytes to the end, after `i` turns, if they do not stand there already. -/
theorem shift_eq (tmp : ℕ → UInt8) {c n i : ℕ} (hi : i ≤ n) (hlt : c + n < 16) (j : ℕ) :
    shift tmp c n i j = if 16 - i ≤ j ∧ j < 16 then tmp (j - (16 - (c + n)))
      else if c + n - i ≤ j ∧ j < c + n then 0 else tmp j := by
  induction i generalizing j with
  | zero =>
    rw [if_neg (by omega), if_neg (by omega)]
    rfl
  | succ i ih =>
    have hi' : i ≤ n := Nat.le_of_succ_le hi
    have hsize : NS_IN6ADDRSZ = 16 := rfl
    rw [shift, hsize]
    by_cases hc : j = c + (n - (i + 1))
    · rw [← hc, update_self, if_neg (by omega), if_pos (by omega)]
    · rw [update_of_ne hc]
      by_cases hend : j = 16 - (i + 1)
      · rw [← hend, update_self, ih hi', if_neg (by omega), if_neg (by omega), if_pos (by omega)]
        exact congrArg tmp (by omega)
      · rw [update_of_ne hend, ih hi']
        have hfirst : (16 - i ≤ j ∧ j < 16) ↔ 16 - (i + 1) ≤ j ∧ j < 16 := by omega
        have hzero : (c + n - i ≤ j ∧ j < c + n) ↔ c + n - (i + 1) ≤ j ∧ j < c + n := by omega
        simp only [hfirst, hzero]

theorem Pton.Stored.expand (h : a.Stored (cs ++ bs)) (hc : a.colonp = some cs.length)
    (hlen : cs.length + bs.length < 16) (j : ℕ) (hj : j < 16) :
    a.expand.tmp j = (cs ++ List.replicate (16 - cs.length - bs.length) 0 ++ bs).getD j 0 := by
  have htp : a.tp - cs.length = bs.length := by rw [h.tp, List.length_append]; omega
  have hexpand : a.expand.tmp = shift a.tmp cs.length bs.length bs.length := by
    rw [Pton.expand, hc]
    simp only [htp]
  rw [hexpand, shift_eq a.tmp le_rfl hlen, h.tmp, h.tmp, List.append_assoc]
  rcases Nat.lt_or_ge j cs.length with hcs | hcs
  · rw [if_neg (by omega), if_neg (by omega), List.getD_append _ _ _ _ hcs,
      List.getD_append _ _ _ _ hcs]
  · rw [List.getD_append_right cs (_ ++ bs) _ _ hcs]
    rcases Nat.lt_or_ge j (16 - bs.length) with hzero | hbs
    · have hright : (List.replicate (16 - cs.length - bs.length) (0 : UInt8) ++ bs).getD
          (j - cs.length) 0 = 0 := by
        rw [List.getD_append _ _ _ _ (by rw [List.length_replicate]; omega),
          List.getD_replicate _ (by omega)]
      rw [if_neg (by omega), hright]
      split
      · rfl
      · exact List.getD_eq_default _ _ (by rw [List.length_append]; omega)
    · rw [if_pos ⟨hbs, hj⟩, List.getD_append_right _ _ _ _ (by omega),
        List.getD_append_right _ _ _ _ (by rw [List.length_replicate]; omega),
        List.length_replicate]
      exact congrArg (bs.getD · 0) (by omega)

theorem Pton.at_start (src : List Char) : ({ curtok := src } : Pton).At src [] :=
  ⟨⟨rfl, fun _ ↦ rfl⟩, rfl, rfl, rfl⟩

theorem Ipv6.accepted (hf : ReadsQuads f s) (h : Ipv6 lax s bs) :
    ∃ a, ((leading s).bind fun src ↦ (ptonLoop f src { curtok := src }).bind Pton.close) = some a ∧
      a.expand.tp = 16 ∧ (lax = false → ∀ i, i < 16 → a.expand.tmp i = bs.getD i 0) := by
  cases h with
  | @full gs bs h hlen =>
    obtain ⟨a, hrun, hstored, hcolonp⟩ := h.run hf (Pton.at_start _) (by simp [hlen])
    have hexpand : a.expand = a := by
      rw [Pton.expand, hcolonp]
    refine ⟨a, ?_, ?_, fun _ i _ ↦ ?_⟩
    · rw [leading_of_head? h.head?, Option.bind_some, hrun]
    · rw [hexpand, hstored.tp, List.nil_append, hlen]
    · rw [hexpand, hstored.tmp, List.nil_append]
  | @short l r bs hl h hlen =>
    have hle : 2 * l.length + bs.length ≤ 16 := hlen.trans (by split <;> omega)
    obtain ⟨a, hrun, hat, hcolonp⟩ := (Pton.at_start (prefixed l ++ ':' :: colons r)).prefixed
      (f := f) hl (by rw [List.length_nil]; omega)
    have hat' : ({ a with curtok := colons r, colonp := some a.tp } : Pton).At (colons r)
        (l.flatMap groupBytes) := ⟨⟨hat.stored.tp, hat.stored.tmp⟩, rfl, hat.sawXdigit, hat.val⟩
    have hf' : ReadsQuads f (colons r) := hf.suffix ⟨':' :: (colons l ++ [':']), by simp⟩
    obtain ⟨a', hrun', hstored, hcolonp'⟩ := h.run hf' hat' (by
      rw [length_flatMap_groupBytes]
      exact hle)
    refine ⟨a', ?_, ?_, fun hlax i hi ↦ ?_⟩
    · rw [leading_short hl, Option.bind_some, hrun, hat.colon, hcolonp]
      exact hrun'
    · rw [Pton.expand, hcolonp']
      rfl
    · subst hlax
      have hlen' : 2 * l.length + bs.length ≤ 14 := hlen
      have hcolonp' : a'.colonp = some (l.flatMap groupBytes).length :=
        hcolonp'.trans (congrArg some hat.stored.tp)
      rw [hstored.expand hcolonp' (by rw [length_flatMap_groupBytes]; omega) i hi,
        length_flatMap_groupBytes]

inductive Parsed (a : Pton) (src : List Char) (a' : Pton) : Prop
  | groups {gs : List (List Char)} {cs : List UInt8} (hne : gs ≠ []) (heq : src = colons gs)
    (h : Groups true gs cs) (htp : a'.tp = a.tp + cs.length) (hcolonp : a'.colonp = a.colonp)
  | short {l r : List (List Char)} {cs : List UInt8} (hnone : a.colonp = none)
    (heq : src = prefixed l ++ ':' :: colons r) (hl : ∀ g ∈ l, IsGroup true g)
    (h : Groups true r cs) (htp : a'.tp = a.tp + 2 * l.length + cs.length)
    (hsome : a'.colonp.isSome)

theorem Parsed.colon {a₁ : Pton} (h : Parsed a₁ rest a') (htp : a₁.tp = a.tp)
    (hsome : a₁.colonp.isSome) (hnone : a.colonp = none) : Parsed a (':' :: rest) a' := by
  cases h with
  | @groups gs cs _ heq h htp' hcolonp =>
    refine .short (l := []) hnone (congrArg (':' :: ·) heq) (by simp) h ?_ (hcolonp ▸ hsome)
    rw [htp', htp]
    rfl
  | short hnone' =>
    rw [hnone'] at hsome
    cases hsome

theorem Parsed.group {a₁ : Pton} (h : Parsed a₁ rest a') (hg : IsGroup true g)
    (htp : a₁.tp = a.tp + 2) (hcolonp : a₁.colonp = a.colonp) :
    Parsed a (g ++ ':' :: rest) a' := by
  cases h with
  | @groups gs cs hne heq h htp' hcolonp' =>
    refine .groups (List.cons_ne_nil g gs) ?_ (.group hg h) ?_ (hcolonp'.trans hcolonp)
    · rw [heq, colons_cons g hne]
    · rw [htp', htp, List.length_append, length_groupBytes, Nat.add_assoc]
  | @short l r cs hnone heq hl h htp' hsome =>
    refine .short (l := g :: l) (hcolonp ▸ hnone) ?_ (List.forall_mem_cons.mpr ⟨hg, hl⟩) h ?_ hsome
    · rw [heq, prefixed_cons]
    · rw [htp', htp, List.length_cons]
      omega

theorem exists_digits (src : List Char) : ∃ g rest, src = g ++ rest ∧ (∀ c ∈ g, isDigit 16 c) ∧
    ∀ c ∈ rest.head?, ¬ isDigit 16 c := by
  refine ⟨src.takeWhile (isDigit 16), src.dropWhile (isDigit 16),
    List.takeWhile_append_dropWhile.symm, fun c hc ↦ List.mem_takeWhile_imp hc, fun c hc ↦ ?_⟩
  have h := List.head?_dropWhile_not (isDigit 16) src
  rw [Option.mem_def.mp hc] at h
  simpa using h

theorem Pton.At.isGroup (ha : a.At src bs) (hg : ∀ c ∈ g, isDigit 16 c) (hne : g ≠ [])
    (rest : List Char) (hrun : (ptonLoop f (g ++ rest) a).bind Pton.close = some a') :
    IsGroup true g := by
  refine ⟨⟨hne, hg⟩, ?_⟩
  by_contra hval
  rw [ha.digits hg, if_neg (show ¬ value 16 g < 2 ^ 16 from hval)] at hrun
  cases hrun

theorem Pton.At.parsed_last (ha : a.At g bs) (hlen : bs.length ≤ 16)
    (hg : ∀ c ∈ g, isDigit 16 c) (hrun : (ptonLoop f g a).bind Pton.close = some a') :
    Parsed a g a' ∧ a'.tp ≤ 16 := by
  by_cases hnil : g = []
  · subst hnil
    cases hrun.symm.trans ha.close_nil
    exact ⟨.groups (List.cons_ne_nil [] []) rfl (.stray rfl) rfl rfl, ha.stored.tp ▸ hlen⟩
  · have hgroup := ha.isGroup hg hnil [] (by rwa [List.append_nil])
    rcases ha.close_group (f := f) hgroup with ⟨hnone, -⟩ | ⟨hle, a₁, hrun₁, hstored, hcolonp⟩
    · rw [hnone] at hrun
      cases hrun
    · cases hrun.symm.trans hrun₁
      have htp := hstored.tp
      rw [List.length_append, length_groupBytes, ← ha.stored.tp] at htp
      have hle' := ha.stored.tp
      refine ⟨.groups (List.cons_ne_nil g []) ?_ (.group hgroup .nil) htp hcolonp, by omega⟩
      rw [colons, List.intercalate_singleton]

theorem Pton.At.parsed_quad (hf : AcceptsQuads f) (ha : a.At (g ++ c :: rest) bs)
    (hg : ∀ c ∈ g, isDigit 16 c) (hc : ¬ isDigit 16 c) (hcolon : c ≠ ':')
    (hrun : (ptonLoop f (g ++ c :: rest) a).bind Pton.close = some a') :
    Parsed a (g ++ c :: rest) a' ∧ a'.tp ≤ 16 := by
  rcases ha.other (f := f) hg hc hcolon rest with
    ⟨⟨-, -, hle, hret⟩, a₁, hrun₁, hstored, hsaw, hcolonp⟩ | ⟨-, hnone⟩
  · have hquad := (acceptsQuads_iff hf).mp ⟨hret, rfl⟩
    have htp := hstored.tp
    rw [hrun₁, Option.bind_some, Pton.close, hsaw] at hrun
    cases hrun
    rw [List.length_append, ← ha.stored.tp] at htp
    have hbytes : (f (g ++ c :: rest)).2.bytes.length = 4 := rfl
    have hle' := ha.stored.tp
    refine ⟨.groups (List.cons_ne_nil _ []) ?_ (.quad hquad) htp hcolonp, by omega⟩
    rw [colons, List.intercalate_singleton]
  · rw [hnone] at hrun
    cases hrun

theorem Pton.At.parsed (hf : AcceptsQuads f) (ha : a.At src bs) (hlen : bs.length ≤ 16)
    (hrun : (ptonLoop f src a).bind Pton.close = some a') : Parsed a src a' ∧ a'.tp ≤ 16 := by
  induction hn : src.length using Nat.strong_induction_on generalizing src a bs with
  | h n ih =>
    obtain ⟨g, rest, rfl, hg, hrest⟩ := exists_digits src
    cases rest with
    | nil =>
      rw [List.append_nil] at ha hrun ⊢
      exact ha.parsed_last hlen hg hrun
    | cons c rest =>
      have hc := hrest c rfl
      by_cases hcolon : c = ':'
      · subst hcolon
        by_cases hnil : g = []
        · subst hnil
          rw [List.nil_append] at ha hrun ⊢
          rw [ha.colon] at hrun
          by_cases hsome : a.colonp.isSome
          · rw [if_pos hsome] at hrun
            cases hrun
          · rw [if_neg hsome] at hrun
            have hat : ({ a with curtok := rest, colonp := some a.tp } : Pton).At rest bs :=
              ⟨⟨ha.stored.tp, ha.stored.tmp⟩, rfl, ha.sawXdigit, ha.val⟩
            obtain ⟨h, hle⟩ := ih rest.length (by simp [← hn]) hat hlen hrun rfl
            exact ⟨h.colon rfl rfl (Option.not_isSome_iff_eq_none.mp hsome), hle⟩
        · have hgroup := ha.isGroup hg hnil _ hrun
          rcases ha.group_colon (f := f) hgroup rest with
            ⟨hnone, -⟩ | ⟨hle, a₁, hrun₁, hat, hcolonp⟩
          · rw [hnone] at hrun
            cases hrun
          · rw [hrun₁] at hrun
            have htp := hat.stored.tp
            rw [List.length_append, length_groupBytes, ← ha.stored.tp] at htp
            obtain ⟨h, hle'⟩ := ih rest.length (by simp [← hn]; omega) hat
              (by rwa [List.length_append, length_groupBytes]) hrun rfl
            exact ⟨h.group hgroup htp hcolonp, hle'⟩
      · exact ha.parsed_quad hf hg hc hcolon hrun

theorem exists_ipv6 (hf : AcceptsQuads f)
    (h : ((leading s).bind fun src ↦ (ptonLoop f src { curtok := src }).bind Pton.close) = some a)
    (htp : a.expand.tp = 16) : ∃ bs, Ipv6 true s bs := by
  obtain ⟨src, hlead, hrun⟩ := Option.bind_eq_some_iff.mp h
  obtain ⟨hparsed, hle⟩ := (Pton.at_start src).parsed hf (by decide) hrun
  unfold leading at hlead
  split at hlead
  · next hhead =>
    split at hlead
    · cases hlead
    · next hhead' =>
      cases hlead
      cases hparsed with
      | groups _ heq hgroups =>
        rw [heq] at hhead'
        exact absurd hhead' (fun h ↦ h hgroups.head?)
      | @short l r cs _ heq hl hgroups htp' =>
        obtain ⟨s, rfl⟩ := List.head?_eq_some_iff.mp hhead
        cases l with
        | nil =>
          have hs : s = ':' :: colons r := heq
          subst hs
          rw [htp'] at hle
          exact ⟨_, Ipv6.short (l := []) (by simp) hgroups (by simpa using hle)⟩
        | cons g l =>
          rw [heq, prefixed_cons] at hhead'
          exact absurd ((hl g List.mem_cons_self).head? _) hhead'
  · next hhead =>
    cases hlead
    cases hparsed with
    | @groups gs cs _ heq hgroups htp' hcolonp =>
      rw [Pton.expand, hcolonp, htp', Nat.zero_add] at htp
      exact ⟨cs, heq ▸ .full hgroups htp⟩
    | @short l r cs _ heq hl hgroups htp' =>
      have hne : l ≠ [] := by
        rintro rfl
        exact hhead (congrArg List.head? heq)
      rw [prefixed_append hne] at heq
      subst heq
      rw [htp'] at hle
      exact ⟨_, .short hl hgroups (by simpa using hle)⟩

theorem Ipv6.length (h : Ipv6 lax s bs) : bs.length = 16 := by
  cases h with
  | full h hlen => exact hlen
  | @short l r bs hl h hlen =>
    have hle : 2 * l.length + bs.length ≤ 16 := hlen.trans (by split <;> omega)
    rw [List.length_append, List.length_append, length_flatMap_groupBytes, List.length_replicate]
    omega

theorem map_range_eq {t : ℕ → UInt8} (hlen : bs.length = n) (h : ∀ i, i < n → t i = bs.getD i 0) :
    (List.range n).map t = bs := by
  apply List.ext_getElem (by simp [hlen])
  intro i hi hi'
  rw [List.getElem_map, List.getElem_range, h i (hlen ▸ hi'), List.getD_eq_getElem _ _ hi']

theorem inetPton_of_ipv6 (hf : ReadsQuads f s) (h : Ipv6 lax s bs) (dst : ℕ → UInt8) :
    (inetPton f .AF_INET6 s dst).ret = 1 ∧ (lax = false →
      (List.range 16).map (inetPton f .AF_INET6 s dst).dst = bs ∧
        ∀ i, 16 ≤ i → (inetPton f .AF_INET6 s dst).dst i = dst i) := by
  obtain ⟨a, hrun, htp, htmp⟩ := h.accepted hf
  have hret : inetPton f .AF_INET6 s dst =
      { ret := 1, dst := fun i ↦ if i < 16 then a.expand.tmp i else dst i } := by
    simp only [inetPton, inetPton6, hrun]
    exact if_neg (not_not.mpr htp)
  rw [hret]
  refine ⟨rfl, fun hlax ↦ ⟨map_range_eq h.length fun i hi ↦ ?_, fun i hi ↦ ?_⟩⟩
  · exact (if_pos hi).trans (htmp hlax i hi)
  · exact if_neg (Nat.not_lt.mpr hi)

theorem inetPton_of_not_ipv6 (hf : AcceptsQuads f) (h : ¬ ∃ bs, Ipv6 true s bs)
    (dst : ℕ → UInt8) : inetPton f .AF_INET6 s dst = { ret := 0, dst := dst } := by
  simp only [inetPton, inetPton6]
  split
  · rfl
  · next a hrun => exact if_pos fun htp ↦ h (exists_ipv6 hf hrun htp)

/-- `inet_pton` is right about a text of the lax form if this has the strict one, too, and about
any other text. -/
theorem ptonExact_iff (f : List Char → ℤ × InAddr) (hf : AcceptsQuads f) (s : List Char) :
    PtonExact f s ↔ ((∃ bs, Ipv6 true s bs) → ∃ bs, Ipv6 false s bs) := by
  constructor
  · intro h ⟨bs, hbs⟩
    exact (h fun _ ↦ 0).1.mp (inetPton_of_ipv6 (hf.reads s) hbs _).1
  · intro h dst
    refine ⟨⟨fun hret ↦ h ?_, fun ⟨bs, hbs⟩ ↦ (inetPton_of_ipv6 (hf.reads s) hbs dst).1⟩,
      fun bs hbs ↦ (inetPton_of_ipv6 (hf.reads s) hbs dst).2 rfl, fun hret ↦ ?_⟩
    · by_contra hno
      rw [inetPton_of_not_ipv6 hf hno] at hret
      cases hret
    · refine inetPton_of_not_ipv6 hf (fun ⟨bs, hbs⟩ ↦ hret ?_) dst
      exact (inetPton_of_ipv6 (hf.reads s) hbs dst).1

def quadsOnly (s : List Char) : ℤ × InAddr :=
  ((dottedQuad s).elim 0 fun _ ↦ 1, (dottedQuad s).getD ⟨0, 0, 0, 0⟩)

theorem acceptsQuads_quadsOnly : AcceptsQuads quadsOnly := by
  intro s
  cases h : dottedQuad s <;> simp [quadsOnly, h]

theorem ptonExact_loopback : PtonExact quadsOnly [':', ':', '1'] :=
  (ptonExact_iff quadsOnly acceptsQuads_quadsOnly [':', ':', '1']).mpr fun _ ↦
    ⟨_, Ipv6.short (l := []) (r := [['1']]) (by simp) (.group (by decide) .nil) (by decide)⟩

theorem not_ipv6_digits (h : Ipv6 false s bs) : s ≠ [':', ':', '0', '0', '0', '0', '1'] := by
  intro heq
  cases h with
  | full h =>
    have hhead := h.head?
    rw [heq] at hhead
    exact hhead rfl
  | @short l r bs hl h =>
    have hlead := leading_short hl (colons r)
    rw [heq] at hlead
    have hsrc : [':', '0', '0', '0', '0', '1'] = prefixed l ++ ':' :: colons r :=
      Option.some.inj hlead
    cases l with
    | cons g l =>
      rw [prefixed_cons] at hsrc
      exact (hl g List.mem_cons_self).head? _ (congrArg List.head? hsrc).symm
    | nil =>
      have hr : colons r = ['0', '0', '0', '0', '1'] := (List.cons.inj hsrc).2.symm
      cases h with
      | nil => cases hr
      | quad hq =>
        rw [colons, List.intercalate_singleton] at hr
        rw [hr] at hq
        cases (rfl : dottedQuad ['0', '0', '0', '0', '1'] = none).symm.trans hq
      | stray h => cases h
      | @group g gs bs hg h =>
        by_cases hgs : gs = []
        · rw [hgs, colons, List.intercalate_singleton] at hr
          rw [hr] at hg
          exact absurd hg.2 (by decide)
        · rw [colons_cons g hgs] at hr
          have hmem : ':' ∈ ['0', '0', '0', '0', '1'] := hr ▸ by simp
          exact absurd hmem (by decide)

theorem ptonExact_digits : ¬ PtonExact quadsOnly [':', ':', '0', '0', '0', '0', '1'] := by
  intro h
  have hlax : Ipv6 true [':', ':', '0', '0', '0', '0', '1'] _ :=
    Ipv6.short (l := []) (r := [['0', '0', '0', '0', '1']]) (by simp)
      (.group (by decide) .nil) (by decide)
  have hreads := acceptsQuads_quadsOnly.reads [':', ':', '0', '0', '0', '0', '1']
  obtain ⟨bs, hbs⟩ := (h fun _ ↦ 0).1.mp (inetPton_of_ipv6 hreads hlax _).1
  exact not_ipv6_digits hbs rfl

end

end SceLibcPosix.Net
