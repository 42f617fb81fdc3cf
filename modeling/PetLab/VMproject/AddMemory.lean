import PetLab.VMproject.BuddyRuns

/-!
# `ADD_MEMORY`

`petmem_ioctl` with `ADD_MEMORY`: a range of pages, cut into pools whose sizes are the bits of the number of
pages, the highest one first. The number is kept in a `u32`, the size of a pool in pages is an `int`,
`0x1 << (reg_order - 1)`, and it is added to an `unsigned long`.

The pools are apart and cover the range as long as it has no more than `2 ^ 31` pages (`addMemory_covers_iff`). In a
larger range, either the number of pages is cut to its lower bits, or its highest bit is bit `31`: then the
`int` is negative, and the address goes down by `2 ^ 43` instead of up.

## The model

`__va` adds `PAGE_OFFSET`, a parameter `po`. An `int` that is shifted is the value that the `shl` instruction
computes, with the count taken modulo `32`. The list of pools has the newest first. The loop is a recursive function
on the number of pages, so that it ends is part of its definition.
-/

namespace PetLab.VMproject

open PetLab.Lib BuddyMempool

/-- `struct memory_range`. -/
structure MemoryRange where
  baseAddr : ℕ
  pages : ℕ

/-- `__va`. -/
def va (po paddr : ℕ) : ℕ := ulAdd paddr po

/-- `__pa`. -/
def pa (po vaddr : ℕ) : ℕ := ulSub vaddr po

/-- `fls` of a 32-bit number: the highest bit set, counted from `1`. -/
def fls (x : ℕ) : ℕ := if x % 2 ^ 32 = 0 then 0 else (x % 2 ^ 32).log2 + 1

/-- `0x1 << n`, an `int`. -/
def intShl (n : ℕ) : ℤ := if n % 32 = 31 then -2 ^ 31 else 2 ^ (n % 32)

/-- An `int` as an `unsigned long`. -/
def intToUl (i : ℤ) : ℕ := (i % 2 ^ 64).toNat

/-- `n - i`, for a `u32` and an `int`. -/
def u32Sub (n : ℕ) (i : ℤ) : ℕ := ((n - i) % 2 ^ 32).toNat

theorem fls_eq {n : ℕ} (hn : n ≠ 0) (hlt : n < 2 ^ 32) : fls n = n.log2 + 1 := by
  rw [fls, Nat.mod_eq_of_lt hlt, if_neg hn]

/-- The highest bit is taken off. -/
theorem u32Sub_intShl {n : ℕ} (hn : n ≠ 0) (hlt : n < 2 ^ 32) : u32Sub n (intShl n.log2) = n - 2 ^ n.log2 := by
  have hle : 2 ^ n.log2 ≤ n := Nat.log2_self_le hn
  have hk : n.log2 < 32 := (Nat.log2_lt hn).mpr hlt
  unfold u32Sub intShl
  rw [Nat.mod_eq_of_lt hk]
  by_cases h31 : n.log2 = 31
  · rw [if_pos h31]
    rw [h31] at hle ⊢
    omega
  · rw [if_neg h31]
    have hpos := Nat.two_pow_pos n.log2
    have hcast : ((2 ^ n.log2 : ℕ) : ℤ) = 2 ^ n.log2 := by push_cast; rfl
    omega

/-- The loop over the pools of a range, with the pools there are. -/
def addLoop (links : Links ListHead) (order : ℕ → ℕ) (baseAddr numPages : ℕ) (pools : List BuddyMempool) :
    Option (List BuddyMempool) :=
  if fls numPages = 0 then some pools
  else
    match buddyInit links order baseAddr (fls numPages + 12 - 1) 12 with
    | none => some pools
    | some mp =>
      (mp.buddyFree baseAddr (fls numPages + 12 - 1)).bind fun mp =>
        addLoop links order (ulAdd baseAddr (intToUl (intShl (fls numPages - 1)) * 4096 % 2 ^ 64))
          (u32Sub numPages (intShl (fls numPages - 1))) (mp :: pools)
termination_by numPages
decreasing_by
  by_cases hlt : numPages < 2 ^ 32
  · have hn : numPages ≠ 0 := by
      rintro rfl
      simp_all [fls]
    rw [fls_eq hn hlt, Nat.add_sub_cancel, u32Sub_intShl hn hlt]
    have := Nat.two_pow_pos numPages.log2
    omega
  · unfold u32Sub
    omega

/-- `ADD_MEMORY`, over memory that holds anything. -/
def addMemory (links : Links ListHead) (order : ℕ → ℕ) (po : ℕ) (reg : MemoryRange) (pools : List BuddyMempool) :
    Option (List BuddyMempool) :=
  addLoop links order (va po reg.baseAddr) (reg.pages % 2 ^ 32) pools

/-! ### One pool -/

section

variable {links : Links ListHead} {order : ℕ → ℕ} {base n : ℕ} {pools : List BuddyMempool}

theorem addLoop_zero : addLoop links order base 0 pools = some pools := by
  rw [addLoop, if_pos (by decide)]

theorem addLoop_step (hn : n ≠ 0) (hlt : n < 2 ^ 32) :
    ∃ mp, buddyInit links order base (n.log2 + 12) 12 = some mp ∧ mp.baseAddr = base ∧ mp.poolOrder = n.log2 + 12 ∧
      mp.minOrder = 12 ∧ addLoop links order base n pools = (mp.buddyFree base (n.log2 + 12)).bind fun mp =>
        addLoop links order (ulAdd base (intToUl (intShl n.log2) * 4096 % 2 ^ 64)) (n - 2 ^ n.log2) (mp :: pools) := by
  have hmin : ¬ ulShl 12 < sizeofBlock := by decide
  have hle : ¬ 12 > n.log2 + 12 := by omega
  obtain ⟨mp, hmp⟩ : ∃ mp, buddyInit links order base (n.log2 + 12) 12 = some mp := by
    unfold buddyInit
    simp only [if_neg hmin, if_neg hle, Option.some.injEq, exists_eq']
  have hfields : mp.baseAddr = base ∧ mp.poolOrder = n.log2 + 12 ∧ mp.minOrder = 12 := by
    unfold buddyInit at hmp
    simp only [if_neg hmin, if_neg hle, Option.some.injEq] at hmp
    subst hmp
    exact ⟨rfl, rfl, rfl⟩
  refine ⟨mp, hmp, hfields.1, hfields.2.1, hfields.2.2, ?_⟩
  have hord : n.log2 + 1 + 12 - 1 = n.log2 + 12 := by omega
  rw [addLoop, fls_eq hn hlt, if_neg (Nat.succ_ne_zero _), hord, Nat.add_sub_cancel, hmp, u32Sub_intShl hn hlt]

/-- The pool a whole block is given back to stays where it is. -/
theorem buddyFree_whole {mp mp' : BuddyMempool} {addr : ℕ} (hmin : mp.minOrder ≤ mp.poolOrder)
    (h : mp.buddyFree addr mp.poolOrder = some mp') : mp'.baseAddr = mp.baseAddr ∧ mp'.poolOrder = mp.poolOrder := by
  have hfix : mp.fixup mp.poolOrder = mp.poolOrder := by
    rw [fixup, if_neg (by omega)]
  rw [buddyFree, if_neg (lt_irrefl _), hfix, Nat.sub_self] at h
  obtain ⟨available, -, h⟩ := Option.bind_eq_some_iff.mp h
  cases available with
  | true => exact absurd h (by simp)
  | false =>
    simp only [coalesce, Bool.false_eq_true, if_false, Option.bind_some] at h
    obtain ⟨mp₁, hmark, rfl⟩ := Option.map_eq_some_iff.mp h
    obtain ⟨id, -, rfl⟩ := Option.map_eq_some_iff.mp hmark
    exact ⟨rfl, rfl⟩

/-- Below `2 ^ 31` pages, the address goes on behind the pool. -/
theorem next_base {k : ℕ} (hk : k < 31) :
    ulAdd base (intToUl (intShl k) * 4096 % 2 ^ 64) = (base + 4096 * 2 ^ k) % 2 ^ 64 := by
  have hpow : 2 ^ k ≤ 2 ^ 30 := Nat.pow_le_pow_right (by decide) (by omega)
  have hint : intToUl (intShl k) = 2 ^ k := by
    have hcast : ((2 ^ k : ℕ) : ℤ) = 2 ^ k := by push_cast; rfl
    have hpos := Nat.two_pow_pos k
    unfold intToUl intShl
    rw [Nat.mod_eq_of_lt (by omega), if_neg (by omega), ← hcast]
    omega
  rw [hint, ulAdd, Nat.mod_eq_of_lt (by omega : 2 ^ k * 4096 < 2 ^ 64), Nat.mul_comm]

/-- At `2 ^ 31` pages, the `int` is negative. -/
theorem next_base_top : ulAdd base (intToUl (intShl 31) * 4096 % 2 ^ 64) = (base + (2 ^ 64 - 2 ^ 43)) % 2 ^ 64 := by
  have hint : intToUl (intShl 31) * 4096 % 2 ^ 64 = 2 ^ 64 - 2 ^ 43 := by decide
  rw [hint, ulAdd]

/-! ### The loop -/

/-- The pools are apart, cover the range from `start` on and nothing else, and each is one free block. -/
structure PoolsCover (start len : ℕ) (pools : List BuddyMempool) : Prop where
  apart : pools.Pairwise fun p q =>
    p.baseAddr + 2 ^ p.poolOrder ≤ q.baseAddr ∨ q.baseAddr + 2 ^ q.poolOrder ≤ p.baseAddr
  cover : ∀ x, (∃ p ∈ pools, p.baseAddr ≤ x ∧ x < p.baseAddr + 2 ^ p.poolOrder) ↔ start ≤ x ∧ x < start + len
  whole : ∀ p ∈ pools, p.freeBlocks = {⟨0, p.poolOrder⟩}

/-- Each pool lies in the range. -/
theorem PoolsCover.inside {start len : ℕ} (h : PoolsCover start len pools) {p : BuddyMempool} (hp : p ∈ pools) :
    start ≤ p.baseAddr ∧ p.baseAddr + 2 ^ p.poolOrder ≤ start + len := by
  have hpos := Nat.two_pow_pos p.poolOrder
  have hfirst := (h.cover p.baseAddr).mp ⟨p, hp, le_rfl, by omega⟩
  have hlast := (h.cover (p.baseAddr + 2 ^ p.poolOrder - 1)).mp ⟨p, hp, by omega, by omega⟩
  omega

/-- A pool before a range that is covered. -/
theorem PoolsCover.snoc {start len : ℕ} {mp : BuddyMempool} (h : PoolsCover (start + 2 ^ mp.poolOrder) len pools)
    (hbase : mp.baseAddr = start) (hwhole : mp.freeBlocks = {⟨0, mp.poolOrder⟩}) :
    PoolsCover start (2 ^ mp.poolOrder + len) (pools ++ [mp]) where
  apart := by
    refine List.pairwise_append.mpr ⟨h.apart, List.pairwise_singleton _ _, fun p hp q hq => .inr ?_⟩
    obtain rfl := List.mem_singleton.mp hq
    have := (h.inside hp).1
    omega
  cover := by
    intro x
    have hx := h.cover x
    have hpos := Nat.two_pow_pos mp.poolOrder
    constructor
    · rintro ⟨p, hp, hpx⟩
      rcases List.mem_append.mp hp with hp | hp
      · have := hx.mp ⟨p, hp, hpx⟩
        omega
      · obtain rfl := List.mem_singleton.mp hp
        omega
    · intro hlt
      by_cases hin : x < start + 2 ^ mp.poolOrder
      · exact ⟨mp, by simp, by omega, by omega⟩
      · obtain ⟨p, hp, hpx⟩ := hx.mpr (by omega)
        exact ⟨p, by simp [hp], hpx⟩
  whole := by
    intro p hp
    rcases List.mem_append.mp hp with hp | hp
    · exact h.whole p hp
    · obtain rfl := List.mem_singleton.mp hp
      exact hwhole

theorem poolsCover_nil (start : ℕ) : PoolsCover start 0 [] where
  apart := .nil
  cover := by
    intro x
    simp
  whole := fun p hp => absurd hp List.not_mem_nil

/-- A pool of pages with nothing outstanding. -/
def NewPool (mp : BuddyMempool) : Prop := ∃ r L, r.minOrder = 12 ∧ PoolInv r ⟨mp, []⟩ L

/-- **Up to `2 ^ 31` pages, the range is covered.** -/
theorem addLoop_covers (hn : n ≤ 2 ^ 31) (hbase : 0 < base) (hend : base + 4096 * n ≤ 2 ^ 64) :
    ∃ new, addLoop links order base n pools = some (new ++ pools) ∧ PoolsCover base (4096 * n) new ∧
      ∀ mp ∈ new, NewPool mp := by
  induction n using Nat.strongRecOn generalizing base pools with
  | ind n ih =>
    by_cases h0 : n = 0
    · subst h0
      exact ⟨[], addLoop_zero, poolsCover_nil base, fun mp hmp => absurd hmp List.not_mem_nil⟩
    have hle : 2 ^ n.log2 ≤ n := Nat.log2_self_le h0
    have hpos := Nat.two_pow_pos n.log2
    have hsize : 2 ^ (n.log2 + 12) = 4096 * 2 ^ n.log2 := by rw [Nat.pow_add, Nat.mul_comm]
    -- the pool is one free block
    obtain ⟨mp, hinit, -, -, -, hloop⟩ := @addLoop_step links order base n pools h0 (by omega)
    let r : PoolRange := ⟨base, n.log2 + 12, 12, hbase, by omega, by omega, by omega⟩
    obtain ⟨mp', L, hnew, hinv⟩ := newPool_spec r links order
    have hfree : mp.buddyFree base (n.log2 + 12) = some mp' := by
      rw [newPool, hinit, Option.bind_some] at hnew
      obtain ⟨mp'', h₁, h₂⟩ := Option.map_eq_some_iff.mp hnew
      rw [h₁, (PoolState.mk.inj h₂).1]
    have hwhole : mp'.freeBlocks = {⟨0, mp'.poolOrder⟩} := by
      rw [hinv.freeBlocks_eq, hinv.free_of_nil rfl, hinv.shape.poolOrder]
    have hord : mp'.poolOrder = n.log2 + 12 := hinv.shape.poolOrder
    rw [hfree, Option.bind_some] at hloop
    -- and the rest of the range lies behind it
    obtain ⟨new, hrest, hcover, hinvs⟩ : ∃ new,
        addLoop links order (ulAdd base (intToUl (intShl n.log2) * 4096 % 2 ^ 64)) (n - 2 ^ n.log2) (mp' :: pools) =
          some (new ++ mp' :: pools) ∧ PoolsCover (base + 4096 * 2 ^ n.log2) (4096 * (n - 2 ^ n.log2)) new ∧
        ∀ mp ∈ new, NewPool mp := by
      by_cases hlast : n - 2 ^ n.log2 = 0
      · rw [hlast]
        exact ⟨[], addLoop_zero, poolsCover_nil _, fun mp hmp => absurd hmp List.not_mem_nil⟩
      · have hk : n.log2 < 31 := by
          refine (Nat.log2_lt h0).mpr (lt_of_le_of_ne hn ?_)
          rintro rfl
          exact hlast (by decide)
        rw [next_base hk, Nat.mod_eq_of_lt (by omega)]
        exact ih _ (by omega) (by omega) (by omega) (by omega)
    refine ⟨new ++ [mp'], ?_, ?_, fun q hq => ?_⟩
    · rw [hloop, hrest, List.append_assoc]
      rfl
    · have hlen : 4096 * n = 2 ^ mp'.poolOrder + 4096 * (n - 2 ^ n.log2) := by
        rw [hord, hsize]
        omega
      rw [hlen]
      refine PoolsCover.snoc ?_ hinv.shape.baseAddr hwhole
      rw [hord, hsize]
      exact hcover
    · rcases List.mem_append.mp hq with hq | hq
      · exact hinvs q hq
      · obtain rfl := List.mem_singleton.mp hq
        exact ⟨r, L, rfl, hinv⟩

/-- Fewer than `2 ^ 31` pages, at any address: the pools lie in the range, which may wrap around. -/
theorem addLoop_within (hn : n < 2 ^ 31) (hbase : base < 2 ^ 64) {res : List BuddyMempool}
    (h : addLoop links order base n pools = some res) :
    ∃ new, res = new ++ pools ∧ ∀ mp ∈ new, ∃ d, mp.baseAddr = (base + 4096 * d) % 2 ^ 64 ∧
      4096 * d + 2 ^ mp.poolOrder ≤ 4096 * n := by
  induction n using Nat.strongRecOn generalizing base pools with
  | ind n ih =>
    by_cases h0 : n = 0
    · subst h0
      rw [addLoop_zero] at h
      exact ⟨[], (Option.some.inj h).symm, fun mp hmp => absurd hmp List.not_mem_nil⟩
    have hle : 2 ^ n.log2 ≤ n := Nat.log2_self_le h0
    have hpos := Nat.two_pow_pos n.log2
    have hk : n.log2 < 31 := (Nat.log2_lt h0).mpr hn
    obtain ⟨mp, -, hmpbase, hmpord, hmpmin, hloop⟩ := @addLoop_step links order base n pools h0 (by omega)
    rw [hloop, next_base hk] at h
    obtain ⟨mp', hfree, h⟩ := Option.bind_eq_some_iff.mp h
    rw [← hmpord] at hfree
    obtain ⟨hbase', hord'⟩ := buddyFree_whole (by omega) hfree
    obtain ⟨new, rfl, hnew⟩ := ih _ (by omega) (by omega) (Nat.mod_lt _ (by decide)) h
    refine ⟨new ++ [mp'], by simp, fun q hq => ?_⟩
    rcases List.mem_append.mp hq with hq | hq
    · obtain ⟨d, hd, hsize⟩ := hnew q hq
      exact ⟨2 ^ n.log2 + d, by omega, by omega⟩
    · obtain rfl := List.mem_singleton.mp hq
      refine ⟨0, by omega, ?_⟩
      rw [hord', hmpord, Nat.pow_add]
      omega

/-- With bit `31` set, the first pool has `2 ^ 31` pages and the others lie `2 ^ 43` below it. -/
theorem addLoop_top (hn : 2 ^ 31 ≤ n) (hlt : n < 2 ^ 32) {res : List BuddyMempool}
    (h : addLoop links order base n pools = some res) :
    ∃ new, res = new ++ pools ∧ ∀ mp ∈ new, mp.baseAddr = base ∧ mp.poolOrder = 43 ∨
      ∃ d, mp.baseAddr = ((base + (2 ^ 64 - 2 ^ 43)) % 2 ^ 64 + 4096 * d) % 2 ^ 64 ∧
        4096 * d + 2 ^ mp.poolOrder ≤ 4096 * (n - 2 ^ 31) := by
  have h0 : n ≠ 0 := by omega
  have hlog : n.log2 = 31 := by
    have h₁ : n.log2 < 32 := (Nat.log2_lt h0).mpr hlt
    have h₂ : 31 ≤ n.log2 := (Nat.le_log2 h0).mpr hn
    omega
  obtain ⟨mp, -, hmpbase, hmpord, hmpmin, hloop⟩ := @addLoop_step links order base n pools h0 hlt
  rw [hlog] at hmpord
  rw [hloop, hlog, next_base_top, ← hmpord] at h
  obtain ⟨mp', hfree, h⟩ := Option.bind_eq_some_iff.mp h
  obtain ⟨hbase', hord'⟩ := buddyFree_whole (by omega) hfree
  obtain ⟨new, rfl, hnew⟩ := addLoop_within (by omega) (Nat.mod_lt _ (by decide)) h
  refine ⟨new ++ [mp'], by simp, fun q hq => ?_⟩
  rcases List.mem_append.mp hq with hq | hq
  · exact .inr (hnew q hq)
  · obtain rfl := List.mem_singleton.mp hq
    exact .inl ⟨by omega, by omega⟩

end

/-! ### The range -/

section

variable (links : Links ListHead) (order : ℕ → ℕ) {po : ℕ} {reg : MemoryRange}

/-- The request makes pools that cover the range, in front of the pools there are. -/
def AddCovers (po : ℕ) (reg : MemoryRange) (pools : List BuddyMempool) : Prop :=
  ∃ new, addMemory links order po reg pools = some (new ++ pools) ∧
    PoolsCover (va po reg.baseAddr) (4096 * reg.pages) new

theorem va_eq (hend : reg.baseAddr + po + 4096 * reg.pages ≤ 2 ^ 64) (hpages : 0 < reg.pages) :
    va po reg.baseAddr = reg.baseAddr + po := Nat.mod_eq_of_lt (by omega)

/-- The pages that are left of the number are covered, if bit `31` is not used with others. -/
theorem addMemory_spec (hpo : 0 < po) (hend : reg.baseAddr + po + 4096 * reg.pages ≤ 2 ^ 64)
    (hle : reg.pages % 2 ^ 32 ≤ 2 ^ 31) (pools : List BuddyMempool) :
    ∃ new, addMemory links order po reg pools = some (new ++ pools) ∧
      PoolsCover (va po reg.baseAddr) (4096 * (reg.pages % 2 ^ 32)) new ∧ ∀ mp ∈ new, NewPool mp := by
  rw [addMemory]
  by_cases h0 : reg.pages % 2 ^ 32 = 0
  · rw [h0]
    exact ⟨[], addLoop_zero, poolsCover_nil _, fun mp hmp => absurd hmp List.not_mem_nil⟩
  · have hva := va_eq hend (by omega)
    exact addLoop_covers hle (by omega) (by omega)

/-- **Beyond `2 ^ 31` pages, the range is not covered.** -/
theorem not_addCovers_of_lt (hpo : 0 < po) (hend : reg.baseAddr + po + 4096 * reg.pages ≤ 2 ^ 64)
    (hlt : 2 ^ 31 < reg.pages) (pools : List BuddyMempool) : ¬ AddCovers links order po reg pools := by
  rintro ⟨new, hadd, hcover⟩
  have hva := va_eq hend (by omega)
  by_cases hn : reg.pages % 2 ^ 32 ≤ 2 ^ 31
  · -- the number of pages was cut: the page behind what is left of it is missing
    obtain ⟨new', hadd', hcover', -⟩ := addMemory_spec links order hpo hend hn pools
    obtain rfl : new = new' := List.append_cancel_right (Option.some.inj (hadd.symm.trans hadd'))
    have hin := (hcover.cover (va po reg.baseAddr + 4096 * (reg.pages % 2 ^ 32))).mpr ⟨by omega, by omega⟩
    have hout := (hcover'.cover _).mp hin
    omega
  · -- the page behind the first pool is missing: the others are before it
    obtain ⟨new', hres, hnew⟩ := addLoop_top (by omega) (Nat.mod_lt _ (by decide)) hadd
    obtain rfl : new = new' := List.append_cancel_right hres
    obtain ⟨p, hp, hpx⟩ := (hcover.cover (va po reg.baseAddr + 2 ^ 43)).mpr ⟨by omega, by omega⟩
    have hmod := Nat.mod_lt reg.pages (by decide : 0 < 2 ^ 32)
    rcases hnew p hp with ⟨hb, hk⟩ | ⟨d, hb, hk⟩
    · rw [hk] at hpx
      omega
    · omega

/-- **`ADD_MEMORY` covers exactly the range given, if and only if it has at most `2 ^ 31` pages**: the loop ends, and
the pools it makes are apart, cover the range and nothing else, and are one free block each. -/
theorem addMemory_covers_iff (hpo : 0 < po) (hend : reg.baseAddr + po + 4096 * reg.pages ≤ 2 ^ 64)
    (pools : List BuddyMempool) : AddCovers links order po reg pools ↔ reg.pages ≤ 2 ^ 31 := by
  constructor
  · intro h
    by_contra hlt
    exact not_addCovers_of_lt links order hpo hend (by omega) pools h
  · intro hle
    have hmod : reg.pages % 2 ^ 32 = reg.pages := Nat.mod_eq_of_lt (by omega)
    obtain ⟨new, hadd, hcover, -⟩ := addMemory_spec links order hpo hend (by omega) pools
    rw [hmod] at hcover
    exact ⟨new, hadd, hcover⟩

/-- Five pages at 4 GiB. -/
theorem addMemory_covers_five : AddCovers ⟨id, id⟩ id 0xffff880000000000 ⟨0x100000000, 5⟩ [] :=
  (addMemory_covers_iff ⟨id, id⟩ id (by decide) (by decide) []).mpr (by decide)

/-- `2 ^ 31 + 1` pages at 16 TiB: the last page is taken from before the range. -/
theorem addMemory_misses_page : 2 ^ 44 + 0xffff880000000000 + 4096 * (2 ^ 31 + 1) ≤ 2 ^ 64 ∧
    ¬ AddCovers ⟨id, id⟩ id 0xffff880000000000 ⟨2 ^ 44, 2 ^ 31 + 1⟩ [] :=
  ⟨by decide, not_addCovers_of_lt ⟨id, id⟩ id (by decide) (by decide) (by decide) []⟩

end

end PetLab.VMproject
