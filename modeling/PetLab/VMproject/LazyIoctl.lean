import PetLab.VMproject.MapLive
import Mathlib.Data.BitVec

/-!
# The requests of a process

A process reaches the allocator through `petmem_ioctl` (`main.c`): `LAZY_ALLOC` rounds a
size in bytes up to pages and calls `petmem_alloc_vspace`, `LAZY_FREE` calls
`petmem_free_vspace` with the address it is given. Nothing checks the size. The sum that
rounds it up is one of 64-bit words, so a request of zero bytes and one of more than
`2 ^ 64 - 4096` bytes both become a request of zero pages (`lazyAllocPages_eq_zero_iff`).

In a run without such requests no two live allocations share an address
(`ioctlRun_distinct`); two of them in a row are given the same one, whatever was asked
before.
-/

namespace PetLab.VMproject

open PetLab.Lib

/-- `struct alloc_request`. -/
structure AllocRequest where
  /-- How many bytes are wanted. -/
  size : BitVec 64
  /-- Where they are: the answer. -/
  addr : BitVec 64
  deriving DecidableEq, Repr

/-- A request. -/
inductive Ioctl where
  /-- `LAZY_ALLOC` with the request `copy_from_user` reads (`none` when it fails); `copyTo`
  says whether `copy_to_user` can write the answer. -/
  | lazyAlloc (req : Option AllocRequest) (copyTo : Bool)
  /-- `LAZY_FREE`. -/
  | lazyFree (addr : BitVec 64)

/-- `PAGE_SIZE`. -/
def pageSize : BitVec 64 := 4096

/-- `num_pages` of `LAZY_ALLOC`. -/
def lazyAllocPages (size : BitVec 64) : BitVec 64 := ((size + (pageSize - 1)) &&& ~~~(pageSize - 1)) >>> 12

/-- `-EFAULT`. -/
def eFault : ℤ := -14

/-- `LAZY_ALLOC`: what the ioctl returns, the request it has written back (if it has), and
the map. When no address was found nothing is written, and it returns `0` all the same. -/
def lazyAlloc (map : MapHead) (req : Option AllocRequest) (copyTo : Bool) : ℤ × Option AllocRequest × MapHead :=
  match req with
  | none => (eFault, none, map)
  | some req =>
    let (addr, map') := petmemAllocVspace map (lazyAllocPages req.size).toNat
    if addr = 0 then (0, none, map')
    else if copyTo then (0, some { req with addr := BitVec.ofNat 64 addr }, map')
    else (eFault, none, map')

/-- `petmem_ioctl`, for the two requests. -/
def petmemIoctl (map : MapHead) : Ioctl → ℤ × Option AllocRequest × MapHead
  | .lazyAlloc req copyTo => lazyAlloc map req copyTo
  | .lazyFree addr => (0, none, petmemFreeNode map addr.toNat)

/-- The map after a sequence of requests of a new process. -/
def ioctlRun (junk : MemMap) (reqs : List Ioctl) : MapHead :=
  reqs.foldl (fun map req => (petmemIoctl map req).2.2) (petmemInitProcess junk)

/-- The call a request makes, if it gets that far. -/
def Ioctl.op : Ioctl → Option MapOp
  | .lazyAlloc req _ => req.map fun req => .alloc (lazyAllocPages req.size).toNat
  | .lazyFree addr => some (.free addr.toNat)

/-- The allocations that are live after a sequence of requests. -/
def ioctlLive (junk : MemMap) (reqs : List Ioctl) : List (ℕ × ℕ) := liveRun junk (reqs.filterMap Ioctl.op)

/-! ### Rounding up -/

theorem lazyAllocPages_toNat (size : BitVec 64) :
    (lazyAllocPages size).toNat = (size.toNat + 4095) % 2 ^ 64 / 4096 := by
  -- the bits the mask clears are the ones that are shifted out
  have hmask : (~~~(pageSize - 1)) >>> 12 = BitVec.ofNat 64 (2 ^ 52 - 1) := by decide
  rw [lazyAllocPages, BitVec.ushiftRight_and_distrib, hmask, BitVec.toNat_and, BitVec.toNat_ushiftRight,
    Nat.shiftRight_eq_div_pow, BitVec.toNat_ofNat, Nat.mod_eq_of_lt (by decide : 2 ^ 52 - 1 < 2 ^ 64),
    Nat.and_two_pow_sub_one_of_lt_two_pow, BitVec.toNat_add]
  · rfl
  · have := (size + (pageSize - 1)).isLt
    omega

/-- The sizes that are rounded to zero pages. -/
def ZeroPages (size : BitVec 64) : Prop := size = 0 ∨ 2 ^ 64 - 4096 < size.toNat

theorem lazyAllocPages_eq_zero_iff (size : BitVec 64) : (lazyAllocPages size).toNat = 0 ↔ ZeroPages size := by
  have := size.isLt
  have hzero : size = 0 ↔ size.toNat = 0 := BitVec.toNat_inj.symm
  rw [lazyAllocPages_toNat, ZeroPages, hzero]
  omega

/-! ### Requests are calls -/

theorem petmemIoctl_map (map : MapHead) (req : Ioctl) :
    (petmemIoctl map req).2.2 = (req.op.elim map (mapStep map)) := by
  cases req with
  | lazyFree addr => rfl
  | lazyAlloc req copyTo =>
    cases req with
    | none => rfl
    | some req =>
      simp only [petmemIoctl, lazyAlloc, Ioctl.op, Option.map_some, Option.elim_some, mapStep]
      split_ifs <;> rfl

theorem ioctlRun_eq (junk : MemMap) (reqs : List Ioctl) :
    ioctlRun junk reqs = mapRun junk (reqs.filterMap Ioctl.op) := by
  induction reqs using List.reverseRecOn with
  | nil => rfl
  | append_singleton reqs req ih =>
    have hstep : ioctlRun junk (reqs ++ [req]) = (petmemIoctl (ioctlRun junk reqs) req).2.2 := by
      rw [ioctlRun, List.foldl_append]
      rfl
    rw [hstep, petmemIoctl_map, ih, List.filterMap_append]
    cases hop : req.op with
    | none => simp [hop]
    | some op => simp [hop, mapRun_concat]

/-- What `LAZY_ALLOC` answers is a new live allocation. -/
theorem ioctlLive_of_answer (junk : MemMap) (reqs : List Ioctl) {req answer : AllocRequest} {copyTo : Bool} {ret : ℤ}
    {map' : MapHead}
    (h : petmemIoctl (ioctlRun junk reqs) (.lazyAlloc (some req) copyTo) = (ret, some answer, map')) :
    ioctlLive junk (reqs ++ [.lazyAlloc (some req) copyTo]) =
      (answer.addr.toNat, pageSize4KB * (lazyAllocPages req.size).toNat) :: ioctlLive junk reqs := by
  have hI := mapInv_mapRun junk (reqs.filterMap Ioctl.op)
  rw [ioctlLive, List.filterMap_append, List.filterMap_cons_some (by rfl), List.filterMap_nil, liveRun_concat,
    liveStep, ← ioctlRun_eq]
  rw [← ioctlRun_eq] at hI
  rw [petmemIoctl, lazyAlloc] at h
  rcases petmemAllocVspace_cases (ioctlRun junk reqs) (lazyAllocPages req.size).toNat with
    hno | ⟨before, cursor, after, hn, -, hyes⟩
  · simp [hno] at h
  · have hb := hI.tiles.mem_bounds (x := cursor) (by simp [hn])
    simp only [petmemRegionStart, petmemRegionEnd] at hb
    have haddr : cursor.start ≠ 0 := by omega
    simp only [hyes, if_neg haddr] at h ⊢
    cases copyTo with
    | false => simp at h
    | true =>
      obtain rfl := Option.some.inj (congrArg (fun r => r.2.1) h)
      rw [BitVec.toNat_ofNat, Nat.mod_eq_of_lt (by omega)]
      rfl

/-! ### Whole runs -/

theorem liveInv_ioctlRun (junk : MemMap) {reqs : List Ioctl}
    (hreqs : ∀ req copyTo, .lazyAlloc (some req) copyTo ∈ reqs → ¬ ZeroPages req.size) :
    LiveInv (ioctlRun junk reqs) (ioctlLive junk reqs) := by
  rw [ioctlRun_eq]
  refine liveInv_run junk fun n hn => ?_
  obtain ⟨req, hreq, hop⟩ := List.mem_filterMap.mp hn
  cases req with
  | lazyFree addr => cases hop
  | lazyAlloc req copyTo =>
    obtain ⟨req, rfl, hpages⟩ := Option.map_eq_some_iff.mp hop
    obtain rfl := MapOp.alloc.inj hpages
    refine Nat.one_le_iff_ne_zero.mpr fun h₀ => ?_
    exact hreqs req copyTo hreq ((lazyAllocPages_eq_zero_iff _).mp h₀)

/-- Two requests of zero pages, after any others, leave two live allocations with one
address. -/
theorem ioctlLive_zero_twice (junk : MemMap) (reqs : List Ioctl) {req₁ req₂ : AllocRequest} (copyTo₁ copyTo₂ : Bool)
    (h₁ : ZeroPages req₁.size) (h₂ : ZeroPages req₂.size) :
    ¬ ((ioctlLive junk (reqs ++ [.lazyAlloc (some req₁) copyTo₁, .lazyAlloc (some req₂) copyTo₂])).map
      Prod.fst).Nodup := by
  have hops : (reqs ++ [Ioctl.lazyAlloc (some req₁) copyTo₁, .lazyAlloc (some req₂) copyTo₂]).filterMap Ioctl.op =
      reqs.filterMap Ioctl.op ++ [.alloc 0] ++ [.alloc 0] := by
    simp [Ioctl.op, (lazyAllocPages_eq_zero_iff _).mpr h₁, (lazyAllocPages_eq_zero_iff _).mpr h₂]
  obtain ⟨hne, heq⟩ := (mapInv_mapRun junk (reqs.filterMap Ioctl.op)).alloc_zero_twice
  rw [ioctlLive, hops, liveRun_concat, liveRun_concat, mapRun_concat]
  simp only [liveStep, mapStep, heq, if_neg hne, List.map_cons]
  exact fun hnodup => (List.nodup_cons.mp hnodup).1 List.mem_cons_self

/-- **Live allocations never share an address**, in every run without a request that is
rounded to zero pages: the live allocations start at different addresses and do not
overlap, what `LAZY_ALLOC` answers is one more of them, and `LAZY_FREE` of the address of one
takes its node, and no other, out of the allocated ones. Two requests that are rounded to zero
pages end this, whenever they come. -/
theorem ioctlRun_distinct (junk : MemMap) (reqs : List Ioctl)
    (hreqs : ∀ req copyTo, .lazyAlloc (some req) copyTo ∈ reqs → ¬ ZeroPages req.size) :
    ((ioctlLive junk reqs).map Prod.fst).Nodup ∧
    ((ioctlLive junk reqs).Pairwise fun p q => p.1 + p.2 ≤ q.1 ∨ q.1 + q.2 ≤ p.1) ∧
    (∀ req answer copyTo ret map',
      petmemIoctl (ioctlRun junk reqs) (.lazyAlloc (some req) copyTo) = (ret, some answer, map') →
        ioctlLive junk (reqs ++ [.lazyAlloc (some req) copyTo]) =
          (answer.addr.toNat, pageSize4KB * (lazyAllocPages req.size).toNat) :: ioctlLive junk reqs) ∧
    (∀ (addr : BitVec 64) size, (addr.toNat, size) ∈ ioctlLive junk reqs →
      ∃ n ∈ (ioctlRun junk reqs).nodes, n.allocated = 1 ∧ n.start = addr.toNat ∧ n.size = size ∧
        ∀ A : MemMap, A.allocated = 1 → (A ∈ (petmemIoctl (ioctlRun junk reqs) (.lazyFree addr)).2.2.nodes ↔
          A ∈ (ioctlRun junk reqs).nodes ∧ A ≠ n)) ∧
    ∀ req₁ req₂ copyTo₁ copyTo₂, ZeroPages req₁.size → ZeroPages req₂.size →
      ¬ ((ioctlLive junk (reqs ++ [.lazyAlloc (some req₁) copyTo₁, .lazyAlloc (some req₂) copyTo₂])).map
        Prod.fst).Nodup := by
  have hI := liveInv_ioctlRun junk hreqs
  refine ⟨hI.distinct, hI.disjoint, fun req answer copyTo ret map' h => ioctlLive_of_answer junk reqs h,
    fun addr size hlive => ?_, fun req₁ req₂ c₁ c₂ h₁ h₂ => ?_⟩
  · obtain ⟨n, hn, ha, heq⟩ := (hI.nodes _).mp hlive
    obtain ⟨hstart, hsize⟩ := Prod.mk.inj heq
    refine ⟨n, hn, ha, hstart, hsize, fun A hA => ?_⟩
    rw [petmemIoctl, hI.mem_free_iff addr.toNat hA]
    refine and_congr_right fun hmem => not_congr ⟨fun h => ?_, fun h => h ▸ hstart⟩
    exact hI.inv.eq_of_start hmem hn (hI.sized A hmem hA) (hI.sized n hn ha) (h.trans hstart.symm)
  · exact ioctlLive_zero_twice junk reqs c₁ c₂ h₁ h₂

/-- A request for a page and one for a page less a byte. -/
theorem ioctlRun_distinct_two :
    ((ioctlLive ⟨0, 0, 0, 0, 0⟩ [.lazyAlloc (some ⟨4096, 0⟩) true, .lazyAlloc (some ⟨4095, 0⟩) true]).map
      Prod.fst).Nodup := by
  refine (ioctlRun_distinct ⟨0, 0, 0, 0, 0⟩ _ fun req copyTo hmem => ?_).1
  simp only [List.mem_cons, List.not_mem_nil, or_false, Ioctl.lazyAlloc.injEq, Option.some.injEq] at hmem
  rcases hmem with ⟨rfl, -⟩ | ⟨rfl, -⟩
  · rw [← lazyAllocPages_eq_zero_iff]
    decide
  · rw [← lazyAllocPages_eq_zero_iff]
    decide

/-- A request for no bytes is given the address that the next one gets too. -/
theorem lazyAlloc_shares_address :
    ioctlLive ⟨0, 0, 0, 0, 0⟩ [.lazyAlloc (some ⟨0, 0⟩) true, .lazyAlloc (some ⟨4096, 0⟩) true] =
      [(petmemRegionStart, 4096), (petmemRegionStart, 0)] ∧
    ¬ ∀ junk reqs, ((ioctlLive junk reqs).map Prod.fst).Nodup := by
  have hlive : ioctlLive ⟨0, 0, 0, 0, 0⟩ [.lazyAlloc (some ⟨0, 0⟩) true, .lazyAlloc (some ⟨4096, 0⟩) true] =
      [(petmemRegionStart, 4096), (petmemRegionStart, 0)] := by decide +kernel
  refine ⟨hlive, fun h => ?_⟩
  have hnodup := h ⟨0, 0, 0, 0, 0⟩ [.lazyAlloc (some ⟨0, 0⟩) true, .lazyAlloc (some ⟨4096, 0⟩) true]
  rw [hlive] at hnodup
  exact absurd hnodup (by decide)

end PetLab.VMproject
