import PetLab.VMproject.FirstFit
import PetLab.VMproject.LazyIoctl

/-!
# What `LAZY_ALLOC` promises

A process that calls `LAZY_ALLOC` expects that an address it is given is good for as many
bytes as it asked for, and that a request that fails has no effect. Both fail in one place
each. The size is rounded up in 64-bit words: a size above `2 ^ 64 - 4096` becomes zero
pages, and the answer is the address of an empty node. And the map is changed before the
answer is copied out: when `copy_to_user` fails the ioctl returns `-EFAULT`, and the node
stays allocated with nobody to free it.

`lazyContract_iff` says that there is nothing else: the contract is kept by the requests that
reach neither.
-/

namespace PetLab.VMproject

open PetLab.Lib

/-- The address is good for `size` bytes: they lie in one node that was not allocated before,
and in the region. -/
def Granted (map map' : MapHead) (addr size : ℕ) : Prop :=
  (∃ n ∈ map'.nodes, n.allocated = 1 ∧ n ∉ map.nodes ∧ n.start ≤ addr ∧ addr + size ≤ n.start + n.size) ∧
    petmemRegionStart ≤ addr ∧ addr + size ≤ petmemRegionEnd

/-- The ioctl completes, and writes back an address that is not zero. -/
def Answers (result : ℤ × Option AllocRequest × MapHead) (answer : AllocRequest) : Prop :=
  result.1 = 0 ∧ result.2.1 = some answer ∧ answer.addr ≠ 0

/-- The contract of `LAZY_ALLOC`: the address it answers is good for the size that was asked
for, and without an answer the map is unchanged. -/
def LazyContract (map : MapHead) (req : Option AllocRequest) (copyTo : Bool) : Prop :=
  (∀ q answer, req = some q → Answers (petmemIoctl map (.lazyAlloc req copyTo)) answer →
    Granted map (petmemIoctl map (.lazyAlloc req copyTo)).2.2 answer.addr.toNat q.size.toNat) ∧
  ((∀ answer, ¬ Answers (petmemIoctl map (.lazyAlloc req copyTo)) answer) →
    (petmemIoctl map (.lazyAlloc req copyTo)).2.2 = map)

/-- The requests that cannot go wrong: nothing is copied in, or there is no room, or the
answer can be copied out and the size is not too large to be rounded up. -/
def LazySafe (map : MapHead) (req : Option AllocRequest) (copyTo : Bool) : Prop :=
  ∀ q, req = some q → (∀ n ∈ map.nodes, ¬ n.fits (lazyAllocPages q.size).toNat) ∨
    copyTo = true ∧ q.size.toNat ≤ 2 ^ 64 - 4096

/-- A request that is rounded up gets its bytes. -/
theorem le_lazyAllocPages {size : BitVec 64} (h : size.toNat ≤ 2 ^ 64 - 4096) :
    size.toNat ≤ pageSize4KB * (lazyAllocPages size).toNat := by
  have hlt := size.isLt
  rw [lazyAllocPages_toNat, pageSize4KB]
  omega

section

variable {map : MapHead} {req : AllocRequest} {copyTo : Bool}

/-- Without room nothing happens. -/
theorem lazyContract_of_none (hI : MapInv map) (hnone : ∀ n ∈ map.nodes, ¬ n.fits (lazyAllocPages req.size).toNat) :
    LazyContract map (some req) copyTo := by
  have heq : petmemIoctl map (.lazyAlloc (some req) copyTo) = (0, none, map) := by
    rcases hI.alloc_first (lazyAllocPages req.size).toNat with
      ⟨halloc, -⟩ | ⟨before, cursor, after, hn, hfit, -⟩
    · simp [petmemIoctl, lazyAlloc, halloc]
    · exact absurd hfit (hnone cursor (by simp [hn]))
  rw [LazyContract, heq]
  exact ⟨fun q answer _ h => absurd h.2.1 (by simp), fun _ => rfl⟩

/-- With room, the request is granted if it was rounded up and its answer copied out. -/
theorem lazyContract_iff_of_some (hI : MapInv map) (hsome : ∃ n ∈ map.nodes, n.fits (lazyAllocPages req.size).toNat) :
    LazyContract map (some req) copyTo ↔ copyTo = true ∧ req.size.toNat ≤ 2 ^ 64 - 4096 := by
  rcases hI.alloc_first (lazyAllocPages req.size).toNat with
    ⟨-, hnone⟩ | ⟨before, cursor, after, hn, hfit, h₀, -, halloc⟩
  · obtain ⟨n, hn, hfit⟩ := hsome
    exact absurd hfit (hnone n hn)
  have hcursor : cursor ∈ map.nodes := by simp [hn]
  obtain ⟨hlow, hhigh⟩ := hI.tiles.mem_bounds hcursor
  have hend : petmemRegionEnd < 2 ^ 64 - 4096 := by decide
  have haddr : (BitVec.ofNat 64 cursor.start).toNat = cursor.start := by
    rw [BitVec.toNat_ofNat, Nat.mod_eq_of_lt (by omega)]
  have hne : BitVec.ofNat 64 cursor.start ≠ 0 := by
    intro h
    rw [h] at haddr
    exact h₀ haddr.symm
  have hsize := hfit.le_size
  obtain ⟨map', hmap'⟩ : ∃ map', map' = (petmemAllocVspace map (lazyAllocPages req.size).toNat).2 := ⟨_, rfl⟩
  have hnodes : map'.nodes = before ++ cursor.take (lazyAllocPages req.size).toNat ::
      cursor.rest (lazyAllocPages req.size).toNat map.kmalloc :: after := by rw [hmap', halloc]
  have heq : petmemIoctl map (.lazyAlloc (some req) copyTo) = if copyTo = true
      then (0, some { req with addr := BitVec.ofNat 64 cursor.start }, map') else (eFault, none, map') := by
    rw [petmemIoctl, lazyAlloc, hmap']
    simp only [halloc, if_neg h₀]
  cases copyTo with
  | false =>
    -- the node is there although nothing was answered
    refine ⟨fun h => ?_, fun h => absurd h.1 (by decide)⟩
    rw [LazyContract, heq] at h
    have hsame : map' = map := h.2 fun answer hans => absurd hans.2.1 (by simp)
    have hlen := congrArg (fun m => m.nodes.length) hsame
    simp only [hnodes, hn, List.length_append, List.length_cons] at hlen
    omega
  | true =>
    have hanswers : Answers (0, some { req with addr := BitVec.ofNat 64 cursor.start }, map')
        { req with addr := BitVec.ofNat 64 cursor.start } := ⟨rfl, rfl, hne⟩
    rw [LazyContract, heq, if_pos rfl]
    constructor
    · rintro ⟨h, -⟩
      obtain ⟨-, -, hle⟩ := h req _ rfl hanswers
      exact ⟨rfl, by omega⟩
    · rintro ⟨-, hle⟩
      have hpages := le_lazyAllocPages hle
      refine ⟨fun q answer hq hans => ?_, fun h => absurd hanswers (h _)⟩
      obtain rfl := Option.some.inj hq
      obtain rfl := Option.some.inj hans.2.1
      simp only [haddr]
      refine ⟨⟨cursor.take (lazyAllocPages req.size).toNat, ?_, rfl, ?_, Nat.le_refl _, ?_⟩, hlow, ?_⟩
      · rw [hnodes]
        simp
      · -- the node was there, but it was free
        intro hmem
        have hsame : cursor.take (lazyAllocPages req.size).toNat = cursor :=
          List.inj_on_of_nodup_map hI.ptrs.of_cons hmem hcursor rfl
        exact absurd ((congrArg MemMap.allocated hsame).trans hfit.1) (by simp [MemMap.take])
      · exact Nat.add_le_add_left hpages _
      · omega

end

/-- **When `LAZY_ALLOC` keeps its contract**, whatever the process has asked for before. -/
theorem lazyContract_iff (junk : MemMap) (reqs : List Ioctl) (req : Option AllocRequest) (copyTo : Bool) :
    LazyContract (ioctlRun junk reqs) req copyTo ↔ LazySafe (ioctlRun junk reqs) req copyTo := by
  have hI : MapInv (ioctlRun junk reqs) := by
    rw [ioctlRun_eq]
    exact mapInv_mapRun junk _
  cases req with
  | none =>
    refine ⟨fun _ q h => absurd h (by simp), fun _ => ⟨fun q _ h => absurd h (by simp), fun _ => rfl⟩⟩
  | some q =>
    by_cases hnone : ∀ n ∈ (ioctlRun junk reqs).nodes, ¬ n.fits (lazyAllocPages q.size).toNat
    · refine ⟨fun _ q' h => ?_, fun _ => lazyContract_of_none hI hnone⟩
      obtain rfl := Option.some.inj h
      exact .inl hnone
    · rw [lazyContract_iff_of_some hI (by simpa using hnone)]
      refine ⟨fun h q' hq => ?_, fun h => (h q rfl).resolve_left hnone⟩
      obtain rfl := Option.some.inj hq
      exact .inr h

/-- A page is asked for and cannot be answered; and the largest size of all is answered, with
an empty node. -/
theorem lazyContract_broken :
    ¬ LazyContract (ioctlRun ⟨0, 0, 0, 0, 0⟩ []) (some ⟨4096, 0⟩) false ∧
    ¬ LazyContract (ioctlRun ⟨0, 0, 0, 0, 0⟩ []) (some ⟨BitVec.ofNat 64 (2 ^ 64 - 1), 0⟩) true := by
  have hI : MapInv (ioctlRun ⟨0, 0, 0, 0, 0⟩ []) := mapInv_petmemInitProcess _
  constructor
  · rw [lazyContract_iff_of_some hI (by decide)]
    decide
  · rw [lazyContract_iff_of_some hI (by decide)]
    decide

end PetLab.VMproject
