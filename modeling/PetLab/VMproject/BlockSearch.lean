import Mathlib.Data.Finset.Card
import Mathlib.Order.Bounds.Basic
import Mathlib.Tactic.SplitIfs
import PetLab.Lib.Run

/-!
# The search of the `petmem` tool for memory blocks

`VMproject/user/petmem.c` looks for `num_blocks` consecutive blocks of memory that can be taken
offline. In each pass of its loop it scans a bitmap for a candidate, asks the system to take
the blocks offline, and checks whether it has. At the first block that is still online it
clears that block's bit, brings the blocks before it back, and starts again.

`reg_start` is not reset between the passes. It is nevertheless the least candidate
every time (`Carried.scan_spec`): if it is not `0` then a bit among the first `num_blocks` is clear, and no
run that begins before that bit is long enough; and bits are only ever cleared.

## The model

A pass is a function of the tool and of what the files under
`/sys/devices/system/memory/` answer in it (`BlockAnswers`): any of them may fail to open, a block may or
may not go offline, and the check may say anything.
-/

namespace PetLab.VMproject

open PetLab.Lib

/-- `bitmap[i / 8] & (0x1 << (i % 8))`. -/
def bitSet (bitmap : ℕ → BitVec 8) (i : ℕ) : Bool := bitmap (i / 8) &&& 1#8 <<< (i % 8) ≠ 0

/-- `bitmap[i / 8] &= ~(0x1 << (i % 8))`. -/
def clearBit (bitmap : ℕ → BitVec 8) (i : ℕ) : ℕ → BitVec 8 :=
  Function.update bitmap (i / 8) (bitmap (i / 8) &&& ~~~(1#8 <<< (i % 8)))

/-- What reading the state of a block gives. -/
inductive Status where
  /-- The file cannot be opened. -/
  | openFails
  /-- It cannot be read. -/
  | readFails
  /-- Its text. -/
  | text (statusBuf : List Char)

/-- `strncmp(status_buf, "offline", strlen("offline"))` is zero. -/
def saysOffline (statusBuf : List Char) : Bool := "offline".toList.isPrefixOf statusBuf

/-- What the files of the blocks answer in one pass. -/
structure BlockAnswers where
  /-- The file of a block opens when the block is to go offline. -/
  opens : ℕ → Bool
  /-- A block that is asked to go offline does. -/
  goes : ℕ → Bool
  /-- The check. -/
  status : ℕ → Status
  /-- The file of a block opens when the block is to come back. -/
  reopens : ℕ → Bool

/-- The check says that a block is offline, -/
def BlockAnswers.SaysOffline (a : BlockAnswers) (b : ℕ) : Prop :=
  ∃ statusBuf, a.status b = .text statusBuf ∧ saysOffline statusBuf = true

/-- or that it is not. -/
def BlockAnswers.Refuses (a : BlockAnswers) (b : ℕ) : Prop :=
  ∃ statusBuf, a.status b = .text statusBuf ∧ saysOffline statusBuf = false

/-- The variables of the tool, and the blocks. -/
structure Tool where
  bitmap : ℕ → BitVec 8
  regStart : ℕ
  /-- The blocks that are offline. -/
  offline : ℕ → Bool
  /-- Those that the tool has taken offline, at one time or another. -/
  took : List ℕ

/-- How a pass ends. -/
inductive PassResult where
  /-- "Could not find enough consecutive memory blocks... (found `runLen`)". -/
  | notFound (runLen : ℕ)
  /-- A file could not be opened or read. -/
  | fileError (t : Tool)
  /-- A block is still online. -/
  | again (t : Tool)
  /-- All blocks are offline. -/
  | ready (t : Tool)

/-- The scan of the bitmap from `i` on, over the `rest` of its entries; it gives `reg_start` and `run_len`. -/
def scanBits (bitmap : ℕ → BitVec 8) (numBlocks : ℕ) : ℕ → ℕ → ℕ → ℕ → ℕ × ℕ
  | 0, _, regStart, runLen => (regStart, runLen)
  | rest + 1, i, regStart, runLen =>
    if ¬ bitSet bitmap i then scanBits bitmap numBlocks rest (i + 1) (i + 1) 0
    else if runLen + 1 ≥ numBlocks then (regStart, runLen + 1)
    else scanBits bitmap numBlocks rest (i + 1) regStart (runLen + 1)

/-- Ask for a block to go offline. -/
def Tool.offlineBlock (a : BlockAnswers) (t : Tool) (b : ℕ) : Except Tool Tool :=
  if a.opens b then
    .ok { t with
      offline := Function.update t.offline b (t.offline b || a.goes b)
      took := if ¬ t.offline b ∧ a.goes b then b :: t.took else t.took }
  else .error t

/-- Ask for a block to come back. -/
def Tool.onlineBlock (a : BlockAnswers) (t : Tool) (b : ℕ) : Except Tool Tool :=
  if a.reopens b then .ok { t with offline := Function.update t.offline b false } else .error t

/-- The check, from the block with number `i` of the candidate on. It gives `mem_ready`. -/
def Tool.checkLoop (a : BlockAnswers) (t : Tool) : ℕ → ℕ → Except Tool (Tool × Bool)
  | 0, _ => .ok (t, true)
  | rest + 1, i =>
    match a.status (i + t.regStart) with
    | .openFails => .error t
    | .readFails => .error t
    | .text statusBuf =>
      if saysOffline statusBuf then t.checkLoop a rest (i + 1)
      else do
        let t ← (List.range' t.regStart i).foldlM (Tool.onlineBlock a)
          { t with bitmap := clearBit t.bitmap (i + t.regStart) }
        pure (t, false)

/-- One pass of the loop. -/
def Tool.pass (numBlocks bitmapEntries : ℕ) (t : Tool) (a : BlockAnswers) : PassResult :=
  let (regStart, runLen) := scanBits t.bitmap numBlocks bitmapEntries 0 t.regStart 0
  if runLen < numBlocks then .notFound runLen
  else
    match (List.range' regStart numBlocks).foldlM (Tool.offlineBlock a) { t with regStart := regStart } with
    | .error t => .fileError t
    | .ok t =>
      match t.checkLoop a numBlocks 0 with
      | .error t => .fileError t
      | .ok (t, true) => .ready t
      | .ok (t, false) => .again t

/-- The loop `while (!mem_ready)`, which may use the answers of a list of passes. -/
def Tool.search (numBlocks bitmapEntries : ℕ) : List BlockAnswers → Tool → Option PassResult
  | [], _ => none
  | a :: as, t =>
    match t.pass numBlocks bitmapEntries a with
    | .again t => Tool.search numBlocks bitmapEntries as t
    | result => some result

/-- The tool before the first pass. -/
def Tool.start (bitmap : ℕ → BitVec 8) (offline : ℕ → Bool) : Tool := ⟨bitmap, 0, offline, []⟩

/-- A pass after which there is another one. -/
def Tool.Again (numBlocks bitmapEntries : ℕ) (t : Tool) (a : BlockAnswers) (t' : Tool) : Prop :=
  t.pass numBlocks bitmapEntries a = .again t'

/-! ### Candidates -/

/-- There is a candidate at `s`: the `num_blocks` bits from it on are set. -/
def RegionAt (numBlocks bitmapEntries : ℕ) (bitmap : ℕ → BitVec 8) (s : ℕ) : Prop :=
  s + numBlocks ≤ bitmapEntries ∧ ∀ k < numBlocks, bitSet bitmap (s + k) = true

/-- The tool after a pass that got beyond the scan. -/
def PassResult.tool : PassResult → Option Tool
  | .notFound _ => none
  | .fileError t | .again t | .ready t => some t

/-- What a pass should do. -/
structure SearchSpec (numBlocks bitmapEntries : ℕ) (t : Tool) (a : BlockAnswers) : Prop where
  /-- The tool gives up if and only if there is no candidate. -/
  fails : (∃ runLen, t.pass numBlocks bitmapEntries a = .notFound runLen) ↔
    ∀ s, ¬ RegionAt numBlocks bitmapEntries t.bitmap s
  /-- `reg_start` is the least candidate. -/
  least : ∀ t', (t.pass numBlocks bitmapEntries a).tool = some t' →
    IsLeast {s | RegionAt numBlocks bitmapEntries t.bitmap s} t'.regStart
  /-- On success all blocks were checked in this pass. -/
  checked : ∀ t', t.pass numBlocks bitmapEntries a = .ready t' → ∀ b, t'.regStart ≤ b → b < t'.regStart + numBlocks →
    a.SaysOffline b

section

variable {bitmap : ℕ → BitVec 8} {numBlocks bitmapEntries rest i j regStart runLen : ℕ} {t t' : Tool} {a : BlockAnswers}

theorem bitSet_eq (bitmap : ℕ → BitVec 8) (i : ℕ) : bitSet bitmap i = (bitmap (i / 8)).getLsbD (i % 8) := by
  have hlt : i % 8 < 8 := Nat.mod_lt _ (by decide)
  have hne : BitVec.twoPow 8 (i % 8) ≠ 0#8 := by
    intro h
    have := congrArg (BitVec.getLsbD · (i % 8)) h
    simp [hlt] at this
  rw [bitSet, ← BitVec.twoPow_eq, BitVec.and_twoPow]
  cases (bitmap (i / 8)).getLsbD (i % 8) with
  | false => simp
  | true => simp [hne]

theorem bitSet_clearBit : bitSet (clearBit bitmap i) j = (bitSet bitmap j && decide (j ≠ i)) := by
  have hlt : j % 8 < 8 := Nat.mod_lt _ (by decide)
  rw [bitSet_eq, bitSet_eq, clearBit, ← BitVec.twoPow_eq]
  by_cases hdiv : j / 8 = i / 8
  · rw [hdiv, Function.update_self]
    have hmod : j = i ↔ i % 8 = j % 8 := by omega
    by_cases hi : i % 8 = j % 8
    · simp [hmod, hi, hlt]
    · simp [hmod, hi, hlt, Ne.symm hi]
  · rw [Function.update_of_ne hdiv]
    have hne : j ≠ i := fun h => hdiv (h ▸ rfl)
    simp [hne]

/-! ### The scan -/

/-- The loop is at `i` with the last `runLen` bits set, from `regStart` on, and there is no candidate before. -/
structure Scanned (bitmap : ℕ → BitVec 8) (numBlocks bitmapEntries i regStart runLen : ℕ) : Prop where
  pos : regStart + runLen = i
  short : runLen < numBlocks
  run : ∀ k, regStart ≤ k → k < i → bitSet bitmap k = true
  before : ∀ s < regStart, ¬ RegionAt numBlocks bitmapEntries bitmap s

/-- What the scan finds. -/
def Finds (bitmap : ℕ → BitVec 8) (numBlocks bitmapEntries : ℕ) (found : ℕ × ℕ) : Prop :=
  if found.2 < numBlocks then ∀ s, ¬ RegionAt numBlocks bitmapEntries bitmap s
  else IsLeast {s | RegionAt numBlocks bitmapEntries bitmap s} found.1

/-- A candidate does not go over a bit that is clear. -/
theorem RegionAt.not_of_clear {s : ℕ} (hi : bitSet bitmap i = false) (hs : s ≤ i) (hi' : i < s + numBlocks) :
    ¬ RegionAt numBlocks bitmapEntries bitmap s := by
  intro h
  have := h.2 (i - s) (by omega)
  rw [Nat.add_sub_cancel' hs, hi] at this
  cases this

theorem Scanned.finds (h : Scanned bitmap numBlocks bitmapEntries i regStart runLen)
    (hrest : i + rest = bitmapEntries) :
    Finds bitmap numBlocks bitmapEntries (scanBits bitmap numBlocks rest i regStart runLen) := by
  induction rest generalizing i regStart runLen with
  | zero =>
    obtain ⟨hpos, hshort, -, hbefore⟩ := h
    rw [scanBits, Finds, if_pos hshort]
    intro s hs
    by_cases hlt : s < regStart
    · exact hbefore s hlt hs
    · have := hs.1
      omega
  | succ rest ih =>
    obtain ⟨hpos, hshort, hrun, hbefore⟩ := h
    rw [scanBits]
    by_cases hset : bitSet bitmap i = true
    · have hrun' : ∀ k, regStart ≤ k → k < i + 1 → bitSet bitmap k = true := by
        intro k hk hk'
        rcases Nat.lt_succ_iff_lt_or_eq.mp hk' with hlt | rfl
        · exact hrun k hk hlt
        · exact hset
      rw [if_neg (not_not.mpr hset)]
      split_ifs with hlong
      · rw [Finds, if_neg (show ¬ runLen + 1 < numBlocks by omega)]
        refine ⟨⟨by omega, fun k hk => hrun' _ (by omega) (by omega)⟩, fun s hs => ?_⟩
        by_contra hlt
        exact hbefore s (not_le.mp hlt) hs
      · exact ih ⟨by omega, by omega, hrun', hbefore⟩ (by omega)
    · -- no candidate goes over a clear bit
      rw [if_pos hset]
      refine ih ⟨rfl, by omega, fun k hk hk' => by omega, fun s hs => ?_⟩ (by omega)
      by_cases hlt : s < regStart
      · exact hbefore s hlt
      · exact RegionAt.not_of_clear (by simpa using hset) (by omega) (by omega)

/-- `reg_start` is `0` at the start of a pass, or else a bit among the first `num_blocks` is clear. -/
def Carried (numBlocks bitmapEntries : ℕ) (t : Tool) : Prop :=
  t.regStart = 0 ∨ ∃ z < numBlocks, z < bitmapEntries ∧ bitSet t.bitmap z = false

/-- While the scan has not come to that bit, the run is too short whatever `reg_start` is. -/
theorem finds_of_clear {z : ℕ} (hz : z < numBlocks) (hclear : bitSet bitmap z = false) (hi : i ≤ z)
    (hz' : z < bitmapEntries) (hrest : i + rest = bitmapEntries) :
    Finds bitmap numBlocks bitmapEntries (scanBits bitmap numBlocks rest i regStart i) := by
  induction rest generalizing i with
  | zero => omega
  | succ rest ih =>
    rw [scanBits]
    by_cases hset : bitSet bitmap i = true
    · have hne : i ≠ z := by
        rintro rfl
        rw [hclear] at hset
        cases hset
      rw [if_neg (not_not.mpr hset), if_neg (by omega)]
      exact ih (by omega) (by omega)
    · rw [if_pos hset]
      refine Scanned.finds ⟨rfl, by omega, fun k hk hk' => by omega, fun s hs => ?_⟩ (by omega)
      exact RegionAt.not_of_clear (by simpa using hset) (by omega) (by omega)

/-- **The scan** finds the least candidate. -/
theorem Carried.scan_spec (h : Carried numBlocks bitmapEntries t) (hn : 1 ≤ numBlocks) :
    Finds t.bitmap numBlocks bitmapEntries (scanBits t.bitmap numBlocks bitmapEntries 0 t.regStart 0) := by
  rcases h with h₀ | ⟨z, hz, hz', hclear⟩
  · rw [h₀]
    exact Scanned.finds ⟨rfl, hn, fun k _ hk => by omega, fun s hs => by omega⟩ (Nat.zero_add _)
  · exact finds_of_clear hz hclear (Nat.zero_le _) hz' (Nat.zero_add _)

/-! ### A pass -/

/-- A loop over blocks keeps what is kept for each block. -/
theorem foldlM_keeps {β : Type} {f : Tool → ℕ → Except Tool Tool} (g : Tool → β)
    (hok : ∀ t b t', f t b = .ok t' → g t' = g t) (herror : ∀ t b t', f t b = .error t' → g t' = g t)
    (bs : List ℕ) (t : Tool) : (∀ t', bs.foldlM f t = .ok t' → g t' = g t) ∧
      ∀ t', bs.foldlM f t = .error t' → g t' = g t := by
  induction bs generalizing t with
  | nil =>
    constructor
    · rintro _ ⟨⟩
      rfl
    · rintro _ ⟨⟩
  | cons b bs ih =>
    rw [List.foldlM_cons]
    cases hb : f t b with
    | error u =>
      constructor
      · rintro _ ⟨⟩
      · rintro _ ⟨⟩
        exact herror t b u hb
    | ok u =>
      have hu := hok t b u hb
      exact ⟨fun t' h => ((ih u).1 t' h).trans hu, fun t' h => ((ih u).2 t' h).trans hu⟩

theorem offlineBlock_keeps (a : BlockAnswers) (bs : List ℕ) (t : Tool) :
    (∀ t', bs.foldlM (Tool.offlineBlock a) t = .ok t' → (t'.bitmap, t'.regStart) = (t.bitmap, t.regStart)) ∧
      ∀ t', bs.foldlM (Tool.offlineBlock a) t = .error t' → (t'.bitmap, t'.regStart) = (t.bitmap, t.regStart) := by
  refine foldlM_keeps (fun t => (t.bitmap, t.regStart)) (fun t b t' h => ?_) (fun t b t' h => ?_) bs t <;>
  · unfold Tool.offlineBlock at h
    split_ifs at h <;> cases h <;> rfl

theorem onlineBlock_keeps (a : BlockAnswers) (bs : List ℕ) (t : Tool) :
    (∀ t', bs.foldlM (Tool.onlineBlock a) t = .ok t' → (t'.bitmap, t'.regStart) = (t.bitmap, t.regStart)) ∧
      ∀ t', bs.foldlM (Tool.onlineBlock a) t = .error t' → (t'.bitmap, t'.regStart) = (t.bitmap, t.regStart) := by
  refine foldlM_keeps (fun t => (t.bitmap, t.regStart)) (fun t b t' h => ?_) (fun t b t' h => ?_) bs t <;>
  · unfold Tool.onlineBlock at h
    split_ifs at h
    cases h
    rfl

/-- How the check of the blocks from number `i` on can end. -/
inductive Checked (a : BlockAnswers) (t : Tool) (rest i : ℕ) : Except Tool (Tool × Bool) → Prop where
  /-- With an error. -/
  | fileError {t' : Tool} (regStart : t'.regStart = t.regStart) : Checked a t rest i (.error t')
  /-- All blocks are said to be offline. -/
  | ready (all : ∀ k, i ≤ k → k < i + rest → a.SaysOffline (k + t.regStart)) : Checked a t rest i (.ok (t, true))
  /-- Block number `k` is not; those before it are brought back. -/
  | again {k : ℕ} {t' : Tool} (le : i ≤ k) (lt : k < i + rest)
      (before : ∀ l, i ≤ l → l < k → a.SaysOffline (l + t.regStart)) (refuses : a.Refuses (k + t.regStart))
      (back : (List.range' t.regStart k).foldlM (Tool.onlineBlock a)
        { t with bitmap := clearBit t.bitmap (k + t.regStart) } = .ok t') : Checked a t rest i (.ok (t', false))

theorem checkLoop_checked (a : BlockAnswers) (t : Tool) (rest i : ℕ) : Checked a t rest i (t.checkLoop a rest i) := by
  induction rest generalizing i with
  | zero => exact .ready fun k _ _ => by omega
  | succ rest ih =>
    rw [Tool.checkLoop]
    cases hstatus : a.status (i + t.regStart) with
    | openFails => exact .fileError rfl
    | readFails => exact .fileError rfl
    | text statusBuf =>
      by_cases hsaid : saysOffline statusBuf = true
      · have hi : ∀ k, i ≤ k → (i + 1 ≤ k → a.SaysOffline (k + t.regStart)) → a.SaysOffline (k + t.regStart) := by
          intro k hk h
          rcases hk.eq_or_lt with rfl | hlt
          · exact ⟨statusBuf, hstatus, hsaid⟩
          · exact h hlt
        have hnext := ih (i + 1)
        simp only [hsaid, if_true]
        generalize t.checkLoop a rest (i + 1) = result at hnext ⊢
        cases hnext with
        | fileError h => exact .fileError h
        | ready h => exact .ready fun k hk hk' => hi k hk fun hlt => h k hlt (by omega)
        | again hle hlt hbefore hrefuses hback =>
          exact .again (by omega) (by omega) (fun l hl hl' => hi l hl fun hlt => hbefore l hlt hl') hrefuses hback
      · simp only [hsaid]
        cases hback : (List.range' t.regStart i).foldlM (Tool.onlineBlock a)
            { t with bitmap := clearBit t.bitmap (i + t.regStart) } with
        | error t' => exact .fileError (Prod.mk.inj ((onlineBlock_keeps a _ _).2 t' hback)).2
        | ok t' =>
          exact .again le_rfl (by omega) (fun l hl hl' => by omega) ⟨statusBuf, hstatus, by simpa using hsaid⟩ hback

/-- What a pass can do, when the scan has given `regStart` and `runLen`. -/
inductive Passed (numBlocks : ℕ) (t : Tool) (a : BlockAnswers) (regStart runLen : ℕ) : PassResult → Prop where
  /-- The run is too short. -/
  | notFound (short : runLen < numBlocks) : Passed numBlocks t a regStart runLen (.notFound runLen)
  /-- A file cannot be opened or read. -/
  | fileError {t' : Tool} (long : numBlocks ≤ runLen) (regStart_eq : t'.regStart = regStart) :
      Passed numBlocks t a regStart runLen (.fileError t')
  /-- The blocks were asked to go offline, and are said to be. -/
  | ready {t' : Tool} (long : numBlocks ≤ runLen)
      (taken : (List.range' regStart numBlocks).foldlM (Tool.offlineBlock a) { t with regStart := regStart } = .ok t')
      (all : ∀ k < numBlocks, a.SaysOffline (k + regStart)) : Passed numBlocks t a regStart runLen (.ready t')
  /-- They were asked, and number `k` is not. -/
  | again {k : ℕ} {u t' : Tool} (long : numBlocks ≤ runLen)
      (taken : (List.range' regStart numBlocks).foldlM (Tool.offlineBlock a) { t with regStart := regStart } = .ok u)
      (lt : k < numBlocks) (before : ∀ l < k, a.SaysOffline (l + regStart)) (refuses : a.Refuses (k + regStart))
      (back : (List.range' regStart k).foldlM (Tool.onlineBlock a)
        { u with bitmap := clearBit t.bitmap (k + regStart) } = .ok t') :
      Passed numBlocks t a regStart runLen (.again t')

theorem pass_passed (numBlocks bitmapEntries : ℕ) (t : Tool) (a : BlockAnswers) :
    Passed numBlocks t a (scanBits t.bitmap numBlocks bitmapEntries 0 t.regStart 0).1
      (scanBits t.bitmap numBlocks bitmapEntries 0 t.regStart 0).2 (t.pass numBlocks bitmapEntries a) := by
  unfold Tool.pass
  obtain ⟨regStart, runLen⟩ := scanBits t.bitmap numBlocks bitmapEntries 0 t.regStart 0
  simp only
  split_ifs with hshort
  · exact .notFound hshort
  · have hlong : numBlocks ≤ runLen := not_lt.mp hshort
    cases htaken : (List.range' regStart numBlocks).foldlM (Tool.offlineBlock a) { t with regStart := regStart } with
    | error u => exact .fileError hlong (Prod.mk.inj ((offlineBlock_keeps a _ _).2 u htaken)).2
    | ok u =>
      obtain ⟨hbitmap, hstart⟩ := Prod.mk.inj ((offlineBlock_keeps a _ _).1 u htaken)
      have hbitmap : u.bitmap = t.bitmap := hbitmap
      have hstart : u.regStart = regStart := hstart
      have hchecked := checkLoop_checked a u numBlocks 0
      simp only
      generalize u.checkLoop a numBlocks 0 = result at hchecked ⊢
      cases hchecked with
      | fileError h => exact .fileError hlong (h.trans hstart)
      | ready hall => exact .ready hlong htaken fun k hk => hstart ▸ hall k (Nat.zero_le _) (by omega)
      | again _ hlt hbefore hrefuses hback =>
        subst hstart
        rw [hbitmap] at hback
        exact .again hlong htaken (by omega) (fun l hl => hbefore l (Nat.zero_le _) hl) hrefuses hback

/-- After a pass that found a candidate, `reg_start` is the start of it. -/
theorem Passed.start_eq {result : PassResult} (h : Passed numBlocks t a regStart runLen result)
    (ht : result.tool = some t') : numBlocks ≤ runLen ∧ t'.regStart = regStart := by
  cases h with
  | notFound _ => cases ht
  | fileError hlong heq =>
    obtain rfl := Option.some.inj ht
    exact ⟨hlong, heq⟩
  | ready hlong htaken _ =>
    obtain rfl := Option.some.inj ht
    exact ⟨hlong, (Prod.mk.inj ((offlineBlock_keeps a _ _).1 _ htaken)).2⟩
  | again hlong htaken _ _ _ hback =>
    obtain rfl := Option.some.inj ht
    exact ⟨hlong, (Prod.mk.inj ((onlineBlock_keeps a _ _).1 _ hback)).2.trans
      (Prod.mk.inj ((offlineBlock_keeps a _ _).1 _ htaken)).2⟩

/-- **One pass** does what it should. -/
theorem Carried.searchSpec (h : Carried numBlocks bitmapEntries t) (hn : 1 ≤ numBlocks) (a : BlockAnswers) :
    SearchSpec numBlocks bitmapEntries t a := by
  have hfinds := h.scan_spec hn
  have hpassed := pass_passed numBlocks bitmapEntries t a
  unfold Finds at hfinds
  generalize scanBits t.bitmap numBlocks bitmapEntries 0 t.regStart 0 = found at hfinds hpassed
  obtain ⟨regStart, runLen⟩ := found
  simp only at hfinds hpassed
  constructor
  · constructor
    · rintro ⟨n, hn⟩
      rw [hn] at hpassed
      cases hpassed with
      | notFound hshort => rwa [if_pos hshort] at hfinds
    · intro hnone
      have hshort : runLen < numBlocks := by
        by_contra hlong
        rw [if_neg hlong] at hfinds
        exact hnone _ hfinds.1
      generalize t.pass numBlocks bitmapEntries a = result at hpassed ⊢
      cases hpassed with
      | notFound _ => exact ⟨_, rfl⟩
      | fileError hlong _ => omega
      | ready hlong _ _ => omega
      | again hlong _ _ _ _ _ => omega
  · intro t' ht'
    obtain ⟨hlong, hstart⟩ := hpassed.start_eq ht'
    rw [if_neg (not_lt.mpr hlong)] at hfinds
    rwa [hstart]
  · intro t' ht' b hb hb'
    have hstart := (hpassed.start_eq (by rw [ht']; rfl)).2
    rw [ht'] at hpassed
    cases hpassed with
    | ready _ _ hall =>
      have := hall (b - regStart) (by omega)
      rwa [show b - regStart + regStart = b by omega] at this

/-! ### All passes -/

/-- The bitmap after a pass that is not the last: a bit of the candidate has been cleared. -/
theorem Carried.again (h : Carried numBlocks bitmapEntries t) (hn : 1 ≤ numBlocks)
    (hagain : Tool.Again numBlocks bitmapEntries t a t') :
    IsLeast {s | RegionAt numBlocks bitmapEntries t.bitmap s} t'.regStart ∧
      ∃ k < numBlocks, t'.bitmap = clearBit t.bitmap (k + t'.regStart) := by
  have hleast := (h.searchSpec hn a).least t' (by rw [hagain]; rfl)
  refine ⟨hleast, ?_⟩
  have hpassed := pass_passed numBlocks bitmapEntries t a
  rw [hagain] at hpassed
  have hstart := (hpassed.start_eq rfl).2
  cases hpassed with
  | @again k _ _ _ _ hlt _ _ hback =>
    refine ⟨k, hlt, ?_⟩
    rw [hstart]
    exact (Prod.mk.inj ((onlineBlock_keeps a _ _).1 _ hback)).1

theorem Carried.step (h : Carried numBlocks bitmapEntries t) (hn : 1 ≤ numBlocks)
    (hagain : Tool.Again numBlocks bitmapEntries t a t') : Carried numBlocks bitmapEntries t' := by
  obtain ⟨⟨⟨hle, hset⟩, hleast⟩, k, hk, hbitmap⟩ := h.again hn hagain
  by_cases h₀ : t'.regStart = 0
  · exact .inl h₀
  · -- `0` is no candidate
    right
    by_contra hall
    push Not at hall
    have hzero : RegionAt numBlocks bitmapEntries t.bitmap 0 := by
      refine ⟨by omega, fun z hz => ?_⟩
      have := hall z hz (by omega)
      rw [hbitmap, bitSet_clearBit] at this
      simp only [ne_eq, Bool.not_eq_false, Bool.and_eq_true] at this
      rw [Nat.zero_add]
      exact this.1
    exact h₀ (Nat.le_zero.mp (hleast hzero))

end

/-- All files open, and all blocks go offline but those of a list. -/
def BlockAnswers.allBut (online : List ℕ) : BlockAnswers where
  opens := fun _ => true
  goes := fun b => b ∉ online
  status := fun b => .text (if b ∈ online then "online".toList else "offline".toList)
  reopens := fun _ => true

end PetLab.VMproject
