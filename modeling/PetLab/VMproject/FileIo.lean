import Mathlib.Data.List.Basic
import Mathlib.Data.List.Range
import Mathlib.Tactic.SplitIfs

/-!
# `mkdir_recursive`

`mkdir_recursive` of `VMproject/file_io.c` copies a path into a buffer and goes through it with two
pointers: `dirname_ptr` is at the start of a component and `tmp_iter` runs to the end of it. There the
buffer is cut, `file_mkdir` is called on it, and the slash is put back.

The calls come out in the order of their lengths, each on a prefix of the path that ends with
a component (`mkdirLoop_spec`). But a component counts as empty when it has fewer than two
characters, so that a directory is missing for each one with exactly one
(`mkdir_recursive_iff`).

## The model

`tmp_str` is a list of characters that ends with the null character, and the pointers are
positions in it. A read behind its end is `none`, and so is a run that takes more rounds than
it was given. What the kernel does for `file_mkdir` is a parameter, and may depend on the calls made
before. The messages of `printk` and `kfree` are left out.
-/

namespace PetLab.VMproject

/-- `isprint`. -/
def isprint (c : Char) : Prop := ' ' ≤ c ∧ c ≤ '~'

instance (c : Char) : Decidable (isprint c) := inferInstanceAs (Decidable (_ ∧ _))

/-- The calls of `file_mkdir`: the path, and what was returned. -/
abbrev MkdirLog := List (List Char × ℤ)

/-- What the kernel answers. -/
structure Vfs where
  /-- `kern_path_create` gives an entry for a new directory. -/
  kernPathCreate : MkdirLog → List Char → Bool
  /-- `vfs_mkdir`. -/
  vfsMkdir : MkdirLog → List Char → BitVec 16 → ℤ

/-- `file_mkdir`, with `recurse` zero, from Linux 3.1 on. -/
def Vfs.fileMkdir (v : Vfs) (log : MkdirLog) (pathname : List Char) (perms : BitVec 16) : ℤ :=
  if v.kernPathCreate log pathname then v.vfsMkdir log pathname perms else 0

/-- How the inner loop ends. -/
inductive Scan where
  /-- At a slash or at the end of the string. -/
  | stop (tmpIter : ℕ)
  /-- At a character that is not printable. -/
  | invalid
  /-- Behind the buffer. -/
  | overrun

/-- The inner loop, on the rest of the buffer from `tmp_iter` on. -/
def scan : List Char → ℕ → Scan
  | [], _ => .overrun
  | c :: cs, tmpIter =>
    if c ≠ '/' ∧ c ≠ '\x00' then
      if isprint c then scan cs (tmpIter + 1) else .invalid
    else .stop tmpIter

/-- The variables of `mkdir_recursive`. -/
structure MkdirVars where
  tmpStr : List Char
  dirnamePtr : ℕ
  tmpIter : ℕ
  log : MkdirLog

/-- The string at the start of a buffer. -/
def cString (buf : List Char) : List Char := buf.takeWhile (· ≠ '\x00')

/-- The outer loop. -/
def mkdirLoop (v : Vfs) (perms : BitVec 16) : ℕ → MkdirVars → Option (ℤ × MkdirLog)
  | 0, _ => none
  | fuel + 1, s =>
    match scan (s.tmpStr.drop s.tmpIter) s.tmpIter with
    | .overrun => none
    | .invalid => some (-1, s.log)
    | .stop tmpIter =>
      let done := s.tmpStr[tmpIter]? ≠ some '/'
      let tmpStr := if done then s.tmpStr else s.tmpStr.set tmpIter '\x00'
      let ret := v.fileMkdir s.log (cString tmpStr) perms
      let log := if tmpIter - s.dirnamePtr > 1 then s.log ++ [(cString tmpStr, ret)] else s.log
      if tmpIter - s.dirnamePtr > 1 ∧ ret ≠ 0 then some (-1, log)
      else if done then some (0, log)
      else mkdirLoop v perms fuel ⟨tmpStr.set tmpIter '/', tmpIter + 1, tmpIter + 1, log⟩

/-- `mkdir_recursive`; `kmalloc` says whether there was memory for the buffer. -/
def mkdirRecursive (v : Vfs) (kmalloc : Bool) (fuel : ℕ) (path : List Char) (perms : BitVec 16) :
    Option (ℤ × MkdirLog) :=
  if kmalloc then mkdirLoop v perms fuel ⟨path ++ ['\x00'], 0, 0, []⟩ else some (-1, [])

/-! ### What it is for -/

/-- The first `k` characters of the path end with a component. -/
def EndsComponent (path : List Char) (k : ℕ) : Prop :=
  0 < k ∧ k ≤ path.length ∧ path[k - 1]? ≠ some '/' ∧ (k = path.length ∨ path[k]? = some '/')

instance (path : List Char) (k : ℕ) : Decidable (EndsComponent path k) := inferInstanceAs (Decidable (_ ∧ _))

/-- The component that ends there has one character only. -/
def OneCharacter (path : List Char) (k : ℕ) : Prop :=
  EndsComponent path k ∧ (k = 1 ∨ path[k - 2]? = some '/')

instance (path : List Char) (k : ℕ) : Decidable (OneCharacter path k) := inferInstanceAs (Decidable (_ ∧ _))

/-- The directories of a path, from the first one to the path itself. -/
def directories (path : List Char) : List (List Char) :=
  ((List.range' 1 path.length).filter (EndsComponent path ·)).map path.take

/-- It returns `0`, after one call for each directory of the path. -/
def VisitsAll (v : Vfs) (kmalloc : Bool) (fuel : ℕ) (path : List Char) (perms : BitVec 16) : Prop :=
  mkdirRecursive v kmalloc fuel path perms = some (0, (directories path).map fun dir => (dir, 0))

/-! ### The inner loop -/

section

variable {v : Vfs} {kmalloc : Bool} {fuel i j : ℕ} {path : List Char} {perms : BitVec 16} {log : MkdirLog}

/-- Where the inner loop stops that starts at `i`. -/
structure Stops (path : List Char) (i j : ℕ) : Prop where
  le : i ≤ j
  len : j ≤ path.length
  noSlash : ∀ k, i ≤ k → k < j → path[k]? ≠ some '/'
  stop : j = path.length ∨ path[j]? = some '/'

theorem not_isprint_null : ¬ isprint '\x00' := by decide

/-- The inner loop runs to the next slash, or else to the end. -/
theorem exists_scan (before rest : List Char) (hrest : ∀ c ∈ rest, c ≠ '/' → isprint c)
    (hpath : path = before ++ rest) :
    ∃ j, scan (rest ++ ['\x00']) before.length = .stop j ∧ Stops path before.length j := by
  induction rest generalizing before with
  | nil =>
    have hlen : path.length = before.length := by simp [hpath]
    exact ⟨before.length, by simp [scan], le_rfl, hlen.ge, fun k _ _ => by omega, .inl hlen.symm⟩
  | cons c rest ih =>
    have hget : path[before.length]? = some c := by simp [hpath]
    have hlen : before.length < path.length := by simp [hpath]
    by_cases hc : c = '/'
    · exact ⟨before.length, by simp [scan, hc], le_rfl, hlen.le, fun k _ _ => by omega, .inr (hc ▸ hget)⟩
    · have hp := hrest c List.mem_cons_self hc
      have hnull : c ≠ '\x00' := fun h => not_isprint_null (h ▸ hp)
      obtain ⟨j, hj, hstops⟩ := ih (before ++ [c]) (fun d hd => hrest d (List.mem_cons_of_mem _ hd))
        (by simp [hpath])
      rw [List.length_append, List.length_singleton] at hj hstops
      have hle := hstops.le
      refine ⟨j, ?_, by omega, hstops.len, fun k hk hk' => ?_, hstops.stop⟩
      · rw [List.cons_append, scan, if_pos ⟨hc, hnull⟩, if_pos hp, hj]
      · rcases hk.eq_or_lt with rfl | hk
        · simpa [hget] using hc
        · exact hstops.noSlash k hk hk'

/-! ### The components -/

/-- The ends, behind `i`, of the components that `file_mkdir` is called for. -/
def endsAfter (path : List Char) (i : ℕ) : List ℕ :=
  (List.range' (i + 1) (path.length - i)).filter fun k => EndsComponent path k ∧ ¬ OneCharacter path k

/-- The first of them is where the inner loop stops, if it has gone more than one character. -/
theorem Stops.endsAfter (h : Stops path i j) (hstart : i = 0 ∨ path[i - 1]? = some '/') :
    endsAfter path i = (if j - i > 1 then [j] else []) ++
      if path[j]? = some '/' then endsAfter path (j + 1) else [] := by
  obtain ⟨hle, hlen, hnone, hstop⟩ := h
  have hsplit : List.range' (i + 1) (path.length - i) =
      List.range' (i + 1) (j - i) ++ List.range' (j + 1) (path.length - j) := by
    rw [show path.length - i = (j - i) + (path.length - j) by omega, ← List.range'_append_1,
      show i + 1 + (j - i) = j + 1 by omega]
  rw [VMproject.endsAfter, hsplit, List.filter_append]
  congr 1
  · -- no component ends before `j`
    rcases hle.eq_or_lt with rfl | hlt
    · simp
    · have hinner : (List.range' (i + 1) (j - i - 1)).filter
          (fun k => EndsComponent path k ∧ ¬ OneCharacter path k) = [] := by
        rw [List.filter_eq_nil_iff]
        intro k hk
        rw [List.mem_range'_1] at hk
        have hslash := hnone k (by omega) (by omega)
        simp only [EndsComponent, hslash, or_false, decide_eq_true_eq, not_and]
        omega
      have hends : EndsComponent path j := ⟨by omega, hlen, hnone _ (by omega) (by omega), hstop⟩
      have hone : OneCharacter path j ↔ j = i + 1 := by
        constructor
        · rintro ⟨-, rfl | hslash⟩
          · omega
          · by_contra hne
            exact hnone _ (by omega) (by omega) hslash
        · rintro rfl
          refine ⟨hends, ?_⟩
          rcases hstart with rfl | hslash
          · exact .inl rfl
          · exact .inr hslash
      rw [show j - i = (j - i - 1) + 1 by omega, List.range'_1_concat, List.filter_append, hinner,
        show i + 1 + (j - i - 1) = j by omega]
      simp only [hends, hone, true_and, List.nil_append, List.filter_singleton, Bool.cond_decide]
      exact if_congr (by omega) rfl rfl
  · split_ifs with hslash
    · -- nothing ends with a slash
      have hlt : j < path.length := (List.getElem?_eq_some_iff.mp hslash).1
      have hnot : ¬ EndsComponent path (j + 1) := fun h => h.2.2.1 (by simpa using hslash)
      rw [show path.length - j = (path.length - (j + 1)) + 1 by omega, List.range'_succ, List.filter_cons_of_neg]
      · rfl
      · simp [hnot]
    · have hend : j = path.length := hstop.resolve_right hslash
      simp [hend]

/-! ### The outer loop -/

theorem cString_append {before after : List Char} (h : ∀ c ∈ before, c ≠ '\x00') :
    cString (before ++ '\x00' :: after) = before := by
  rw [cString, List.takeWhile_append_of_pos (by simpa using h)]
  simp

/-- The buffer, cut at the end of a component. -/
theorem Stops.cut (h : Stops path i j) (hnull : ∀ c ∈ path, c ≠ '\x00') :
    cString (if (path ++ ['\x00'])[j]? ≠ some '/' then path ++ ['\x00'] else (path ++ ['\x00']).set j '\x00') =
      path.take j := by
  have htake : ∀ c ∈ path.take j, c ≠ '\x00' := fun c hc => hnull c (List.mem_of_mem_take hc)
  split_ifs with hslash
  · have hj : j = path.length := h.stop.resolve_right fun h' => hslash (by
      rw [List.getElem?_append_left (List.getElem?_eq_some_iff.mp h').1, h'])
    rw [cString_append hnull, hj, List.take_length]
  · rw [List.set_eq_take_append_cons_drop, if_pos (by simpa using Nat.lt_succ_of_le h.len),
      List.take_append_of_le_length h.len, cString_append htake]

theorem Stops.slash_iff (h : Stops path i j) : (path ++ ['\x00'])[j]? = some '/' ↔ path[j]? = some '/' := by
  rcases h.len.eq_or_lt with rfl | hlt
  · simp
  · rw [List.getElem?_append_left hlt]

/-- The slash is put back. -/
theorem Stops.restore (hslash : path[j]? = some '/') :
    ((path ++ ['\x00']).set j '\x00').set j '/' = path ++ ['\x00'] := by
  obtain ⟨hlt, hget⟩ := List.getElem?_eq_some_iff.mp hslash
  rw [List.set_set, List.set_append_left _ _ hlt, ← hget, List.set_getElem_self]

/-- The call that is made for the component from `i` to `j`, if it is one. -/
def callFor (v : Vfs) (perms : BitVec 16) (path : List Char) (log : MkdirLog) (i j : ℕ) : MkdirLog :=
  if j - i > 1 then [(path.take j, v.fileMkdir log (path.take j) perms)] else []

/-- One round. -/
theorem Stops.mkdirLoop (h : Stops path i j) (hnull : ∀ c ∈ path, c ≠ '\x00')
    (hscan : scan ((path ++ ['\x00']).drop i) i = .stop j) :
    mkdirLoop v perms (fuel + 1) ⟨path ++ ['\x00'], i, i, log⟩ =
      if j - i > 1 ∧ v.fileMkdir log (path.take j) perms ≠ 0 then some (-1, log ++ callFor v perms path log i j)
      else if path[j]? = some '/' then
        VMproject.mkdirLoop v perms fuel ⟨path ++ ['\x00'], j + 1, j + 1, log ++ callFor v perms path log i j⟩
      else some (0, log ++ callFor v perms path log i j) := by
  have hlog : (if j - i > 1 then log ++ [(path.take j, v.fileMkdir log (path.take j) perms)] else log) =
      log ++ callFor v perms path log i j := by
    rw [callFor]
    split_ifs
    · rfl
    · rw [List.append_nil]
  simp only [VMproject.mkdirLoop, hscan, h.cut hnull, hlog]
  by_cases hslash : path[j]? = some '/'
  · simp only [h.slash_iff.mpr hslash, hslash, ne_eq, not_true_eq_false, if_false, if_true, Stops.restore hslash]
  · simp only [mt h.slash_iff.mp hslash, hslash, ne_eq, not_false_eq_true, if_false, if_true]

/-- If the call returns `0`, it is as it should be. -/
theorem callFor_eq (h : ∀ call ∈ callFor v perms path log i j, call.2 = 0) :
    callFor v perms path log i j = (if j - i > 1 then [j] else []).map fun k => (path.take k, 0) := by
  unfold callFor at h ⊢
  split_ifs at h ⊢ with hlong
  · have hret : v.fileMkdir log (path.take j) perms = 0 := h _ (List.mem_singleton_self _)
    rw [hret]
    rfl
  · rfl

/-- **The outer loop** ends. If all calls return `0`, so does the function, and the calls it
makes from a position on are for the components that end behind it. -/
theorem mkdirLoop_spec (v : Vfs) (perms : BitVec 16) (log : MkdirLog)
    (hpath : ∀ c ∈ path, c ≠ '/' → isprint c) (hi : i ≤ path.length) (hstart : i = 0 ∨ path[i - 1]? = some '/')
    (hfuel : path.length - i < fuel) :
    ∃ ret calls, mkdirLoop v perms fuel ⟨path ++ ['\x00'], i, i, log⟩ = some (ret, log ++ calls) ∧
      ((∀ call ∈ calls, call.2 = 0) → ret = 0 ∧ calls = (endsAfter path i).map fun k => (path.take k, 0)) := by
  induction fuel generalizing i log with
  | zero => omega
  | succ fuel ih =>
    have hnull : ∀ c ∈ path, c ≠ '\x00' := by
      rintro c hc rfl
      exact not_isprint_null (hpath _ hc (by decide))
    obtain ⟨j, hscan, hstops⟩ := exists_scan (path.take i) (path.drop i)
      (fun c hc => hpath c (List.mem_of_mem_drop hc)) (List.take_append_drop i path).symm
    rw [List.length_take_of_le hi, ← List.drop_append_of_le_length hi] at hscan
    rw [List.length_take_of_le hi] at hstops
    have hle := hstops.le
    rw [hstops.mkdirLoop hnull hscan, hstops.endsAfter hstart]
    by_cases hfail : j - i > 1 ∧ v.fileMkdir log (path.take j) perms ≠ 0
    · rw [if_pos hfail]
      refine ⟨-1, _, rfl, fun h => absurd (h (path.take j, _) ?_) hfail.2⟩
      rw [callFor, if_pos hfail.1]
      exact List.mem_singleton_self _
    · rw [if_neg hfail]
      by_cases hslash : path[j]? = some '/'
      · have hlt : j < path.length := (List.getElem?_eq_some_iff.mp hslash).1
        obtain ⟨ret, calls, hloop, hzero⟩ := ih (log ++ callFor v perms path log i j) hlt
          (.inr (by simpa using hslash)) (by omega)
        rw [if_pos hslash, if_pos hslash, hloop, List.append_assoc]
        refine ⟨ret, _, rfl, fun h => ?_⟩
        obtain ⟨hret, hcalls⟩ := hzero fun call hc => h call (List.mem_append_right _ hc)
        refine ⟨hret, ?_⟩
        rw [List.map_append, ← hcalls, ← callFor_eq fun call hc => h call (List.mem_append_left _ hc)]
      · rw [if_neg hslash, if_neg hslash]
        refine ⟨0, _, rfl, fun h => ⟨rfl, ?_⟩⟩
        rw [List.append_nil, callFor_eq h]

/-! ### The directories -/

/-- The calls are for all directories if and only if no component has one character only. -/
theorem map_take_endsAfter_iff : (endsAfter path 0).map path.take = directories path ↔ ∀ k, ¬ OneCharacter path k := by
  constructor
  · intro h k hk
    have hmem : path.take k ∈ (endsAfter path 0).map path.take := by
      rw [h, directories]
      refine List.mem_map_of_mem (List.mem_filter.mpr ⟨List.mem_range'_1.mpr ⟨hk.1.1, ?_⟩, by simpa using hk.1⟩)
      have := hk.1.2.1
      omega
    obtain ⟨l, hl, htake⟩ := List.mem_map.mp hmem
    obtain ⟨hends, hlong⟩ := of_decide_eq_true (List.mem_filter.mp hl).2
    have hlen := congrArg List.length htake
    rw [List.length_take_of_le hends.2.1, List.length_take_of_le hk.1.2.1] at hlen
    exact hlong (hlen ▸ hk)
  · intro h
    rw [endsAfter, directories]
    simp [h]

/-- **`mkdir_recursive`** ends. If every call of `file_mkdir` returns `0`, it visits every
directory of the path exactly when it had memory and no component has one character only. -/
theorem mkdir_recursive_iff (v : Vfs) (kmalloc : Bool) (path : List Char) (perms : BitVec 16) (fuel : ℕ)
    (hfuel : path.length < fuel) (hpath : ∀ c ∈ path, c ≠ '/' → isprint c)
    (hmkdir : ∀ ret log, mkdirRecursive v kmalloc fuel path perms = some (ret, log) → ∀ call ∈ log, call.2 = 0) :
    VisitsAll v kmalloc fuel path perms ↔ kmalloc = true ∧ ∀ k, ¬ OneCharacter path k := by
  unfold VisitsAll
  cases kmalloc with
  | false => simp [mkdirRecursive]
  | true =>
    simp only [mkdirRecursive, if_true] at hmkdir ⊢
    obtain ⟨ret, calls, hloop, hzero⟩ := mkdirLoop_spec v perms [] hpath (Nat.zero_le _) (.inl rfl)
      (show path.length - 0 < fuel by omega)
    obtain ⟨hret, hcalls⟩ := hzero (hmkdir _ _ hloop)
    have hinj : Function.Injective (List.map fun dir : List Char => (dir, (0 : ℤ))) :=
      List.map_injective_iff.mpr fun _ _ h => (Prod.mk.inj h).1
    have hpairs : calls = ((endsAfter path 0).map path.take).map fun dir => (dir, 0) := by
      rw [hcalls, List.map_map]
      rfl
    rw [hloop, hret, hpairs, List.nil_append]
    simp only [Option.some.injEq, Prod.mk.injEq, true_and, hinj.eq_iff]
    exact map_take_endsAfter_iff

end

/-- A kernel in which every directory is made. -/
def Vfs.willing : Vfs := ⟨fun _ _ => true, fun _ _ _ => 0⟩

/-- Two directories, with slashes to spare. -/
theorem mkdir_recursive_iff_slashes :
    VisitsAll .willing true 13 "//dev//maps/".toList 0o755 ∧
      directories "//dev//maps/".toList = ["//dev".toList, "//dev//maps".toList] := by
  have hrun : mkdirRecursive .willing true 13 "//dev//maps/".toList 0o755 =
      some (0, [("//dev".toList, 0), ("//dev//maps".toList, 0)]) := by decide +kernel
  have hlong : ∀ k ≤ 12, ¬ OneCharacter "//dev//maps/".toList k := by decide +kernel
  have hprint : "//dev//maps/".toList.all (fun c => c = '/' ∨ isprint c) = true := by decide +kernel
  refine ⟨?_, by decide +kernel⟩
  refine (mkdir_recursive_iff .willing true _ _ 13 (by decide +kernel) (fun c hc hne => ?_) fun ret log h => ?_).mpr
    ⟨rfl, fun k hk => hlong k hk.1.2.1 hk⟩
  · exact (of_decide_eq_true (List.all_eq_true.mp hprint c hc)).resolve_left hne
  · obtain ⟨rfl, rfl⟩ := Prod.mk.inj (Option.some.inj (hrun.symm.trans h))
    simp

/-- The only component of `/a` is taken for an empty one. -/
theorem mkdir_recursive_one_character :
    mkdirRecursive .willing true 3 ['/', 'a'] 0o755 = some (0, []) ∧ directories ['/', 'a'] = [['/', 'a']] ∧
      ¬ VisitsAll .willing true 3 ['/', 'a'] 0o755 := by
  refine ⟨by decide, by decide, ?_⟩
  unfold VisitsAll
  decide

end PetLab.VMproject
