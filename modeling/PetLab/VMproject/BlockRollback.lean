import PetLab.VMproject.BlockSearch

/-!
# What the `petmem` tool leaves offline

The blocks of a candidate are all asked to go offline before the first of them is checked. When the check
comes to a block that is still online, the loop `for (j = 0; j < i; j++)` brings back
the blocks before that one. Those behind it were asked as well, and stay offline.

If such a block comes after the last run that is long enough, it is never asked again. So a pass
leaves no block behind exactly when no block goes offline that comes behind one that stays
online (`rolledBack_iff`).

Here the check tells the truth (`Truthful`).
-/

namespace PetLab.VMproject

open PetLab.Lib

/-- A block was online and goes offline when it is asked. -/
def GoesOffline (t : Tool) (a : BlockAnswers) (b : ℕ) : Prop := t.offline b = false ∧ a.goes b = true

/-- A block stays online. -/
def StaysOnline (t : Tool) (a : BlockAnswers) (b : ℕ) : Prop := t.offline b = false ∧ a.goes b = false

/-- The check says of a block that was asked to go offline whether it is. -/
def Truthful (t : Tool) (a : BlockAnswers) : Prop :=
  ∀ b statusBuf, a.status b = .text statusBuf → (saysOffline statusBuf = true ↔ ¬ StaysOnline t a b)

/-- No block that the tool took offline is offline. -/
def RolledBack (t : Tool) : Prop := ∀ b ∈ t.took, t.offline b = false

/-- A pass after which there is another one, with a check that tells the truth. -/
def Tool.Retry (numBlocks bitmapEntries : ℕ) : Tool → BlockAnswers → Tool → Prop :=
  Guard Truthful (Tool.Again numBlocks bitmapEntries)

/-- Of the blocks of the candidate, none goes offline that comes behind one that stays online. -/
def NoneBehind (numBlocks bitmapEntries : ℕ) (t : Tool) (a : BlockAnswers) : Prop :=
  ∀ s, IsLeast {s | RegionAt numBlocks bitmapEntries t.bitmap s} s →
    ∀ x b, s ≤ x → x < b → b < s + numBlocks → StaysOnline t a x → ¬ GoesOffline t a b

/-- The blocks that the tool has left offline are those from `reg_start` on. -/
def LeavesRegion (numBlocks : ℕ) (t : Tool) : Prop :=
  ∀ b ∈ t.took, t.offline b = true → t.regStart ≤ b ∧ b < t.regStart + numBlocks

section

variable {bitmap : ℕ → BitVec 8} {numBlocks bitmapEntries b : ℕ} {t t' : Tool} {a : BlockAnswers} {bs : List ℕ}

theorem offlineBlock_ok {c : ℕ} (h : t.offlineBlock a c = .ok t') :
    t'.offline = Function.update t.offline c (t.offline c || a.goes c) ∧
      ∀ b, b ∈ t'.took ↔ b ∈ t.took ∨ b = c ∧ GoesOffline t a c := by
  have hgoes : GoesOffline t a c ↔ ¬ t.offline c = true ∧ a.goes c = true := by simp [GoesOffline]
  rw [hgoes]
  unfold Tool.offlineBlock at h
  by_cases hopen : a.opens c = true
  · rw [if_pos hopen] at h
    cases h
    refine ⟨rfl, fun b => ?_⟩
    split_ifs with hc
    · simp [hc, or_comm]
    · simp only [hc, and_false, or_false]
  · rw [if_neg hopen] at h
    cases h

/-- The blocks, after they were asked to go offline. -/
theorem foldlM_offlineBlock (hnd : bs.Nodup) (h : bs.foldlM (Tool.offlineBlock a) t = .ok t') :
    (∀ b, t'.offline b = (t.offline b || decide (b ∈ bs) && a.goes b)) ∧
      ∀ b, b ∈ t'.took ↔ b ∈ t.took ∨ b ∈ bs ∧ GoesOffline t a b := by
  induction bs generalizing t with
  | nil =>
    cases h
    simp
  | cons c bs ih =>
    obtain ⟨hc, hnd⟩ := List.nodup_cons.mp hnd
    rw [List.foldlM_cons] at h
    cases hu : t.offlineBlock a c with
    | error u =>
      rw [hu] at h
      cases h
    | ok u =>
      rw [hu] at h
      obtain ⟨hoffline, htook⟩ := offlineBlock_ok hu
      obtain ⟨hoffline', htook'⟩ := ih hnd h
      have hother : ∀ b, b ≠ c → u.offline b = t.offline b := fun b hb => by rw [hoffline, Function.update_of_ne hb]
      constructor
      · intro b
        rw [hoffline' b]
        by_cases hb : b = c
        · subst hb
          simp [hc, hoffline]
        · simp [hother b hb, hb]
      · intro b
        rw [htook' b, htook b]
        by_cases hb : b = c
        · subst hb
          simp [hc]
        · simp [hb, GoesOffline, hother b hb]

/-- The blocks, after some were brought back. -/
theorem foldlM_onlineBlock (h : bs.foldlM (Tool.onlineBlock a) t = .ok t') :
    (∀ b, t'.offline b = (t.offline b && decide (b ∉ bs))) ∧ t'.took = t.took := by
  induction bs generalizing t with
  | nil =>
    cases h
    simp
  | cons c bs ih =>
    rw [List.foldlM_cons] at h
    unfold Tool.onlineBlock at h
    by_cases hopen : a.reopens c = true
    · rw [if_pos hopen] at h
      obtain ⟨hoffline, htook⟩ := ih h
      refine ⟨fun b => ?_, htook⟩
      rw [hoffline b]
      by_cases hb : b = c
      · subst hb
        simp
      · simp [hb]
    · rw [if_neg hopen] at h
      cases h

/-- What a pass does whose candidate starts at `s`, and has its first block that stays online at `k + s`. -/
structure Retried (numBlocks bitmapEntries : ℕ) (t : Tool) (a : BlockAnswers) (t' : Tool) (s k : ℕ) : Prop where
  least : IsLeast {s | RegionAt numBlocks bitmapEntries t.bitmap s} s
  lt : k < numBlocks
  stays : StaysOnline t a (k + s)
  first : ∀ l < k, ¬ StaysOnline t a (l + s)
  /-- The blocks of the candidate are asked to go offline, and those before `k + s` are brought back. -/
  offline : ∀ b, t'.offline b =
    ((t.offline b || decide (s ≤ b ∧ b < s + numBlocks) && a.goes b) && decide (¬ (s ≤ b ∧ b < s + k)))
  took : ∀ b, b ∈ t'.took ↔ b ∈ t.took ∨ (s ≤ b ∧ b < s + numBlocks) ∧ GoesOffline t a b

theorem Carried.retried (h : Carried numBlocks bitmapEntries t) (hretry : Tool.Retry numBlocks bitmapEntries t a t') :
    ∃ s k, Retried numBlocks bitmapEntries t a t' s k := by
  obtain ⟨htruth, hagain⟩ := hretry
  have hpassed := pass_passed numBlocks bitmapEntries t a
  have hscan : 1 ≤ numBlocks → _ := h.scan_spec
  rw [hagain] at hpassed
  generalize scanBits t.bitmap numBlocks bitmapEntries 0 t.regStart 0 = found at hscan hpassed
  obtain ⟨s, runLen⟩ := found
  cases hpassed with
  | @again k u _ hlong htaken hlt hbefore hrefuses hback =>
    have hleast := hscan (by omega)
    rw [Finds, if_neg (not_lt.mpr hlong)] at hleast
    obtain ⟨hoffline, htook⟩ := foldlM_offlineBlock List.nodup_range' htaken
    obtain ⟨hoffline', htook'⟩ := foldlM_onlineBlock hback
    simp only [List.mem_range'_1] at hoffline htook hoffline'
    refine ⟨s, k, hleast, hlt, ?_, fun l hl => ?_, fun b => ?_, fun b => ?_⟩
    · obtain ⟨statusBuf, hstatus, hsaid⟩ := hrefuses
      by_contra hstays
      rw [(htruth _ _ hstatus).mpr hstays] at hsaid
      cases hsaid
    · obtain ⟨statusBuf, hstatus, hsaid⟩ := hbefore l hl
      exact (htruth _ _ hstatus).mp hsaid
    · rw [hoffline' b, hoffline b]
    · rw [htook', htook b]
      rfl

theorem Carried.retry (h : Carried numBlocks bitmapEntries t) (hretry : Tool.Retry numBlocks bitmapEntries t a t') :
    Carried numBlocks bitmapEntries t' := by
  obtain ⟨s, k, hr⟩ := h.retried hretry
  exact h.step (Nat.one_le_of_lt hr.lt) hretry.2

/-- **One pass** leaves no block behind exactly if no block goes offline behind one that stays online. -/
theorem rolledBack_iff (h : Carried numBlocks bitmapEntries t) (hback : RolledBack t)
    (hretry : Tool.Retry numBlocks bitmapEntries t a t') :
    RolledBack t' ↔ NoneBehind numBlocks bitmapEntries t a := by
  obtain ⟨s, k, hleast, hk, hstays, hfirst, hoffline, htook⟩ := h.retried hretry
  constructor
  · intro hback' s' hs' x b hx hxb hb hxstays hgoes
    obtain rfl := hs'.unique hleast
    -- the first block that stays online is not behind `x`
    have hkx : k + s' ≤ x := by
      by_contra hlt
      refine hfirst (x - s') (by omega) ?_
      rwa [Nat.sub_add_cancel hx]
    have hmem : b ∈ t'.took := (htook b).mpr (.inr ⟨⟨by omega, hb⟩, hgoes⟩)
    have hoff := hback' b hmem
    rw [hoffline b, hgoes.2] at hoff
    simp only [Bool.and_true, Bool.and_eq_false_iff, Bool.or_eq_false_iff, decide_eq_false_iff_not, not_not] at hoff
    omega
  · intro hnone b hb
    by_contra hoff
    rw [Bool.not_eq_false, hoffline b, Bool.and_eq_true, decide_eq_true_eq] at hoff
    obtain ⟨hoff, hout⟩ := hoff
    have hb₀ : t.offline b = false := by
      rcases (htook b).mp hb with hb | ⟨-, hgoes⟩
      · exact hback b hb
      · exact hgoes.1
    rw [hb₀, Bool.false_or, Bool.and_eq_true, decide_eq_true_eq] at hoff
    obtain ⟨⟨hsb, hbs⟩, hgoes⟩ := hoff
    have hne : b ≠ k + s := by
      rintro rfl
      rw [hstays.2] at hgoes
      cases hgoes
    exact hnone s hleast (k + s) b (by omega) (by omega) hbs hstays ⟨hb₀, hgoes⟩

/-- The blocks that are offline after the last pass. -/
theorem RolledBack.ready (hback : RolledBack t) (h : t.pass numBlocks bitmapEntries a = .ready t') :
    LeavesRegion numBlocks t' := by
  have hpassed := pass_passed numBlocks bitmapEntries t a
  rw [h] at hpassed
  have hstart := (hpassed.start_eq rfl).2
  rw [← hstart] at hpassed
  cases hpassed with
  | ready _ htaken _ =>
    obtain ⟨hoffline, htook⟩ := foldlM_offlineBlock List.nodup_range' htaken
    simp only [List.mem_range'_1] at hoffline htook
    intro b hb hoff
    by_contra hout
    -- a block outside is as it was before the pass
    rw [hoffline b, decide_eq_false hout, Bool.false_and, Bool.or_false] at hoff
    rcases (htook b).mp hb with hb | ⟨hin, -⟩
    · rw [hback b hb] at hoff
      cases hoff
    · exact hout hin

/-- **Rolling back.** For every bitmap and all answers of blocks that either go offline or stay online: the runs in
which no block is left behind by any pass, and by no last pass either, are those in which no block of a candidate
goes offline that comes behind one that stays online. -/
theorem rollback_iff (numBlocks bitmapEntries : ℕ) (bitmap : ℕ → BitVec 8) (offline : ℕ → Bool) (as : List BlockAnswers)
    (t : Tool) :
    (Exec (fun t a t' => Tool.Retry numBlocks bitmapEntries t a t' ∧ RolledBack t') (.start bitmap offline) as t ∧
      ∀ a t', Truthful t a → t.pass numBlocks bitmapEntries a = .ready t' → LeavesRegion numBlocks t') ↔
    Exec (Guard (NoneBehind numBlocks bitmapEntries) (Tool.Retry numBlocks bitmapEntries)) (.start bitmap offline)
      as t := by
  have hstart : RolledBack (.start bitmap offline) := by simp [RolledBack, Tool.start]
  have hiff : Exec (fun t a t' => Tool.Retry numBlocks bitmapEntries t a t' ∧ RolledBack t') (.start bitmap offline) as
      t ↔ Exec (Guard (NoneBehind numBlocks bitmapEntries) (Tool.Retry numBlocks bitmapEntries))
        (.start bitmap offline) as t :=
    exec_keeps_iff_guard (I := Carried numBlocks bitmapEntries) (.inl rfl) hstart
      (fun t a t' hI hretry => hI.retry hretry)
      fun t a t' hI hQ hretry => rolledBack_iff hI hQ hretry
  rw [hiff]
  refine ⟨fun h => h.1, fun h => ⟨h, fun a t' _ hready => ?_⟩⟩
  have hback : RolledBack t := (hiff.mpr h).inv hstart fun _ _ _ _ hs => hs.2
  exact hback.ready hready

/-- A check that tells the truth. -/
theorem truthful_allBut {online : List ℕ} (h : ∀ b ∈ online, t.offline b = false) : Truthful t (.allBut online) := by
  intro b statusBuf hstatus
  have hgoes : (BlockAnswers.allBut online).goes b = decide (b ∉ online) := rfl
  have htext : (if b ∈ online then "online".toList else "offline".toList) = statusBuf := Status.text.inj hstatus
  unfold StaysOnline
  rw [hgoes, ← htext]
  by_cases hb : b ∈ online
  · have hsaid : saysOffline "online".toList = false := by decide
    rw [if_pos hb, hsaid, h b hb]
    simp [hb]
  · have hsaid : saysOffline "offline".toList = true := by decide
    rw [if_neg hb, hsaid]
    simp [hb]

end

/-- Blocks 0 and 1 are asked first; 0 stays online, and 1 stays offline, also after 3 and 4 were found. -/
theorem rollback_misses_block : ∃ t t',
    Exec (Tool.Retry 2 5) (.start (fun _ => 0b11011) fun _ => false) [.allBut [0]] t ∧ ¬ RolledBack t ∧
      Truthful t (.allBut [0]) ∧ t.pass 2 5 (.allBut [0]) = .ready t' ∧ t'.regStart = 3 ∧
      1 ∈ t'.took ∧ t'.offline 1 = true := by
  obtain ⟨t, ht⟩ : ∃ t, (Tool.start (fun _ => 0b11011) fun _ => false).pass 2 5 (.allBut [0]) = .again t := ⟨_, rfl⟩
  obtain ⟨hoffline, htook⟩ : t.offline = Function.update (Function.update (fun _ => false) 0 false) 1 true ∧
      t.took = [1] := by
    obtain rfl := PassResult.again.inj ht
    exact ⟨rfl, rfl⟩
  obtain ⟨t', ht'⟩ : ∃ t', t.pass 2 5 (.allBut [0]) = .ready t' := by
    obtain rfl := PassResult.again.inj ht
    exact ⟨_, rfl⟩
  obtain ⟨hstart, htook', hoffline'⟩ : t'.regStart = 3 ∧ t'.took = [4, 3, 1] ∧ t'.offline 1 = true := by
    obtain rfl := PassResult.again.inj ht
    obtain rfl := PassResult.ready.inj ht'
    exact ⟨rfl, rfl, rfl⟩
  have htruth : Truthful t (.allBut [0]) := truthful_allBut (by simp [hoffline])
  refine ⟨t, t', .single ⟨truthful_allBut fun _ _ => rfl, ht⟩, fun h => ?_, htruth, ht', hstart, by simp [htook'],
    hoffline'⟩
  have := h 1 (by simp [htook])
  simp [hoffline] at this

end PetLab.VMproject
