import AdaptiveXv6.LogOrder

namespace AdaptiveXv6.LogWaiters

open Words LogDisk LogSystem System LogSteps LogOrder Function

variable {ι : Type} {start : Nat} {disk : Disk} {s t : System ι} {e : Event ι}

/-- Some operation or commit has still to call wakeup(&log). -/
def Busy (l : Log) : Prop := l.committing = true ∨ 0 < l.outstanding

/-- What begin_op() waits for the end of, when memory has n in log.lh.n. -/
def Full (l : Log) (n : Nat) : Prop :=
  l.committing = true ∨ n + (l.outstanding + 1) * MAXOPBLOCKS > LOGBLOCKS

/-- A value of log.lh.n that memory may hold: commit() sets it to 0 without the lock, before its last write. -/
def Counted (s : System ι) (n : Nat) : Prop :=
  n = s.log.lh.length ∨ n = 0 ∧ ∃ p todo, s.pc p = .committing todo ∧ todo.length ≤ 1

theorem beginOp_none {l : Log} (h : beginOp l = none) : Full l l.lh.length := by
  rw [beginOp] at h
  split at h
  · exact .inl ‹_›
  · split at h
    · exact .inr ‹_›
    · cases h

/-- A sleeper has its reason, and the log is empty when nothing is due. -/
structure Waiting (s : System ι) : Prop where
  ordered : ∃ A, Ordered s A
  begun : ∀ p, s.pc p = .beginSleep → Full s.log s.log.lh.length
  synced : ∀ p target, s.pc p = .syncSleep target → s.log.ncommit < target
  empty : ¬Busy s.log → s.log.lh = []
  range : -2 ^ 31 ≤ s.log.ncommit ∧ s.log.ncommit < 2 ^ 31

namespace Waiting

theorem off (disk : Disk) : Waiting (LogSystem.off (ι := ι) disk) where
  ordered := ⟨∅, Ordered.off disk⟩
  begun := nofun
  synced := nofun
  empty _ := rfl
  range := by
    change -2 ^ 31 ≤ (0 : Int) ∧ (0 : Int) < 2 ^ 31
    decide

theorem of_mode (h : Waiting s) (hpc : t.pc = s.pc) (hlog : t.log = s.log) : Waiting t where
  ordered := h.ordered.imp fun _ ho => ho.same hpc hlog
  begun := by
    rw [hpc, hlog]
    exact h.begun
  synced := by
    rw [hpc, hlog]
    exact h.synced
  empty := by
    rw [hlog]
    exact h.empty
  range := by
    rw [hlog]
    exact h.range

theorem of_kept (h : Waiting s) (hord : ∃ A, Ordered t A) (hbegin : ∀ p, t.pc p = .beginSleep → s.pc p = .beginSleep)
    (hsync : ∀ p target, t.pc p = .syncSleep target → s.pc p = .syncSleep target)
    (hfull : Full s.log s.log.lh.length → Full t.log t.log.lh.length) (hn : t.log.ncommit = s.log.ncommit)
    (hempty : ¬Busy t.log → t.log.lh = []) : Waiting t where
  ordered := hord
  begun p hp := hfull (h.begun p (hbegin p hp))
  synced p target hp := by
    rw [hn]
    exact h.synced p target (hsync p target hp)
  empty := hempty
  range := by
    rw [hn]
    exact h.range

theorem of_wakeup (hord : ∃ A, Ordered t A) (hpc : ∀ p, ∃ pc, t.pc p = wake pc)
    (hempty : ¬Busy t.log → t.log.lh = []) (hn : -2 ^ 31 ≤ t.log.ncommit ∧ t.log.ncommit < 2 ^ 31) :
    Waiting t where
  ordered := hord
  begun p hp := by
    obtain ⟨pc, hpc⟩ := hpc p
    rw [hpc] at hp
    cases pc <;> cases hp
  synced p target hp := by
    obtain ⟨pc, hpc⟩ := hpc p
    rw [hpc] at hp
    cases pc <;> cases hp
  empty := hempty
  range := hn

variable [DecidableEq ι]

theorem of_goto (h : Waiting s) (hord : ∃ A, Ordered t A) {p : ι} {pc : Pc}
    (hpc : t.pc = update s.pc p pc) (hbegin : pc ≠ .beginSleep) (hsync : ∀ target, pc ≠ .syncSleep target)
    (hfull : Full s.log s.log.lh.length → Full t.log t.log.lh.length) (hn : t.log.ncommit = s.log.ncommit)
    (hempty : ¬Busy t.log → t.log.lh = []) : Waiting t := by
  refine h.of_kept hord ?_ ?_ hfull hn hempty
  · intro q hq
    by_cases hqp : q = p
    · simp [hpc, hqp, hbegin] at hq
    · simpa [hpc, update_of_ne hqp] using hq
  · intro q target hq
    by_cases hqp : q = p
    · simp [hpc, hqp, hsync] at hq
    · simpa [hpc, update_of_ne hqp] using hq

theorem of_await (h : Waiting s) {p : ι} {target : Int} (hord : ∃ A, Ordered (s.await p target) A) :
    Waiting (s.await p target) := by
  rw [await] at hord ⊢
  split at hord
  · rename_i hlt
    rw [if_pos hlt]
    refine ⟨hord, ?_, ?_, h.empty, h.range⟩
    · intro q hq
      by_cases hqp : q = p
      · simp [goto, hqp] at hq
      · exact h.begun q (by simpa [goto, update_of_ne hqp] using hq)
    · intro q n hq
      by_cases hqp : q = p
      · simp only [goto, hqp, update_self, Pc.syncSleep.injEq] at hq
        exact hq ▸ hlt
      · exact h.synced q n (by simpa [goto, update_of_ne hqp] using hq)
  · rename_i hge
    rw [if_neg hge]
    exact h.of_goto hord rfl (by simp) (by simp) id rfl h.empty

theorem acts (h : Waiting s) (ha : Acts start s e t) : Waiting t := by
  obtain ⟨A, hA⟩ := h.ordered
  have hord := hA.acts ha
  cases ha with
  | call p hp => exact h.of_goto hord rfl (by simp) (by simp) id rfl h.empty
  | admitted p l hp hl =>
    obtain ⟨-, -, rfl⟩ := beginOp_some hl
    refine h.of_goto hord rfl (by simp) (by simp) ?_ rfl (fun hb => absurd (.inr (Nat.succ_pos _)) hb)
    rintro (hc | hroom)
    · exact .inl hc
    · refine .inr (Nat.lt_of_lt_of_le hroom ?_)
      exact Nat.add_le_add_left (Nat.mul_le_mul_right _ (Nat.le_succ _)) _
  | refused p hp hl =>
    refine ⟨hord, ?_, ?_, h.empty, h.range⟩
    · exact fun _ _ => beginOp_none hl
    · intro q n hq
      by_cases hqp : q = p
      · simp [goto, hqp] at hq
      · exact h.synced q n (by simpa [goto, update_of_ne hqp] using hq)
  | logWrite p b v l hp hl =>
    obtain ⟨-, hout, rfl⟩ := logWrite_ok hl
    refine h.of_kept hord (fun _ => id) (fun _ _ => id) ?_ rfl (fun hb => absurd (.inr hout) hb)
    rintro (hc | hroom)
    · exact .inl hc
    · refine .inr (Nat.lt_of_lt_of_le hroom (Nat.add_le_add_right ?_ _))
      change _ ≤ (absorb s.log.lh b).length
      rw [absorb_eq]
      split <;> simp
  | logPanic p b v x hp hl => exact h.of_mode rfl rfl
  | commit p l hp hl =>
    obtain ⟨-, -, rfl⟩ := endOp_commits hl
    exact h.of_goto hord rfl (by simp) (by simp) (fun _ => .inl rfl) rfl (fun hb => absurd (.inl rfl) hb)
  | endOp p l hp hl =>
    obtain ⟨-, hout, rfl⟩ := endOp_leaves hl
    refine of_wakeup hord (fun q => ⟨_, rfl⟩) (fun hb => absurd (.inr ?_) hb) h.range
    change 0 < s.log.outstanding - 1
    omega
  | endPanic p x hp hl => exact h.of_mode rfl rfl
  | diskWrite p w ws hp => exact h.of_goto hord rfl (by simp) (by simp) id rfl h.empty
  | commitDone p hp => exact of_wakeup hord (fun q => ⟨_, rfl⟩) (fun _ => rfl) (i32_range _)
  | sync p hp hb => exact h.of_await hord
  | syncNow p hp hb => exact h
  | syncTest p target hp => exact h.of_await hord
  | kick p =>
    refine h.of_goto hord rfl ?_ ?_ id rfl h.empty
    · cases s.pc p <;> simp [wake]
    · intro target
      cases s.pc p <;> simp [wake]

theorem step (h : Waiting s) (he : s.step start e = some t) : Waiting t := by
  cases steps_of_step he with
  | crash => exact off s.disk
  | boot hm => exact h.of_mode rfl rfl
  | recoverWrite w ws hm => exact h.of_mode rfl rfl
  | recovered hm => exact h.of_mode rfl rfl
  | act _ _ hup hok ha => exact h.acts ha

end Waiting

theorem run_waiting [DecidableEq ι] (r : Run ι start disk) (k : Nat) : Waiting (r.state k) :=
  r.always (Waiting.off disk) (fun _ _ _ h he => h.step he) k

def Due (s : System ι) : Prop :=
  ∀ p target, s.pc p = .syncLoop target ∨ s.pc p = .syncSleep target →
    target ≤ s.log.ncommit ∨ target = s.log.ncommit + 1 ∧ Busy s.log

namespace Due

theorem of_places (h : Due s) (hpc : ∀ p target, t.pc p = .syncLoop target ∨ t.pc p = .syncSleep target →
      s.pc p = .syncLoop target ∨ s.pc p = .syncSleep target)
    (hn : t.log.ncommit = s.log.ncommit) (hbusy : Busy s.log → Busy t.log) : Due t := by
  intro p target hp
  rw [hn]
  exact (h p target (hpc p target hp)).imp_right fun ⟨ht, hb⟩ => ⟨ht, hbusy hb⟩

theorem wake_sync {pc : Pc} {target : Int} (h : wake pc = .syncLoop target ∨ wake pc = .syncSleep target) :
    pc = .syncLoop target ∨ pc = .syncSleep target := by
  cases pc <;> simp_all [wake]

variable [DecidableEq ι]

theorem idle_places (target : Int) : Pc.idle ≠ .syncLoop target ∧ Pc.idle ≠ .syncSleep target := by simp

theorem places_update {f : ι → Pc} {p : ι} {pc : Pc} (h : ∀ target, pc ≠ .syncLoop target ∧ pc ≠ .syncSleep target)
    (q : ι) (target : Int)
    (hq : update f p pc q = .syncLoop target ∨ update f p pc q = .syncSleep target) :
    f q = .syncLoop target ∨ f q = .syncSleep target := by
  by_cases hqp : q = p
  · subst hqp
    rw [update_self] at hq
    rcases hq with hq | hq
    · exact absurd hq (h target).1
    · exact absurd hq (h target).2
  · rwa [update_of_ne hqp] at hq

theorem of_await (h : Due s) {p : ι} {target : Int}
    (ht : target ≤ s.log.ncommit ∨ target = s.log.ncommit + 1 ∧ Busy s.log) : Due (s.await p target) := by
  rw [await]
  split
  · intro q n hq
    by_cases hqp : q = p
    · simp only [goto, hqp, update_self, reduceCtorEq, Pc.syncSleep.injEq, false_or] at hq
      exact hq ▸ ht
    · exact h q n (by simpa [goto, update_of_ne hqp] using hq)
  · exact h.of_places (places_update (by simp)) rfl id

variable (h : Due s) (hw : Waiting s) (h₀ : 0 ≤ s.log.ncommit) (h₁ : 0 ≤ t.log.ncommit)

include h hw h₀ h₁

theorem acts (ha : Acts start s e t) : Due t := by
  cases ha with
  | call p hp => exact h.of_places (places_update (by simp)) rfl id
  | admitted p l hp hl =>
    obtain ⟨-, -, rfl⟩ := beginOp_some hl
    exact h.of_places (places_update (by simp)) rfl (fun _ => .inr (Nat.succ_pos _))
  | refused p hp hl => exact h.of_places (places_update (by simp)) rfl id
  | logWrite p b v l hp hl =>
    obtain ⟨-, -, rfl⟩ := logWrite_ok hl
    exact h.of_places (fun _ _ => id) rfl id
  | logPanic p b v x hp hl => exact h.of_places (fun _ _ => id) rfl id
  | commit p l hp hl =>
    obtain ⟨-, -, rfl⟩ := endOp_commits hl
    exact h.of_places (places_update (by simp)) rfl (fun _ => .inl rfl)
  | endOp p l hp hl =>
    obtain ⟨-, hout, rfl⟩ := endOp_leaves hl
    refine h.of_places (fun q n hq => places_update (p := p) idle_places q n (wake_sync hq)) rfl
      (fun _ => .inr ?_)
    change 0 < s.log.outstanding - 1
    omega
  | endPanic p x hp hl => exact h.of_places (fun _ _ => id) rfl id
  | diskWrite p w ws hp => exact h.of_places (places_update (by simp)) rfl id
  | commitDone p hp =>
    -- the counter went up by one, since it did not turn negative
    change 0 ≤ i32 (s.log.ncommit + 1) at h₁
    have hlt := hw.range.2
    have hn : i32 (s.log.ncommit + 1) = s.log.ncommit + 1 := by
      by_cases hmax : s.log.ncommit + 1 < 2 ^ 31
      · exact i32_of_range (by omega) hmax
      · have heq : s.log.ncommit = 2 ^ 31 - 1 := by omega
        rw [heq] at h₁
        exact absurd h₁ (by decide)
    intro q target hq
    have hq' := places_update (f := s.pc) (p := p) idle_places q target (wake_sync hq)
    change target ≤ i32 (s.log.ncommit + 1) ∨ _
    rw [hn]
    rcases h q target hq' with hle | ⟨heq, -⟩ <;> exact .inl (by omega)
  | sync p hp hb =>
    have hlt := hw.range.2
    by_cases hmax : s.log.ncommit + 1 < 2 ^ 31
    · exact h.of_await (.inr ⟨i32_of_range (by omega) hmax, hb⟩)
    · have heq : s.log.ncommit = 2 ^ 31 - 1 := by omega
      refine h.of_await (.inl ?_)
      rw [heq]
      decide
  | syncNow p hp hb => exact h
  | syncTest p target hp => exact h.of_await (h p target (.inl hp))
  | kick p =>
    intro q target hq
    by_cases hqp : q = p
    · subst hqp
      simp only [goto, update_self] at hq
      exact h q target (wake_sync hq)
    · exact h q target (by simpa [goto, update_of_ne hqp] using hq)

theorem step (he : s.step start e = some t) : Due t := by
  cases steps_of_step he with
  | crash => rintro p target (hp | hp) <;> cases hp
  | boot hm => exact h
  | recoverWrite w ws hm => exact h
  | recovered hm => exact h
  | act _ _ hup hok ha => exact h.acts hw h₀ h₁ ha

end Due

theorem run_due [DecidableEq ι] (r : Run ι start disk) {k : Nat}
    (hn : ∀ j, j ≤ k → 0 ≤ (r.state j).log.ncommit) : Due (r.state k) := by
  induction k with
  | zero =>
    rw [r.start]
    rintro p target (hp | hp) <;> cases hp
  | succ k ih =>
    have hdue := ih fun j hj => hn j (Nat.le_succ_of_le hj)
    cases he : r.event k with
    | none =>
      rw [r.state_of_no_event he]
      exact hdue
    | some e =>
      exact hdue.step (run_waiting r k) (hn k (Nat.le_succ k)) (hn (k + 1) (Nat.le_refl _))
        (r.step_of_event he)

/-- Nobody sleeps on the log without a reason, and until log.ncommit overflows an operation or a commit is left
that will call wakeup(). -/
theorem no_stuck_waiter [DecidableEq ι] (r : Run ι start disk) (k : Nat) :
    (∀ p n, (r.state k).pc p = .beginSleep → Counted (r.state k) n → Full (r.state k).log n) ∧
    (∀ p target, (r.state k).pc p = .syncSleep target → (r.state k).log.ncommit < target) ∧
    (∀ p, (r.state k).pc p = .beginSleep → Busy (r.state k).log) ∧
    ((∀ j, j ≤ k → 0 ≤ (r.state j).log.ncommit) →
      ∀ p target, (r.state k).pc p = .syncSleep target → Busy (r.state k).log) := by
  have hw := run_waiting r k
  obtain ⟨A, hord⟩ := hw.ordered
  refine ⟨?_, hw.synced, ?_, ?_⟩
  · rintro p n hp (rfl | ⟨-, q, todo, hq, -⟩)
    · exact hw.begun p hp
    · exact .inl (hord.committer q todo hq)
  · intro p hp
    by_contra hb
    rcases hw.begun p hp with hc | hroom
    · exact hb (.inl hc)
    · have hout : (r.state k).log.outstanding = 0 := by
        by_contra hne
        exact hb (.inr (Nat.pos_of_ne_zero hne))
      rw [hw.empty hb, hout] at hroom
      exact absurd hroom (by decide)
  · intro hn p target hp
    have hlt := hw.synced p target hp
    rcases run_due r hn p target (.inr hp) with hle | ⟨-, hb⟩
    · omega
    · exact hb

section Overflow

open Runs

def atRest (d : Disk) (c : Nat → Option Block) (n : Int) : System ι :=
  ⟨⟨[], 0, false, n⟩, d, c, .up, fun _ => .idle, none⟩

variable [DecidableEq ι]

def emptyOp (p : ι) : List (Event ι) := [.call p, .beginOp p, .endOp p, .commitDone p]

theorem emptyOp_exec (d : Disk) (c : Nat → Option Block) (n : Int) (p : ι) :
    exec (System.step start) (atRest d c n) (emptyOp p) = some (atRest d c (i32 (n + 1))) := by
  have hroom : ¬LOGBLOCKS < MAXOPBLOCKS := by decide
  simp [emptyOp, exec, System.step, System.act, atRest, goto, LogSystem.beginOp, LogSystem.endOp,
    LogSystem.commitDone, commitWrites_nil, System.wakeup, wake, hroom]

theorem path_atRest (start : Nat) (p : ι) (n : Nat) (hn : n < 2 ^ 31) : ∃ d c,
    Path (System.step start) (fun _ => True) (off fun _ _ => 0) (atRest (ι := ι) d c n) := by
  induction n with
  | zero =>
    obtain ⟨y, hy⟩ := @recoverWrites_eq start (fun _ _ => 0) (by decide) (fun b hb => by cases hb)
    have hexec : exec (System.step (ι := ι) start) (off fun _ _ => 0) [.boot, .recoverWrite, .recovered] =
        some (atRest (update (fun _ _ => 0) start (putHead [] y))
          (update (fun _ => none) start (some (putHead [] y))) 0) := by
      simp only [exec, System.step, off, hy]
      rfl
    exact ⟨_, _, exec_path hexec⟩
  | succ n ih =>
    obtain ⟨d, c, hpath⟩ := ih (by omega)
    have hexec := @emptyOp_exec _ start _ d c n p
    rw [i32_of_range (by omega) (by omega)] at hexec
    exact ⟨d, c, hpath.trans (exec_path hexec)⟩

end Overflow

/-- A process sleeps in sys_sync() with nothing due: the commit after the one it waited for made the counter
negative. -/
theorem stuck_in_sync : ∃ (r : Run (Fin 2) 1000 fun _ _ => 0) (k : Nat) (target : Int),
    (r.state k).pc 1 = .syncSleep target ∧ ¬Busy (r.state k).log := by
  obtain ⟨d, c, hpath⟩ := path_atRest (ι := Fin 2) 1000 0 (2 ^ 31 - 2) (by decide)
  let es : List (Event (Fin 2)) :=
    [.call 0, .beginOp 0, .sync 1, .endOp 0, .commitDone 0] ++ emptyOp 0 ++ [.syncTest 1]
  obtain ⟨t, ht, hpc, hlog⟩ : ∃ t, Runs.exec (System.step 1000) (atRest d c (2 ^ 31 - 2 : Nat)) es = some t ∧
      t.pc 1 = .syncSleep (2 ^ 31 - 1) ∧ t.log = ⟨[], 0, false, -2 ^ 31⟩ := ⟨_, rfl, rfl, rfl⟩
  obtain ⟨r, k, hk, -⟩ := (hpath.trans (Runs.exec_path ht)).exists_reached
  refine ⟨r, k, 2 ^ 31 - 1, by rw [hk]; exact hpc, ?_⟩
  rw [hk, hlog]
  simp [Busy]

end AdaptiveXv6.LogWaiters
