import AdaptiveXv6.SlotHistory

namespace AdaptiveXv6.Slices

open Words Process Ops Machine Kernel Steps Exclusion SlotHistory Runs

variable {n : Nat} {s t : Kernel n} {e : Event n} {m : Move n} {c : Fin n} {p : Slot} {x : Proc} {op : Op}

/-- The present or last dispatch of a process: its slice, and the ticks charged since. -/
structure Quantum where
  slice : Nat
  charged : Nat

def quantum : Op → Proc → Quantum → Quantum
  | .dispatch, x, g => if x.state = .runnable then ⟨calcTimeSlice x, 0⟩ else g
  | .chargeTick, _, g => { g with charged := g.charged + 1 }
  | _, _, g => g

theorem calcTimeSlice_bounds (x : Proc) : 1 ≤ calcTimeSlice x ∧ calcTimeSlice x ≤ 4 := by
  rw [calcTimeSlice]
  cases x.procType with
  | interactive => exact ⟨by decide, by decide⟩
  | mixed => exact ⟨by decide, by decide⟩
  | cpuBound => exact ⟨by decide, by decide⟩

def mild : Op → Bool
  | .chargeTick | .yield | .sleep _ | .kexit _ => false
  | _ => true

theorem mild_same (ticks : Nat) (g : Quantum) (hpre : op.Pre x) (hx : x.state = .running) (hop : mild op) :
    (op.apply ticks x).timeSlice = x.timeSlice ∧ (op.apply ticks x).ticksInSlice = x.ticksInSlice ∧
      quantum op x g = g := by
  have hne : x.state ≠ .runnable := by rw [hx]; decide
  cases op with
  | rescore => rw [Op.apply, rescore, if_neg hne]; exact ⟨rfl, rfl, rfl⟩
  | dispatch => rw [Op.apply, dispatch, if_neg hne]; exact ⟨rfl, rfl, if_neg hne⟩
  | accountWait => rw [Op.apply, accountWait, if_neg hne]; exact ⟨rfl, rfl, rfl⟩
  | resume =>
    rw [Op.apply, resume]
    split <;> exact ⟨rfl, rfl, rfl⟩
  | wakeup chan =>
    rw [Op.apply, wakeup, if_neg (by simp [hx])]
    exact ⟨rfl, rfl, rfl⟩
  | kkill pid =>
    rw [Op.apply, kkill]
    split <;> exact ⟨rfl, rfl, rfl⟩
  | setkilled | unlock => exact ⟨rfl, rfl, rfl⟩
  | allocproc pid =>
    rw [show x.state = .unused from hpre] at hx
    cases hx
  | makeRunnable =>
    rw [show x.state = .used from hpre] at hx
    cases hx
  | freeproc =>
    rcases hpre with hs | hs
    · rw [hs] at hx
      cases hx
    · rw [hs] at hx
      cases hx
  | chargeTick | yield | sleep | kexit => cases hop

inductive Keeps (s : Kernel n) (e : Event n) (c : Fin n) (p : Slot) (m : Move n) : Prop
  | dispatched (hx : (s.procs p).state = .runnable) (hop : opAt s e p = some .dispatch) (hpc : m.after.pc = .resumed)
      (hcpu : m.cpu = c)
  | charged (hp : s.proc c = some p) (hpc : s.pc c = .timer) (hop : opAt s e p = some .chargeTick) (hcpu : m.cpu = c)
      (hafter : m.after.pc = if shouldYield (s.procs p) then .expired else .running)
  | left (hcpu : m.cpu = c) (hpc : m.after.pc = .switching)
  | kept (hp : s.proc c = some p) (hpc : (s.perform m).pc c ≠ .switching → s.pc c ≠ .switching)
      (hexp : (s.perform m).pc c = .expired ↔ s.pc c = .expired) (hop : ∀ op, opAt s e p = some op → mild op)

theorem opAt_of_moves (hm : Moves s e m) (p : Slot) :
    opAt s e p = m.crit.bind fun k => if k.slot = p then some k.op else none := by
  cases hk : m.crit with
  | none => simp only [opAt, move_of_moves hm, hk, Option.bind_none]
  | some k => simp only [opAt, move_of_moves hm, hk, Option.bind_some]

theorem keeps_other (hx : Exclusive s) (hm : Moves s e m) (hne : c ≠ m.cpu)
    (hp : s.proc c = some p) (hsw : s.pc c ≠ .switching) : Keeps s e c p m := by
  refine .kept hp (fun _ => hsw) (by rw [perform_pc, if_neg hne]) fun op hop => ?_
  rw [opAt_of_moves hm] at hop
  have hown : ∀ d q, s.proc d = some q → d = m.cpu → q ≠ p := by
    rintro d q hd rfl rfl
    exact hne (hx.unique c m.cpu q hp hd)
  cases hm with
  | charge d q h hq | yield d q h hq | sleep d q _ h hq | kexit d q _ h hq =>
    simp only [Kernel.locked, Kernel.leave, Option.bind_some] at hop
    rw [if_neg (hown d q hq rfl)] at hop
    cases hop
  | startPass | pickNone | interrupt | timerTop | timerProc | timerOther | wakeupTop | wakeupProc | wakeupSelf
  | uncharged => cases hop
  | visit | pickGone | pick | resume | wakeupVisit | accountVisit | swtch | kkill | setkilled | allocproc
  | forkFail | forkDone | forkRun | kwait =>
    simp only [Kernel.locked, Kernel.unlock, Kernel.allocMove, Option.bind_some] at hop
    split at hop
    · cases hop
      rfl
    · cases hop

theorem keeps_of (hm : Moves s e m) (hp : s.proc m.cpu = some p) (hsw : s.pc m.cpu ≠ .switching)
    (hne : s.pc m.cpu ≠ .expired) (hafter : m.after.pc ≠ .expired)
    (hop : ∀ k, m.crit = some k → mild k.op = true) : Keeps s e m.cpu p m := by
  have hpc : (s.perform m).pc m.cpu = m.after.pc := by rw [perform_pc, if_pos rfl]
  refine .kept hp (fun _ => hsw) (by rw [hpc]; exact iff_of_false hafter hne) fun op h => ?_
  rw [opAt_of_moves hm] at h
  cases hk : m.crit with
  | none =>
    rw [hk] at h
    cases h
  | some k =>
    rw [hk, Option.bind_some] at h
    split at h
    · cases h
      exact hop k hk
    · cases h

theorem ret_ne_expired (ret : Ret) : ret.pc ≠ .expired := by
  cases ret with
  | top => exact nofun
  | running => exact nofun
  | timer => exact nofun

theorem afterWakeup_ne_expired (chan : Nat) (i : Slot) (clock : Bool) (ret : Ret) :
    afterWakeup chan i clock ret ≠ .expired := by
  rw [afterWakeup]
  split
  · simp
  · split
    · simp
    · exact ret_ne_expired ret

theorem afterAccount_ne_expired (i : Slot) (ret : Ret) : afterAccount i ret ≠ .expired := by
  rw [afterAccount]
  split
  · simp
  · exact ret_ne_expired ret

theorem keeps_self (hx : Exclusive s) (hm : Moves s e m) (hp : m.after.proc = some p) : Keeps s e m.cpu p m := by
  -- a CPU without a process gets one by a dispatch only
  have hidle : ∀ d, s.proc d = some p → inside (s.pc d) = true := by
    intro d hd
    rw [← hx.current d, hd]
    rfl
  have hmoves := hm
  cases hm with
  | pick d q prio h hq =>
    cases hp
    refine .dispatched hq ?_ rfl rfl
    rw [opAt_of_moves hmoves]
    exact if_pos rfl
  | charge d q h hq =>
    obtain rfl : q = p := Option.some.inj (hq.symm.trans hp)
    refine .charged hq h ?_ rfl rfl
    rw [opAt_of_moves hmoves]
    exact if_pos rfl
  | yield | sleep | kexit => exact .left rfl rfl
  | swtch => cases hp
  | startPass d h | pickNone d _ h | pickGone d _ _ h | interrupt d h | visit d _ _ _ h | timerTop d h
  | wakeupTop d _ h =>
    have hin := hidle d hp
    rw [h] at hin
    cases hin
  | resume d q h hq =>
    exact keeps_of hmoves (hq.trans hp) (by simp [h, Kernel.unlock]) (by simp [h, Kernel.unlock])
      (by simp [Kernel.unlock]) (by rintro k ⟨⟩; rfl)
  | timerProc d h hc =>
    exact keeps_of hmoves hp (by simp [h, Kernel.clockMove]) (by simp [h, Kernel.clockMove])
      (by simp [Kernel.clockMove]) (by rintro k ⟨⟩)
  | timerOther d h hc | wakeupProc d chan h | uncharged d q h hq hk =>
    exact keeps_of hmoves hp (by simp [h, Kernel.jump]) (by simp [h, Kernel.jump]) (by simp [Kernel.jump])
      (by rintro k ⟨⟩)
  | wakeupSelf d chan i clock ret h hq =>
    exact keeps_of hmoves hp (by simp [h, Kernel.jump]) (by simp [h, Kernel.jump])
      (afterWakeup_ne_expired chan i clock ret) (by rintro k ⟨⟩)
  | wakeupVisit d chan i clock ret h hq =>
    exact keeps_of hmoves hp (by simp [h, Kernel.locked]) (by simp [h, Kernel.locked])
      (afterWakeup_ne_expired chan i clock ret) (by rintro k ⟨⟩; rfl)
  | accountVisit d i ret h =>
    exact keeps_of hmoves hp (by simp [h, Kernel.locked]) (by simp [h, Kernel.locked])
      (afterAccount_ne_expired i ret) (by rintro k ⟨⟩; rfl)
  | kkill d pid q h | setkilled d q h | forkRun d q h | kwait d q h =>
    exact keeps_of hmoves hp (by simp [h, Kernel.locked]) (by simp [h, Kernel.locked]) (by simp [Kernel.locked])
      (by rintro k ⟨⟩; rfl)
  | allocproc d q h hq =>
    exact keeps_of hmoves hp (by simp [h, Kernel.allocMove]) (by simp [h, Kernel.allocMove])
      (by simp [Kernel.allocMove]) (by rintro k ⟨⟩; rfl)
  | forkFail d q h | forkDone d q h =>
    exact keeps_of hmoves hp (by simp [h, Kernel.unlock]) (by simp [h, Kernel.unlock]) (by simp [Kernel.unlock])
      (by rintro k ⟨⟩; rfl)

/-- The slice of process p, wherever it runs. Once its last tick is charged it can only yield. -/
structure Enforced (s : Kernel n) (p : Slot) (g : Quantum) : Prop where
  bound : g.charged ≤ g.slice
  slice : ∀ c, s.proc c = some p → s.pc c ≠ .switching → (s.procs p).timeSlice = g.slice ∧ g.slice ≤ 4 ∧
    (s.pc c = .expired ∧ (s.procs p).ticksInSlice = 0 ∧ 0 < g.slice ∧ g.charged = g.slice ∨
      s.pc c ≠ .expired ∧ (s.procs p).ticksInSlice = g.charged ∧ g.charged < g.slice)

theorem growEstimate_slice (x : Proc) : (growEstimate (countTick x)).timeSlice = x.timeSlice ∧
    (growEstimate (countTick x)).ticksInSlice = u32 (x.ticksInSlice + 1) := by
  rw [growEstimate]
  split <;> exact ⟨rfl, rfl⟩

theorem chargeTick_slice {g : Quantum} (hslice : x.timeSlice = g.slice) (hle : g.slice ≤ 4)
    (hticks : x.ticksInSlice = g.charged) (hlt : g.charged < g.slice) :
    (chargeTick x).timeSlice = g.slice ∧ (shouldYield x = true ↔ g.charged + 1 = g.slice) ∧
      (chargeTick x).ticksInSlice = if shouldYield x = true then 0 else g.charged + 1 := by
  obtain ⟨hts, htk⟩ := growEstimate_slice x
  rw [hticks, u32_of_lt (by omega)] at htk
  have hover : shouldYield x = true ↔ g.charged + 1 = g.slice := by
    rw [shouldYield, sliceOver, decide_eq_true_eq, hts, htk, hslice]
    omega
  refine ⟨?_, hover, ?_⟩
  · rw [chargeTick]
    split
    · exact hts.trans hslice
    · exact hts.trans hslice
  · change _ = if sliceOver (growEstimate (countTick x)) = true then 0 else g.charged + 1
    rw [chargeTick]
    split
    · rfl
    · exact htk

theorem chargeTick_site (hop : opAt s e p = some .chargeTick) : ∃ c, s.pc c = .timer ∧ s.proc c = some p := by
  obtain ⟨m, k, hm, hk, hslot, hop'⟩ := opAt_eq_some hop
  cases hm with
  | charge c q hc hq =>
    cases hk
    exact ⟨c, hc, hslot ▸ hq⟩
  | _ => first | (cases hk; done) | (cases hk; cases hop')

theorem step_enforced {g : Quantum} (hx : Exclusive s) (h : Enforced s p g) (hs : s.step e = some t) :
    Enforced t p (match opAt s e p with
      | some op => quantum op (s.procs p) g
      | none => g) := by
  obtain ⟨m, hm, hr, rfl⟩ := step_eq_some.mp hs
  have hkeeps : ∀ c, (s.perform m).proc c = some p → (s.perform m).pc c ≠ .switching → Keeps s e c p m := by
    intro c hc hsw
    by_cases hcpu : c = m.cpu
    · subst hcpu
      rw [perform_proc, if_pos rfl] at hc
      exact keeps_self hx hm hc
    · rw [perform_proc, if_neg hcpu] at hc
      rw [perform_pc, if_neg hcpu] at hsw
      exact keeps_other hx hm hcpu hc hsw
  refine ⟨?_, fun c hc hsw => ?_⟩
  · -- a tick is charged where the CPU has not yet charged the last one
    cases hop : opAt s e p with
    | none => exact h.bound
    | some op =>
      cases op with
      | chargeTick =>
        obtain ⟨d, hd, hp⟩ := chargeTick_site hop
        obtain ⟨-, -, hlast | ⟨-, -, hlt⟩⟩ := h.slice d hp (by rw [hd]; decide)
        · rw [hd] at hlast
          cases hlast.1
        · exact hlt
      | dispatch =>
        simp only [quantum]
        split
        · exact Nat.zero_le _
        · exact h.bound
      | _ => all_goals exact h.bound
  · rw [perform_procs p (move_of_moves hm)]
    cases hkeeps c hc hsw with
    | dispatched hrun hop hpc hcpu =>
      have hslice := calcTimeSlice_bounds (s.procs p)
      have hafter : (s.perform m).pc c = .resumed := by rw [perform_pc, if_pos hcpu.symm, hpc]
      rw [hop]
      dsimp only [applyOp, Op.apply, quantum]
      rw [dispatch, if_pos hrun, if_pos hrun]
      exact ⟨rfl, hslice.2, .inr ⟨by rw [hafter]; decide, rfl, hslice.1⟩⟩
    | charged hp hpc hop hcpu hafter =>
      have hafter' : (s.perform m).pc c = if shouldYield (s.procs p) = true then .expired else .running := by
        rw [perform_pc, if_pos hcpu.symm, hafter]
      obtain ⟨hslice, hle, hlast | ⟨-, hticks, hlt⟩⟩ := h.slice c hp (by rw [hpc]; decide)
      · rw [hpc] at hlast
        cases hlast.1
      · obtain ⟨hslice', hover, hticks'⟩ := chargeTick_slice hslice hle hticks hlt
        simp only [hop, applyOp, Op.apply, quantum]
        rw [hslice', hticks', hafter']
        refine ⟨rfl, hle, ?_⟩
        by_cases hy : shouldYield (s.procs p) = true
        · rw [if_pos hy, if_pos hy]
          exact .inl ⟨rfl, rfl, by omega, hover.mp hy⟩
        · rw [if_neg hy, if_neg hy]
          have hne : g.charged + 1 ≠ g.slice := fun heq => hy (hover.mpr heq)
          exact .inr ⟨by decide, rfl, by omega⟩
    | left hcpu hpc =>
      rw [perform_pc, if_pos hcpu.symm, hpc] at hsw
      exact absurd rfl hsw
    | kept hp hpc hexp hop =>
      have hrun : (s.procs p).state = .running := (hx.running c p hp).mpr (hpc hsw)
      obtain ⟨hslice, hle, hcase⟩ := h.slice c hp (hpc hsw)
      simp only [Ne, ← hexp] at hcase
      cases ho : opAt s e p with
      | none =>
        simp only [applyOp]
        exact ⟨hslice, hle, hcase⟩
      | some op =>
        obtain ⟨hts, htk, hq⟩ := mild_same s.ticks g (hx.pre ho) hrun (hop op ho)
        simp only [applyOp]
        rw [hts, htk, hq]
        exact ⟨hslice, hle, hcase⟩

theorem run_enforced (r : Run n) (p : Slot) (k : Nat) :
    Enforced (r.state k) p (along quantum ⟨0, 0⟩ r p k) := by
  have hinv : Exclusive (r.state k) ∧ Enforced (r.state k) p (along quantum ⟨0, 0⟩ r p k) := by
    refine r.always_history (B := fun _ => True) (I := fun s g => Exclusive s ∧ Enforced s p g) (fun _ => trivial)
      ⟨boot_exclusive n, Nat.le_refl 0, fun c hc => by cases hc⟩ ?_ k
    intro s e t g ⟨hx, h⟩ _ _ he
    exact ⟨hx.step he, step_enforced hx h he⟩
  exact hinv.2

theorem expired_step (hs : s.step e = some t) (hpc : s.pc c = .expired) (hmoved : t.cpus c ≠ s.cpus c) :
    e = .yield c := by
  obtain ⟨m, hm, -, rfl⟩ := step_eq_some.mp hs
  have hcpu : c = m.cpu := by
    by_contra hne
    exact hmoved (Function.update_of_ne hne ..)
  subst hcpu
  cases hm with
  | yield d q h hq => rfl
  | _ => all_goals
    rename_i h
    simp_all [Kernel.jump, Kernel.locked, Kernel.unlock, Kernel.clockMove, Kernel.allocMove, Kernel.leave]

/-- A process is charged at most the slice of its last dispatch, and is at the call of yield() just when it was
charged all of it; there its CPU does nothing else. -/
theorem slices_enforced (r : Run n) (p : Slot) (k : Nat) :
    (along quantum ⟨0, 0⟩ r p k).charged ≤ (along quantum ⟨0, 0⟩ r p k).slice ∧
    (((r.state k).procs p).state = .running →
      ((r.state k).procs p).timeSlice = (along quantum ⟨0, 0⟩ r p k).slice ∧
      ((r.state k).procs p).ticksInSlice < ((r.state k).procs p).timeSlice ∧
      ∃ c, (r.state k).proc c = some p ∧
        ((r.state k).pc c = .expired ↔
          (along quantum ⟨0, 0⟩ r p k).charged = (along quantum ⟨0, 0⟩ r p k).slice) ∧
        ((r.state k).pc c = .expired → ∀ e t, (r.state k).step e = some t →
          t.cpus c ≠ (r.state k).cpus c → e = .yield c)) := by
  have h := run_enforced r p k
  have hx := run_exclusive r k
  refine ⟨h.bound, fun hrun => ?_⟩
  obtain ⟨c, hc⟩ := hx.owner p hrun
  have hsw := (hx.running c p hc).mp hrun
  obtain ⟨hslice, -, hcase⟩ := h.slice c hc hsw
  refine ⟨hslice, ?_, c, hc, ?_, fun hpc e t hs hmoved => expired_step hs hpc hmoved⟩
  · rw [hslice]
    rcases hcase with ⟨-, hticks, hpos, -⟩ | ⟨-, hticks, hlt⟩
    · rw [hticks]
      exact hpos
    · rw [hticks]
      exact hlt
  · rcases hcase with ⟨hpc, -, -, hall⟩ | ⟨hpc, -, hlt⟩
    · exact iff_of_true hpc hall
    · exact iff_of_false hpc (by omega)

end AdaptiveXv6.Slices
