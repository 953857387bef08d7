import AdaptiveXv6.LifecycleCore

namespace AdaptiveXv6.Kills

open Process Machine Lifecycle World LifecycleSteps LifecycleCore Signals Exclusion Function

variable {n : Nat} {w v : World n} {e : Lifecycle.Event n} {c : Fin n} {p q : Slot} {y : Code}

def deciding : Code → Bool
  | .room _ _ _ | .doze _ => true
  | _ => false

def peaceful : Machine.Event n → Bool
  | .kkill _ _ _ | .setkilled _ | .sleep _ _ => false
  | _ => true

structure Noticed (w : World n) : Prop where
  awake : ∀ p, deciding (w.code p) → (sig w.core p).killed = false
  asleep : ∀ p x, (sig w.core p).state = .sleeping → w.code p = .asleep x → (sig w.core p).killed = false

theorem boot_noticed (n : Nat) : Noticed (Lifecycle.boot n) :=
  ⟨nofun, nofun⟩

def Open (y : Code) : Prop := deciding y = false ∧ ∀ x, y ≠ .asleep x

theorem open_afterFile (status : Int) (fd : Fin NOFILE) : Open (afterFile status fd) := by
  rw [afterFile]
  split <;> exact ⟨rfl, nofun⟩

theorem open_afterReparent (status : Int) (i : Slot) : Open (afterReparent status i) := by
  rw [afterReparent]
  split <;> exact ⟨rfl, nofun⟩

theorem open_afterScan (addr : Nat) (i : Slot) (havekids : Bool) : Open (afterScan addr i havekids) := by
  rw [afterScan]
  split
  · exact ⟨rfl, nofun⟩
  · split <;> exact ⟨rfl, nofun⟩

theorem open_head (x : Site) : Open x.head := by
  cases x <;> exact ⟨rfl, nofun⟩

theorem open_inLoop (hy : inLoop y) (hroom : ∀ pi i m, y ≠ .room pi i m) : Open y := by
  cases y with
  | test | post | check | ret | take => exact ⟨rfl, nofun⟩
  | room pi i m => exact absurd rfl (hroom pi i m)
  | _ => cases hy

theorem willing_ne (x x' : Site) : x.willing ≠ .asleep x' := by
  cases x <;> rintro ⟨⟩

namespace Noticed

variable (h : Noticed w)

include h

theorem of_code (hcore : v.core = w.core) (hcode : v.code = update w.code p y)
    (hawake : deciding y → (sig w.core p).killed = false)
    (hasleep : ∀ x, y = .asleep x → (sig w.core p).state ≠ .sleeping) : Noticed v := by
  refine ⟨?_, ?_⟩
  · intro q
    rw [hcore, hcode, update_apply]
    split
    · rename_i hq
      rw [hq]
      exact hawake
    · exact h.awake q
  · intro q x
    rw [hcore, hcode, update_apply]
    split
    · rename_i hq
      rw [hq]
      exact fun hs hy => absurd hs (hasleep x hy)
    · exact h.asleep q x

theorem of_open (hcore : v.core = w.core) (hcode : v.code = update w.code p y) (hy : Open y) : Noticed v := by
  refine h.of_code hcore hcode ?_ (fun x hx => absurd hx (hy.2 x))
  simp [hy.1]

theorem of_core (hx : Exclusive w.core) {e : Machine.Event n} {k : Kernel n} (hk : w.core.step e = some k)
    (hkill : ∀ c q, e = .kkill c (sig w.core q).pid q → deciding (w.code q) = false)
    (hset : ∀ c q, e = .setkilled c → w.core.proc c = some q → deciding (w.code q) = false)
    (hsleep : ∀ c chan q x, e = .sleep c chan → w.core.proc c = some q → w.code q = .asleep x →
      (sig w.core q).killed = false) (hv : v.core = k) (hcode : v.code = w.code) : Noticed v := by
  subst hv
  refine ⟨?_, ?_⟩
  · intro q hq
    rw [hcode] at hq
    by_contra hkilled
    rcases killed_step hk (Bool.not_eq_false _ ▸ hkilled) with hbefore | ⟨c, he⟩ | ⟨c, he, hc⟩
    · rw [h.awake q hq] at hbefore
      cases hbefore
    · rw [hkill c q he] at hq
      cases hq
    · rw [hset c q he hc] at hq
      cases hq
  · intro q x hs hq
    rw [hcode] at hq
    rcases sleeping_step hx hk hs with hsame | ⟨c, chan, rfl, hc⟩
    · rw [hsame] at hs ⊢
      exact h.asleep q x hs hq
    · rw [sleep_effect hk hc, if_pos rfl]
      exact hsleep c chan q x rfl hc hq

theorem of_section (hx : Exclusive w.core) {e : Machine.Event n} {k : Kernel n}
    (hk : w.core.step e = some k) (he : peaceful e) (hv : v.core = k)
    (hcode : v.code = update w.code p y) (hy : Open y) : Noticed v := by
  have hgoto : Noticed (w.goto p y) := h.of_open rfl rfl hy
  refine hgoto.of_core hx hk ?_ ?_ ?_ hv hcode
  · rintro c q rfl
    cases he
  · rintro c q rfl
    cases he
  · rintro c chan q x rfl
    cases he

theorem doze (hx : Exclusive w.core) (hme : w.me c = some p) {x : Site}
    (hp : w.code p = .doze x) {k : Kernel n} (hk : w.core.step (.sleep c (x.chan p)) = some k) :
    Noticed (({ w with core := k }.setLock x.lk none).goto p (.asleep x)) := by
  have hgoto : Noticed (w.goto p (.asleep x)) := by
    refine h.of_code rfl rfl nofun (fun _ _ => ?_)
    simp [me_running hx hme]
  refine hgoto.of_core hx hk (by simp) (by simp) ?_ rfl rfl
  rintro d chan q x' ⟨⟩ hd -
  obtain rfl : p = q := Option.some.inj ((me_eq_some hme).2.symm.trans hd)
  exact h.awake p (by rw [hp]; rfl)

theorem acts (hx : Exclusive w.core) (ha : Acts w e v)
    (hkill : ∀ c q, e = .core (.kkill c (sig w.core q).pid q) → deciding (w.code q) = false) : Noticed v := by
  cases ha with
  | core ha hk =>
    refine h.of_core hx hk (fun c q he => hkill c q (by rw [he])) ?_ ?_ rfl rfl
    · rintro c q rfl hc
      rw [allows_setkilled ha hc]
      rfl
    · rintro c chan q x rfl hc hq
      obtain ⟨hblock, -⟩ := allows_sleep ha hc
      rw [hq] at hblock
      cases hblock
  | setRes | pipe | consoleintr => exact ⟨h.awake, h.asleep⟩
  | allocproc hme hp hk | forkDone hme hp hk | forkRun hme hp hk | wakeParent hme hp hk | zombie hme hp hk
  | post hme hp hk =>
    exact h.of_section hx hk rfl rfl rfl ⟨rfl, nofun⟩
  | @wakeInit c p status i o k hme hp hk => exact h.of_section hx hk rfl rfl rfl (open_afterReparent status i)
  | @forkFail c p np k hpc hpr hk =>
    have hfree : Noticed (w.goto np .user) := h.of_open rfl rfl ⟨rfl, nofun⟩
    exact hfree.of_section hx hk rfl rfl rfl ⟨rfl, nofun⟩
  | @reap c p addr i havekids o k hme hp hi hs ho hk =>
    have hfree : Noticed (w.goto i .user) := h.of_open rfl rfl ⟨rfl, nofun⟩
    exact hfree.of_section hx hk rfl rfl rfl ⟨rfl, nofun⟩
  | forkParent hme hp hl | exit hme hp hi | exitCwd hme hp | exitLock hme hp hl | adopt hme hp hi
  | unlockWait hpc hpr hp | call hme hp | scanFault hme hp hi hs ha | killed hme hp hk | ret hme hp =>
    exact h.of_open rfl rfl ⟨rfl, nofun⟩
  | @exitFile c p status fd o hme hp => exact h.of_open rfl rfl (open_afterFile status fd)
  | @pass c p status i o hme hp hi => exact h.of_open rfl rfl (open_afterReparent status i)
  | enter hme hp hl | reacquire hme hp hl => exact h.of_open rfl rfl (open_head _)
  | scanOther hme hp hi | scanAlive hme hp hi hs =>
    exact h.of_open rfl rfl (open_afterScan _ _ _)
  | loop hme hp hy hroom hret => exact h.of_open rfl rfl (open_inLoop hy hroom)
  | @willing c p x o hme hp hk =>
    exact h.of_code rfl rfl (fun _ => hk) (fun x' hx' => absurd hx' (willing_ne x x'))
  | @full c p pi i m o k hme hp hk =>
    have hdoze : Noticed (w.goto p (.doze (.write pi i m))) :=
      h.of_code rfl rfl (fun _ => h.awake p (by rw [hp]; rfl)) (by simp)
    exact hdoze.of_core hx hk (by simp) (by simp) (by simp) rfl rfl
  | doze hme hp hk => exact h.doze hx hme hp hk

end Noticed

/-- No kill() finds its pid at a process between killed() and sleep()'s p->lock. -/
def KillsInTime (r : Lifecycle.Run n) : Prop :=
  ∀ k c pid q, r.event k = some (.core (.kkill c pid q)) → ((r.state k).core.procs q).pid = pid →
    deciding ((r.state k).code q) = false

theorem run_noticed (r : Lifecycle.Run n) (hkill : KillsInTime r) (k : Nat) : Noticed (r.state k) := by
  refine run_always r (boot_noticed n) (fun k e he h ha => ?_) k
  refine h.acts (core_exclusive r k) ha ?_
  rintro c q rfl
  exact hkill k c _ q he rfl

def started (c d : Fin n) (p : Slot) : List (Lifecycle.Event n) := turn c ++ fork c p ++ turn d

/-- The child sleeps, is killed, and its parent waits. -/
def inTime (c d : Fin n) (p : Slot) : List (Lifecycle.Event n) :=
  started c d p ++ (.call d (.pause 0 5) :: List.replicate 4 (.run d .ok)) ++
    [.core (.swtch d), .core (.kkill c 2 initproc), .core (.kkill c 2 p)] ++ waits c

def isKill : Lifecycle.Event n → Bool
  | .core (.kkill _ _ _) => true
  | _ => false

/-- If no kill() falls between killed() and sleep(), no killed process sleeps in a waiting loop. -/
theorem kill_noticed (r : Lifecycle.Run n) (hkill : KillsInTime r) (k : Nat) (p : Slot) (x : Site)
    (hs : (r.state k).state p = .sleeping) (hp : (r.state k).code p = .asleep x) :
    ((r.state k).core.procs p).killed = false :=
  (run_noticed r hkill k).asleep p x hs hp

theorem kill_noticed_waiting : ∃ (r : Lifecycle.Run 2), KillsInTime r ∧
    r.event 145 = some (.core (.kkill 0 2 1)) ∧ (r.state 145).state 1 = .sleeping ∧
    (r.state 214).state 1 = .runnable ∧ ((r.state 214).core.procs 1).killed = true ∧
    (r.state 214).state initproc = .sleeping ∧ ((r.state 214).core.procs initproc).killed = false := by
  have hexec : (Runs.exec World.step (Lifecycle.boot 2) (inTime 0 1 1)).isSome = true := by decide +kernel
  obtain ⟨t, ht⟩ := Option.isSome_iff_exists.mp hexec
  obtain ⟨r, -, hev⟩ := Runs.exists_script ht
  have hwhen : ∀ k < 214, ((inTime (n := 2) 0 1 1)[k]?).any isKill = true → k = 144 ∨ k = 145 := by decide +kernel
  have hkill : KillsInTime r := by
    intro k c pid q hk _
    rw [hev] at hk
    have hlt : k < 214 := (List.getElem?_eq_some_iff.mp hk).1
    rcases hwhen k hlt (by rw [hk]; rfl) with rfl | rfl
    · obtain rfl : initproc = q := by cases hk; rfl
      exact Runs.script_eq hev (f := fun w => deciding (w.code initproc)) (by decide +kernel)
    · obtain rfl : (1 : Slot) = q := by cases hk; rfl
      exact Runs.script_eq hev (f := fun w => deciding (w.code 1)) (by decide +kernel)
  have hasleep : (r.state 145).state 1 = .sleeping := Runs.script_eq hev (f := (·.state 1)) (by decide +kernel)
  obtain ⟨⟨⟨hwoken, hkilled⟩, hs⟩, hp⟩ : (((r.state 214).state 1 = .runnable ∧
      ((r.state 214).core.procs 1).killed = true) ∧ (r.state 214).state initproc = .sleeping) ∧
      (r.state 214).code initproc = .asleep (.wait 0) := by
    have hend := Runs.script_eq hev (f := fun w => w.state 1 = .runnable && (w.core.procs 1).killed &&
      w.state initproc = .sleeping && w.code initproc = .asleep (.wait 0)) (k := 214) (a := true) (by decide +kernel)
    simpa only [Bool.and_eq_true, decide_eq_true_eq] using hend
  exact ⟨r, hkill, by rw [hev]; rfl, hasleep, hwoken, hkilled, hs, kill_noticed r hkill 214 initproc (.wait 0) hs hp⟩

section Missed

def written (w : World n) (p : Slot) (pi : Nat) (m : Int) (j : Nat) : World n :=
  (w.setPipe pi ⟨0, j, true, true⟩).goto p (.test (.write pi j m))

theorem written_step {pi j : Nat} {m : Int} (hme : w.me c = some p) (hlock : w.core.lock p = none)
    (hkilled : (w.core.procs p).killed = false) (hj : j < 512) (hm : j < m) :
    Runs.exec World.step (written w p pi m j) (List.replicate 3 (.run c .ok)) =
      some (written w p pi m (j + 1)) := by
  have hstep : ∀ y, ((written w p pi m j).goto p y).step (.run c .ok) =
      ((written w p pi m j).goto p y).next c p .ok y :=
    fun y => step_run (w := (written w p pi m j).goto p y) hme (by simp [goto])
  have hfull : j ≠ Words.u32 PIPESIZE := Nat.ne_of_lt hj
  have hnext : Words.u32 (j + 1) = j + 1 := Nat.mod_eq_of_lt (by omega)
  have htest : (written w p pi m j).step (.run c .ok) =
      some ((written w p pi m j).goto p (.check (.write pi j m))) := by
    rw [step_run (w := written w p pi m j) (y := .test (.write pi j m)) hme (by simp [written, goto])]
    simp [next, testNext, written, goto, setPipe, hm]
  have hcheck : ((written w p pi m j).goto p (.check (.write pi j m))).step (.run c .ok) =
      some ((written w p pi m j).goto p (.room pi j m)) := by
    rw [hstep]
    simp [next, written, goto, setPipe, hlock, hkilled, Site.willing]
  have hroom : ((written w p pi m j).goto p (.room pi j m)).step (.run c .ok) =
      some (written w p pi m (j + 1)) := by
    rw [hstep]
    simp [next, roomNext, written, goto, setPipe, hfull, hnext]
  simp only [List.replicate, Runs.exec, htest, hcheck, hroom, Option.bind_some]

theorem written_path {pi : Nat} {m : Int} (hme : w.me c = some p) (hlock : w.core.lock p = none)
    (hkilled : (w.core.procs p).killed = false) (hm : 512 ≤ m) {j : Nat} (hj : j ≤ 512) :
    Runs.exec World.step (written w p pi m 0) (List.replicate (3 * j) (.run c .ok)) =
      some (written w p pi m j) := by
  induction j with
  | zero => rfl
  | succ j ih =>
    rw [Nat.mul_succ, ← List.replicate_append_replicate, Runs.exec_append, ih (by omega)]
    exact written_step hme hlock hkilled (by omega) (by omega)

theorem written_zero {pi : Nat} {m : Int} (hpipe : w.pipe pi = ⟨0, 0, true, true⟩)
    (hp : w.code p = .test (.write pi 0 m)) : written w p pi m 0 = w := by
  have hcode : update w.code p (.test (.write pi 0 m)) = w.code :=
    update_eq_self_iff.mpr hp.symm
  have hsame : update w.pipe pi ⟨0, 0, true, true⟩ = w.pipe :=
    update_eq_self_iff.mpr hpipe.symm
  simp only [written, setPipe, goto, hsame]
  exact congrArg (fun code => { w with code := code }) hcode

def asks (d : Fin n) (q : Slot) : Site → List (Lifecycle.Event n)
  | .wait addr => fork d q ++ [.call d (.wait addr)] ++ List.replicate (NPROC + 2) (.run d .ok)
  | .read pi m => [.pipealloc d pi, .call d (.read pi m)] ++ List.replicate 3 (.run d .ok)
  | .write _ _ _ => List.replicate 3 (.run d .ok) ++ List.replicate NPROC (.core (.wakeupVisit d))
  | x => .call d x :: List.replicate 3 (.run d .ok)

def late (c d : Fin n) (pid : Int) (p q : Slot) : List (Lifecycle.Event n) :=
  [.core (.kkill c pid p), .core (.kkill c pid q), .run d .ok]

def missed (p : Slot) (x : Site) (w : World n) : Bool :=
  w.state p = .sleeping && w.code p = .asleep x && (w.core.procs p).killed

/-- Some run reaches a state in which a killed process sleeps in the loop x. -/
def Missed (x : Site) : Prop :=
  ∃ (r : Lifecycle.Run 2) (k : Nat) (p : Slot), (r.state k).state p = .sleeping ∧ (r.state k).code p = .asleep x ∧
    ((r.state k).core.procs p).killed = true

theorem missed_of_script (p : Slot) {x : Site} (es : List (Lifecycle.Event 2))
    (h : (Runs.exec World.step (Lifecycle.boot 2) es).any (missed p x) = true) : Missed x := by
  obtain ⟨r, k, hk⟩ := Runs.exists_reached_script h
  simp only [missed, Bool.and_eq_true, decide_eq_true_eq] at hk
  exact ⟨r, k, p, hk.1.1, hk.1.2, hk.2⟩

theorem missed_write : Missed (.write 0 512 600) := by
  have hexec : (Runs.exec World.step (Lifecycle.boot 2)
      (started 0 1 1 ++ [.pipealloc 1 0, .call 1 (.write 0 0 600), .run 1 .ok])).any (fun w =>
        w.me 1 = some 1 && w.core.lock 1 = none && !(w.core.procs 1).killed && w.pipe 0 = ⟨0, 0, true, true⟩ &&
          w.code 1 = .test (.write 0 0 600) && (Runs.exec World.step (written w 1 0 600 512)
            (asks 1 2 (.write 0 512 600) ++ late 0 1 2 initproc 1)).any (missed 1 (.write 0 512 600))) = true := by
    decide +kernel
  obtain ⟨w, hw, hw'⟩ := (Option.any_eq_true _ _).mp hexec
  simp only [Bool.and_eq_true, decide_eq_true_eq, Bool.not_eq_true'] at hw'
  obtain ⟨⟨⟨⟨⟨hme, hlock⟩, hkilled⟩, hpipe⟩, hcode⟩, hrest⟩ := hw'
  have hfill : Runs.exec World.step (written w 1 0 600 0) (List.replicate (3 * 512) (.run 1 .ok)) =
      some (written w 1 0 600 512) := written_path hme hlock hkilled (by decide) (Nat.le_refl 512)
  rw [written_zero hpipe hcode] at hfill
  refine missed_of_script 1 ((started 0 1 1 ++ [.pipealloc 1 0, .call 1 (.write 0 0 600), .run 1 .ok]) ++
    (List.replicate (3 * 512) (.run 1 .ok) ++ (asks 1 2 (.write 0 512 600) ++ late 0 1 2 initproc 1))) ?_
  rw [Runs.exec_append, hw, Option.bind_some, Runs.exec_append, hfill, Option.bind_some]
  exact hrest

/-- In each of the five loops a kill() can fall between killed() and sleep(), and its
victim sleeps on. -/
theorem kill_missed : Missed (.wait 0) ∧ Missed (.read 0 1) ∧ Missed (.write 0 512 600) ∧
    Missed (.console 1 1) ∧ Missed (.pause 0 5) := by
  have hexec : (Runs.exec World.step (Lifecycle.boot 2) (started 0 1 1)).any (fun w =>
      [Site.wait 0, .read 0 1, .console 1 1, .pause 0 5].all fun x =>
        (Runs.exec World.step w (asks 1 2 x ++ late 0 1 2 initproc 1)).any (missed 1 x)) = true := by
    decide +kernel
  obtain ⟨w, hw, hw'⟩ := (Option.any_eq_true _ _).mp hexec
  have hmissed : ∀ x ∈ [Site.wait 0, .read 0 1, .console 1 1, .pause 0 5], Missed x := by
    intro x hx
    refine missed_of_script 1 (started 0 1 1 ++ (asks 1 2 x ++ late 0 1 2 initproc 1)) ?_
    rw [Runs.exec_append, hw, Option.bind_some]
    exact List.all_eq_true.mp hw' x hx
  exact ⟨hmissed _ (by simp), hmissed _ (by simp), missed_write, hmissed _ (by simp), hmissed _ (by simp)⟩

end Missed

end AdaptiveXv6.Kills
