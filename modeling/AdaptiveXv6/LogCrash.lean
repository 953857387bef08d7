import AdaptiveXv6.LogOrder
import AdaptiveXv6.Recovery

namespace AdaptiveXv6.LogCrash

open Writes LogDisk LogSystem System LogSteps LogOrder Recovery Function

variable {ι : Type} [DecidableEq ι] {start : Nat} {disk : Disk} {s t : System ι} {e : Event ι}

/-- The transactions since the last recovery, which left the contents base: all that commit() was called for,
and how many have returned. -/
structure Session where
  base : Disk
  begun : List (List (Nat × Block))
  returned : Nat

/-- With no write left, commit() returns. -/
def Session.left (g : Session) : List (Nat × Block) → Session
  | [] => { g with returned := g.begun.length }
  | _ :: _ => g

def transaction (s : System ι) : List (Nat × Block) := s.log.lh.map fun b => (b, contents s.disk s.cache b)

def record (start : Nat) (s : System ι) : Event ι → Session → Session
  | .endOp _, g => match endOp s.log with
    | .ok (_, true) => Session.left { g with begun := g.begun ++ [transaction s] }
      (commitWrites start s.disk s.cache s.log.lh)
    | _ => g
  | .diskWrite p, g => match s.pc p with
    | .committing (_ :: ws) => g.left ws
    | _ => g
  | .recovered, _ => ⟨s.disk, [], 0⟩
  | _, g => g

def session (r : Run ι start disk) : Nat → Session := r.history (fun s e g => record start s e g) ⟨disk, [], 0⟩

/-- The contents after the first m transactions of the session. -/
def after (g : Session) (m : Nat) : Nat → Block := apply g.base (g.begun.take m).flatten

theorem apply_transaction (h v : Nat → Block) (lh : List Nat) :
    apply h (lh.map fun b => (b, v b)) = updated h v lh := by
  induction lh generalizing h with
  | nil =>
    funext b
    simp [apply, updated]
  | cons a lh ih =>
    rw [List.map_cons, apply, ih]
    funext b
    simp only [updated, List.mem_cons]
    by_cases hb : b ∈ lh
    · simp [hb]
    · by_cases hab : b = a
      · simp [hab]
      · simp [hb, hab]

theorem after_begun (g : Session) (txn : List (Nat × Block)) {m : Nat} (hm : m ≤ g.begun.length) :
    after { g with begun := g.begun ++ [txn] } m = after g m := by
  simp only [after, List.take_append_of_le_length hm]

omit [DecidableEq ι] in
theorem after_last (g : Session) (s : System ι) :
    after { g with begun := g.begun ++ [transaction s] } (g.begun.length + 1) =
      updated (after g g.begun.length) (contents s.disk s.cache) s.log.lh := by
  have htake : (g.begun ++ [transaction s]).take (g.begun.length + 1) = g.begun ++ [transaction s] :=
    List.take_of_length_le (by simp)
  simp only [after, htake, List.flatten_append, apply_append, List.take_length]
  rw [← apply_transaction]
  simp [transaction]

/-- The disk stands for the contents after some transactions, among them all that commit() had returned from.
-/
def Survives (start : Nat) (g : Session) (d : Disk) : Prop :=
  ∃ m, g.returned ≤ m ∧ m ≤ g.begun.length ∧ Stands start (after g m) d

def Commits (start : Nat) (g : Session) (d : Disk) (todo : List (Nat × Block)) : Prop :=
  Through (Survives start g) (Clean start (after g g.begun.length)) d todo ∧ (todo = [] → g.returned = g.begun.length)

theorem commits_left {g : Session} {d : Disk} {todo : List (Nat × Block)}
    (h : Through (Survives start g) (Clean start (after g g.begun.length)) d todo) :
    Commits start (g.left todo) d todo := by
  cases h with
  | done _ hclean => exact ⟨.done ⟨g.begun.length, Nat.le_refl _, Nat.le_refl _, hclean.stands⟩ hclean, fun _ => rfl⟩
  | write hP hws => exact ⟨.write hP hws, by simp⟩

structure Kept (start : Nat) (s : System ι) (g : Session) : Prop where
  ordered : ∃ A, Ordered s A
  home : ∀ b ∈ s.log.lh, Home start b
  room : s.log.lh.length ≤ LOGBLOCKS
  idle : s.mode ≠ .up → ∀ p todo, s.pc p ≠ .committing todo
  quiet : s.mode = .up → (∀ p todo, s.pc p ≠ .committing todo) →
    Clean start (after g g.begun.length) s.disk ∧ g.returned = g.begun.length
  commit : ∀ p todo, s.mode = .up → s.pc p = .committing todo → Commits start g s.disk todo
  down : s.mode = .down → Survives start g s.disk
  recovering : ∀ todo, s.mode = .recovering todo → ∃ m, g.returned ≤ m ∧ m ≤ g.begun.length ∧
    Through (Stands start (after g m)) (Clean start (after g m)) s.disk todo

namespace Kept

variable {g : Session} {p : ι}

omit [DecidableEq ι] in
theorem survives (h : Kept start s g) : Survives start g s.disk := by
  cases hm : s.mode with
  | up =>
    by_cases hc : ∃ p todo, s.pc p = .committing todo
    · obtain ⟨p, todo, hp⟩ := hc
      exact (h.commit p todo hm hp).1.first
    · obtain ⟨hclean, hret⟩ := h.quiet hm (fun p todo hp => hc ⟨p, todo, hp⟩)
      exact ⟨_, Nat.le_of_eq hret, Nat.le_refl _, hclean.stands⟩
  | down => exact h.down hm
  | recovering todo =>
    obtain ⟨m, hlo, hhi, hthrough⟩ := h.recovering todo hm
    exact ⟨m, hlo, hhi, hthrough.first⟩

omit [DecidableEq ι] in
theorem crash (h : Kept start s g) : Kept start s.crash g where
  ordered := ⟨∅, Ordered.off s.disk⟩
  home := nofun
  room := Nat.zero_le _
  idle _ := nofun
  quiet := nofun
  commit := nofun
  down _ := h.survives
  recovering := nofun

omit [DecidableEq ι] in
theorem boot (h : Kept start s g) (hm : s.mode = .down) :
    Kept start { s with mode := .recovering (recoverWrites start s.disk) } g where
  ordered := h.ordered.imp fun _ ho => ho.same rfl rfl
  home := h.home
  room := h.room
  idle _ := h.idle (by simp [hm])
  quiet := by simp
  commit := by simp
  down := by simp
  recovering todo htodo := by
    obtain ⟨m, hlo, hhi, hstands⟩ := h.down hm
    cases htodo
    exact ⟨m, hlo, hhi, recover_through hstands⟩

omit [DecidableEq ι] in
theorem recoverWrite (h : Kept start s g) {w : Nat × Block} {ws : List (Nat × Block)}
    (hm : s.mode = .recovering (w :: ws)) : Kept start { s.bwrite w with mode := .recovering ws } g where
  ordered := h.ordered.imp fun _ ho => ho.same rfl rfl
  home := h.home
  room := h.room
  idle _ := h.idle (by simp [hm])
  quiet := by simp
  commit := by simp
  down := by simp
  recovering todo htodo := by
    obtain ⟨m, hlo, hhi, hthrough⟩ := h.recovering _ hm
    cases htodo
    cases hthrough with
    | write _ hws => exact ⟨m, hlo, hhi, hws⟩

omit [DecidableEq ι] in
theorem recovered (h : Kept start s g) (hm : s.mode = .recovering []) :
    Kept start { s with mode := .up } ⟨s.disk, [], 0⟩ where
  ordered := h.ordered.imp fun _ ho => ho.same rfl rfl
  home := h.home
  room := h.room
  idle := by simp
  quiet _ _ := by
    obtain ⟨m, -, -, hthrough⟩ := h.recovering _ hm
    cases hthrough with
    | done _ hclean => exact ⟨⟨hclean.empty, fun _ _ => rfl⟩, rfl⟩
  commit p todo _ hp := absurd hp (h.idle (by simp [hm]) p todo)
  down := by simp
  recovering := by simp

omit [DecidableEq ι] in
theorem alike (h : Kept start s g) (hm : t.mode = s.mode) (hd : t.disk = s.disk)
    (hord : ∃ A, Ordered t A) (hhome : ∀ b ∈ t.log.lh, Home start b) (hroom : t.log.lh.length ≤ LOGBLOCKS)
    (hpc : ∀ p todo, t.pc p = .committing todo ↔ s.pc p = .committing todo) : Kept start t g where
  ordered := hord
  home := hhome
  room := hroom
  idle hup p todo hp := h.idle (by rw [← hm]; exact hup) p todo ((hpc p todo).mp hp)
  quiet hup hno := by
    rw [hd]
    exact h.quiet (hm ▸ hup) (fun p todo hp => hno p todo ((hpc p todo).mpr hp))
  commit p todo hup hp := by
    rw [hd]
    exact h.commit p todo (hm ▸ hup) ((hpc p todo).mp hp)
  down hdown := by
    rw [hd]
    exact h.down (hm ▸ hdown)
  recovering todo hrec := by
    rw [hd]
    exact h.recovering todo (hm ▸ hrec)

omit [DecidableEq ι] in
theorem of_up (hup : t.mode = .up) (hord : ∃ A, Ordered t A) (hhome : ∀ b ∈ t.log.lh, Home start b)
    (hroom : t.log.lh.length ≤ LOGBLOCKS)
    (hquiet : (∀ p todo, t.pc p ≠ .committing todo) →
      Clean start (after g g.begun.length) t.disk ∧ g.returned = g.begun.length)
    (hcommit : ∀ p todo, t.pc p = .committing todo → Commits start g t.disk todo) : Kept start t g where
  ordered := hord
  home := hhome
  room := hroom
  idle hn := absurd hup hn
  quiet _ := hquiet
  commit p todo _ := hcommit p todo
  down hdown := by
    rw [hup] at hdown
    cases hdown
  recovering todo hrec := by
    rw [hup] at hrec
    cases hrec

theorem commit_starts (h : Kept start s g) (hup : s.mode = .up) (hp : s.pc p = .active) {l : Log}
    (hl : endOp s.log = .ok (l, true)) :
    Kept start { s.goto p (.committing (commitWrites start s.disk s.cache s.log.lh)) with log := l }
      (Session.left { g with begun := g.begun ++ [transaction s] }
        (commitWrites start s.disk s.cache s.log.lh)) := by
  obtain ⟨A, hord⟩ := h.ordered
  have hno := (hord.quiet_of_active hp).2
  obtain ⟨hclean, hret⟩ := h.quiet hup hno
  have hord' := hord.commit hp hl (commitWrites start s.disk s.cache s.log.lh)
  obtain ⟨-, -, rfl⟩ := endOp_commits hl
  have hthrough := commit_through s.cache hclean h.room h.home
  rw [← after_last] at hthrough
  have hsurvives : Through (Survives start { g with begun := g.begun ++ [transaction s] })
      (Clean start (after { g with begun := g.begun ++ [transaction s] } (g.begun ++ [transaction s]).length)) s.disk
      (commitWrites start s.disk s.cache s.log.lh) := by
    rw [show (g.begun ++ [transaction s]).length = g.begun.length + 1 by simp]
    refine hthrough.mono ?_ (fun _ => id)
    rintro d (hs | hs)
    · refine ⟨g.begun.length, Nat.le_of_eq hret, by simp, ?_⟩
      rw [after_begun g _ (Nat.le_refl _)]
      exact hs
    · exact ⟨g.begun.length + 1, by simp only [hret]; omega, by simp, hs⟩
  refine of_up hup ⟨_, hord'⟩ h.home h.room ?_ ?_
  · intro hnone
    exact absurd (update_self ..) (hnone p _)
  · intro q todo hq
    by_cases hqp : q = p
    · simp only [goto, hqp, update_self, Pc.committing.injEq] at hq
      subst hq
      exact commits_left hsurvives
    · simp only [goto, update_of_ne hqp] at hq
      exact absurd hq (hno q todo)

theorem diskWrite (h : Kept start s g) (hup : s.mode = .up) {w : Nat × Block} {ws : List (Nat × Block)}
    (hp : s.pc p = .committing (w :: ws)) : Kept start ((s.bwrite w).goto p (.committing ws)) (g.left ws) := by
  obtain ⟨A, hord⟩ := h.ordered
  refine of_up hup ⟨A, hord.diskWrite hp⟩ h.home h.room ?_ ?_
  · intro hnone
    exact absurd (update_self ..) (hnone p ws)
  · intro q todo hq
    by_cases hqp : q = p
    · simp only [goto, hqp, update_self, Pc.committing.injEq] at hq
      subst hq
      cases (h.commit p _ hup hp).1 with
      | write _ hws => exact commits_left hws
    · simp only [goto, update_of_ne hqp] at hq
      exact absurd (hord.unique q p _ _ hq hp) hqp

theorem commitDone (h : Kept start s g) (hup : s.mode = .up) (hp : s.pc p = .committing []) :
    Kept start { (s.goto p .idle).wakeup with log := LogSystem.commitDone s.log } g := by
  obtain ⟨A, hord⟩ := h.ordered
  obtain ⟨hthrough, hret⟩ := h.commit p _ hup hp
  have hclean : Clean start (after g g.begun.length) s.disk := by
    cases hthrough with
    | done _ hc => exact hc
  have hnone : ∀ q todo, wake ((s.goto p .idle).pc q) ≠ .committing todo := by
    intro q todo hq
    rw [wake_eq_committing] at hq
    by_cases hqp : q = p
    · simp [goto, hqp] at hq
    · simp only [goto, update_of_ne hqp] at hq
      exact hqp (hord.unique q p _ _ hq hp)
  refine of_up hup ⟨A, hord.commitDone hp⟩ (by simp [LogSystem.commitDone]) (Nat.zero_le _) ?_ ?_
  · exact fun _ => ⟨hclean, hret rfl⟩
  · exact fun q todo hq => absurd hq (hnone q todo)

theorem acts (h : Kept start s g) (hup : s.mode = .up) (hhome : ∀ p b v, e = .logWrite p b v → Home start b)
    (ha : Acts start s e t) : Kept start t (record start s e g) := by
  obtain ⟨A, hord⟩ := h.ordered
  have hord' := hord.acts ha
  cases ha with
  | call p hp =>
    exact h.alike rfl rfl hord' h.home h.room fun q todo => (alike_update (f := s.pc) (by simp [hp]) q).2 todo
  | admitted p l hp hl =>
    obtain ⟨hcom, -, rfl⟩ := beginOp_some hl
    exact h.alike rfl rfl hord' h.home h.room
      fun q todo => by
        by_cases hq : q = p
        · simp [goto, hq, hp]
        · simp [goto, update_of_ne hq]
  | refused p hp hl =>
    exact h.alike rfl rfl hord' h.home h.room fun q todo => (alike_update (f := s.pc) (by simp [hp]) q).2 todo
  | logWrite p b v l hp hl =>
    obtain ⟨hlt, -, rfl⟩ := logWrite_ok hl
    refine h.alike rfl rfl hord' ?_ ?_ fun _ _ => Iff.rfl
    · intro a ha
      rcases mem_absorb.mp ha with ha | rfl
      · exact h.home a ha
      · exact hhome p a v rfl
    · change (absorb s.log.lh b).length ≤ LOGBLOCKS
      rw [absorb_eq]
      split
      · exact h.room
      · rw [List.length_append]
        exact hlt
  | logPanic p b v x hp hl => exact h.alike rfl rfl hord' h.home h.room fun _ _ => Iff.rfl
  | commit p l hp hl =>
    simp only [record, hl]
    exact h.commit_starts hup hp hl
  | endOp p l hp hl =>
    simp only [record, hl]
    obtain ⟨-, -, rfl⟩ := endOp_leaves hl
    refine h.alike rfl rfl hord' h.home h.room fun q todo => ?_
    by_cases hq : q = p
    · simp [System.wakeup, goto, hq, hp]
    · simp [System.wakeup, goto, update_of_ne hq]
  | endPanic p x hp hl =>
    simp only [record, hl]
    exact h.alike rfl rfl hord' h.home h.room fun _ _ => Iff.rfl
  | diskWrite p w ws hp =>
    simp only [record, hp]
    exact h.diskWrite hup hp
  | commitDone p hp => exact h.commitDone hup hp
  | sync p hp hb =>
    obtain ⟨hlog, hd, -, hm, -, ha⟩ := alike_await s (.inl hp) (Words.i32 (s.log.ncommit + 1))
    exact h.alike hm hd hord' (by rw [hlog]; exact h.home) (by rw [hlog]; exact h.room) fun q todo => (ha q).2 todo
  | syncNow p hp hb => exact h
  | syncTest p target hp =>
    obtain ⟨hlog, hd, -, hm, -, ha⟩ := alike_await s (.inr ⟨target, hp⟩) target
    exact h.alike hm hd hord' (by rw [hlog]; exact h.home) (by rw [hlog]; exact h.room) fun q todo => (ha q).2 todo
  | kick p =>
    exact h.alike rfl rfl hord' h.home h.room fun q todo => (alike_update (f := s.pc) (by simp) q).2 todo

theorem step (h : Kept start s g) (hhome : ∀ p b v, e = .logWrite p b v → Home start b)
    (he : s.step start e = some t) : Kept start t (record start s e g) := by
  cases steps_of_step he with
  | crash => exact h.crash
  | boot hm => exact h.boot hm
  | recoverWrite w ws hm => exact h.recoverWrite hm
  | recovered hm => exact h.recovered hm
  | act _ _ hup hok ha => exact h.acts hup hhome ha

end Kept

section Recovered

variable (r : Run ι start disk) (hempty : getHead (disk start) = [])
  (hhome : ∀ k p b v, r.event k = some (.logWrite p b v) → Home start b)

include r hempty hhome

theorem run_kept (k : Nat) : Kept start (r.state k) (session r k) := by
  induction k with
  | zero =>
    have hclean : Clean start disk disk := ⟨hempty, fun _ _ => rfl⟩
    rw [r.start]
    exact ⟨⟨∅, Ordered.off disk⟩, nofun, Nat.zero_le _, fun _ => nofun, nofun,
      nofun, fun _ => ⟨0, Nat.le_refl _, Nat.le_refl _, hclean.stands⟩, nofun⟩
  | succ k ih =>
    cases he : r.event k with
    | none => rw [session, r.history_no_event _ _ he, r.state_of_no_event he]; exact ih
    | some e =>
      rw [session, r.history_event _ _ he]
      refine ih.step ?_ (r.step_of_event he)
      rintro p b v rfl
      exact hhome k p b v he

theorem home_recovered {k : Nat} (hk : r.event k = some .recovered) :
    ∃ m, (session r k).returned ≤ m ∧ m ≤ (session r k).begun.length ∧
      ∀ b, Home start b → (r.state (k + 1)).disk b = after (session r k) m b := by
  have hkept := run_kept r hempty hhome k
  have hstep := steps_of_step (r.step_of_event hk)
  generalize r.state (k + 1) = t at hstep
  cases hstep with
  | recovered hm =>
    obtain ⟨m, hlo, hhi, hthrough⟩ := hkept.recovering _ hm
    cases hthrough with
    | done _ hclean => exact ⟨m, hlo, hhi, hclean.home⟩
  | act _ _ _ _ ha => cases ha

end Recovered

def cutOff (p : ι) : List (Event ι) :=
  [.boot, .recoverWrite, .recovered, .call p, .beginOp p, .logWrite p 5 fun _ => 7, .endOp p, .diskWrite p,
    .diskWrite p, .crash, .boot, .recoverWrite, .recoverWrite, .recovered]

end AdaptiveXv6.LogCrash
