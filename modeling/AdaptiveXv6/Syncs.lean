import AdaptiveXv6.LogCrash
import AdaptiveXv6.LogWaiters
import Mathlib.Tactic.IntervalCases

namespace AdaptiveXv6.Syncs

open Words Writes LogDisk LogSystem System LogSteps LogOrder LogCrash LogWaiters Recovery Function

variable {ι : Type} [DecidableEq ι] {start : Nat} {disk : Disk} {s t : System ι} {e : Event ι} {p q : ι} {b : Nat}

theorem run_steps (r : Run ι start disk) (k : Nat) : r.state (k + 1) = r.state k ∨
    ∃ e, r.event k = some e ∧ Steps start (r.state k) e (r.state (k + 1)) := by
  cases he : r.event k with
  | none => exact .inl (r.state_of_no_event he)
  | some e => exact .inr ⟨e, rfl, steps_of_step (r.step_of_event he)⟩

omit [DecidableEq ι] in
theorem not_busy_commitDone (h : ∃ A, Ordered s A) (hp : s.pc p = .committing []) :
    ¬Busy (commitDone s.log) := by
  obtain ⟨A, hord⟩ := h
  have hzero := hord.alone (hord.committer p _ hp)
  rintro (hc | hout)
  · cases hc
  · exact absurd hout (by rw [commitDone, hzero]; exact Nat.lt_irrefl 0)

theorem keeps_due (hs : Steps start s e t) (hdone : ∀ p, e ≠ .commitDone p) (hup : e ≠ .crash) :
    (Busy s.log → Busy t.log) ∧ (∀ b, b ∈ s.log.lh → b ∈ t.log.lh) ∧ t.log.ncommit = s.log.ncommit := by
  cases hs with
  | crash => exact absurd rfl hup
  | boot | recoverWrite | recovered => exact ⟨id, fun _ => id, rfl⟩
  | act _ _ _ _ ha =>
    cases ha with
    | commitDone p _ => exact absurd rfl (hdone p)
    | call | refused | logPanic | endPanic | diskWrite | syncNow | kick => exact ⟨id, fun _ => id, rfl⟩
    | admitted p l _ hl =>
      obtain ⟨-, -, rfl⟩ := beginOp_some hl
      exact ⟨fun _ => .inr (Nat.succ_pos _), fun _ => id, rfl⟩
    | logWrite p b v l _ hl =>
      obtain ⟨-, -, rfl⟩ := logWrite_ok hl
      exact ⟨id, fun _ ha => mem_absorb.mpr (.inl ha), rfl⟩
    | commit p l _ hl =>
      obtain ⟨-, -, rfl⟩ := endOp_commits hl
      exact ⟨fun _ => .inl rfl, fun _ => id, rfl⟩
    | endOp p l _ hl =>
      obtain ⟨-, hout, rfl⟩ := endOp_leaves hl
      exact ⟨fun _ => .inr (Nat.sub_pos_of_lt hout), fun _ => id, rfl⟩
    | sync _ _ _ | syncTest _ _ _ =>
      rw [await]
      split <;> exact ⟨id, fun _ => id, rfl⟩

theorem run_due (r : Run ι start disk) (l : Nat) :
    (r.event l = some .crash ∨ ∃ x, r.event l = some (.commitDone x)) ∨
      (Busy (r.state l).log → Busy (r.state (l + 1)).log) ∧
        (∀ b, b ∈ (r.state l).log.lh → b ∈ (r.state (l + 1)).log.lh) ∧
        (r.state (l + 1)).log.ncommit = (r.state l).log.ncommit := by
  rcases run_steps r l with hsame | ⟨e, he, hs⟩
  · rw [hsame]
    exact .inr ⟨id, fun _ => id, rfl⟩
  · by_cases hcrash : e = .crash
    · exact .inl (.inl (hcrash ▸ he))
    · by_cases hdone : ∃ x, e = .commitDone x
      · obtain ⟨x, rfl⟩ := hdone
        exact .inl (.inr ⟨x, he⟩)
      · exact .inr (keeps_due hs (fun x hx => hdone ⟨x, hx⟩) hcrash)

def Sound (start : Nat) (s : System ι) : Prop := (∀ b ∈ s.log.lh, Home start b) ∧ s.log.lh.length ≤ LOGBLOCKS

theorem Sound.step (h : Sound start s) (hhome : ∀ p b v, e = .logWrite p b v → Home start b)
    (hs : Steps start s e t) : Sound start t := by
  cases hs with
  | crash => exact ⟨nofun, Nat.zero_le _⟩
  | boot | recoverWrite | recovered => exact h
  | act _ _ _ _ ha =>
    cases ha with
    | call | refused | logPanic | endPanic | diskWrite | syncNow | kick => exact h
    | admitted p l _ hl =>
      obtain ⟨-, -, rfl⟩ := beginOp_some hl
      exact h
    | commit p l _ hl =>
      obtain ⟨-, -, rfl⟩ := endOp_commits hl
      exact h
    | endOp p l _ hl =>
      obtain ⟨-, -, rfl⟩ := endOp_leaves hl
      exact h
    | commitDone p _ => exact ⟨nofun, Nat.zero_le _⟩
    | sync _ _ _ | syncTest _ _ _ =>
      rw [await]
      split <;> exact h
    | logWrite p b v l _ hl =>
      obtain ⟨hroom, -, rfl⟩ := logWrite_ok hl
      refine ⟨?_, ?_⟩
      · intro a ha
        rcases mem_absorb.mp ha with ha | rfl
        · exact h.1 a ha
        · exact hhome p a v rfl
      · change (absorb _ b).length ≤ LOGBLOCKS
        rw [absorb_eq]
        split
        · exact h.2
        · rw [List.length_append]
          exact hroom

theorem run_sound (r : Run ι start disk)
    (hhome : ∀ k p b v, r.event k = some (.logWrite p b v) → Home start b) (k : Nat) : Sound start (r.state k) := by
  induction k with
  | zero =>
    rw [r.start]
    exact ⟨nofun, Nat.zero_le _⟩
  | succ k ih =>
    rcases run_steps r k with hsame | ⟨e, he, hs⟩
    · rw [hsame]
      exact ih
    · refine ih.step ?_ hs
      rintro p b v rfl
      exact hhome k p b v he

structure Committed (r : Run ι start disk) (x : ι) (i c : Nat) : Prop where
  before : i < c
  began : r.event i = some (.endOp x)
  during : ∀ l, i < l → l ≤ c → ∃ todo, (r.state l).pc x = .committing todo
  done : r.event c = some (.commitDone x)

/-- The commit carried block b and left on the disk what the cache had for it. -/
def Installed (r : Run ι start disk) (i c b : Nat) : Prop :=
  b ∈ (r.state i).log.lh ∧
    (r.state (c + 1)).disk b = contents (r.state i).disk (r.state i).cache b

/-- The operation of q that ends at position j logged block b. -/
def Logged (r : Run ι start disk) (q : ι) (j b : Nat) : Prop :=
  ∃ m v, m < j ∧ r.event m = some (.logWrite q b v) ∧ ∀ l, m ≤ l → l ≤ j → (r.state l).pc q = .active

section Commits

theorem enters_commit (hs : Steps start s e t) {todo : List (Nat × Block)} (hp : t.pc p = .committing todo) :
    (∃ todo', s.pc p = .committing todo') ∨ e = .endOp p ∧ todo = commitWrites start s.disk s.cache s.log.lh := by
  have hkeep : ∀ {f : ι → Pc} {q : ι} {pc : Pc}, (∀ todo, pc ≠ .committing todo) →
      update f q pc p = .committing todo → f p = .committing todo := by
    intro f q pc hpc hq
    by_cases hqp : p = q
    · subst hqp
      rw [update_self] at hq
      exact absurd hq (hpc todo)
    · rwa [update_of_ne hqp] at hq
  cases hs with
  | crash => cases hp
  | boot | recoverWrite | recovered => exact .inl ⟨todo, hp⟩
  | act _ _ _ _ ha =>
    cases ha with
    | call | admitted | refused => exact .inl ⟨todo, hkeep (by simp) hp⟩
    | logWrite | logPanic | endPanic | syncNow => exact .inl ⟨todo, hp⟩
    | endOp | commitDone => exact .inl ⟨todo, hkeep (by simp) (wake_eq_committing.mp hp)⟩
    | commit q l _ hl =>
      by_cases hqp : p = q
      · subst hqp
        simp only [goto, update_self, Pc.committing.injEq] at hp
        exact .inr ⟨rfl, hp.symm⟩
      · exact .inl ⟨todo, by simpa [goto, update_of_ne hqp] using hp⟩
    | diskWrite q w ws hq =>
      by_cases hqp : p = q
      · exact .inl ⟨_, hqp ▸ hq⟩
      · exact .inl ⟨todo, by simpa [goto, System.bwrite, update_of_ne hqp] using hp⟩
    | sync q hq _ => exact .inl ⟨todo, ((alike_await s (.inl hq) _).2.2.2.2.2 p).2 todo |>.mp hp⟩
    | syncTest q target hq => exact .inl ⟨todo, ((alike_await s (.inr ⟨_, hq⟩) _).2.2.2.2.2 p).2 todo |>.mp hp⟩
    | kick q =>
      by_cases hqp : p = q
      · subst hqp
        simp only [goto, update_self, wake_eq_committing] at hp
        exact .inl ⟨todo, hp⟩
      · exact .inl ⟨todo, by simpa [goto, update_of_ne hqp] using hp⟩

theorem goes_on (hs : Steps start s e t) (hup : s.mode = .up) (hord : ∃ A, Ordered s A)
    {todo todo' : List (Nat × Block)} (hp : s.pc p = .committing todo) (ht : t.pc p = .committing todo') :
    t.mode = .up ∧ t.log.lh = s.log.lh ∧ (todo' = todo ∧ t.disk = s.disk ∨
      ∃ w, todo = w :: todo' ∧ t.disk = update s.disk w.1 w.2) := by
  obtain ⟨A, hord⟩ := hord
  have hcom := hord.committer p todo hp
  have hactive : ∀ q, s.pc q ≠ .active := fun q hq => (hord.quiet_of_active hq).2 p todo hp
  have hother : ∀ {q : ι} {pc : Pc}, (∀ todo, s.pc q ≠ .committing todo) →
      update s.pc q pc p = .committing todo' → todo' = todo := by
    intro q pc hq hpc
    have hne : p ≠ q := by
      rintro rfl
      exact hq todo hp
    rw [update_of_ne hne, hp] at hpc
    exact (Pc.committing.inj hpc).symm
  have hsame : s.pc p = .committing todo' → todo' = todo :=
    fun h => (Pc.committing.inj (hp.symm.trans h)).symm
  cases hs with
  | crash => cases ht
  | boot hm | recoverWrite _ _ hm | recovered hm =>
    rw [hup] at hm
    cases hm
  | act _ _ _ _ ha =>
    cases ha with
    | call q hq | refused q hq => exact ⟨hup, rfl, .inl ⟨hother (by simp [hq]) ht, rfl⟩⟩
    | admitted q l _ hl =>
      rw [(beginOp_some hl).1] at hcom
      cases hcom
    | logWrite q _ _ _ hq | logPanic q _ _ _ hq | commit q _ hq | endOp q _ hq | endPanic q _ hq =>
      exact absurd hq (hactive q)
    | diskWrite q w ws hq =>
      obtain rfl := hord.unique p q _ _ hp hq
      rw [hp] at hq
      simp only [goto, update_self, Pc.committing.injEq] at ht
      subst ht
      exact ⟨hup, rfl, .inr ⟨w, Pc.committing.inj hq, rfl⟩⟩
    | commitDone q hq =>
      obtain rfl := hord.unique p q _ _ hp hq
      simp [System.wakeup, goto, wake] at ht
    | sync q hq _ =>
      obtain ⟨hlog, hd, -, hm, -, ha⟩ := alike_await s (.inl hq) (i32 (s.log.ncommit + 1))
      exact ⟨hm.trans hup, by rw [hlog], .inl ⟨hsame (((ha p).2 todo').mp ht), hd⟩⟩
    | syncNow q _ _ => exact ⟨hup, rfl, .inl ⟨hsame ht, rfl⟩⟩
    | syncTest q target hq =>
      obtain ⟨hlog, hd, -, hm, -, ha⟩ := alike_await s (.inr ⟨_, hq⟩) target
      exact ⟨hm.trans hup, by rw [hlog], .inl ⟨hsame (((ha p).2 todo').mp ht), hd⟩⟩
    | kick q =>
      refine ⟨hup, rfl, .inl ⟨hsame ?_, rfl⟩⟩
      by_cases hqp : p = q
      · subst hqp
        simpa only [goto, update_self, wake_eq_committing] using ht
      · simpa only [goto, update_of_ne hqp] using ht

def Halfway (start : Nat) (p : ι) (s₀ s : System ι) : Prop :=
  s.mode = .up ∧ s.log.lh = s₀.log.lh ∧ ∃ done todo, s.pc p = .committing todo ∧
    commitWrites start s₀.disk s₀.cache s₀.log.lh = done ++ todo ∧ s.disk = apply s₀.disk done

theorem Halfway.step {s₀ : System ι} (h : Halfway start p s₀ s) (hord : ∃ A, Ordered s A)
    (hs : Steps start s e t) {todo' : List (Nat × Block)} (ht : t.pc p = .committing todo') :
    Halfway start p s₀ t := by
  obtain ⟨hup, hlh, done, todo, hp, hw, hd⟩ := h
  obtain ⟨hup', hlh', hrest⟩ := goes_on hs hup hord hp ht
  refine ⟨hup', hlh'.trans hlh, ?_⟩
  rcases hrest with ⟨rfl, hd'⟩ | ⟨w, rfl, hd'⟩
  · exact ⟨done, todo', ht, hw, hd'.trans hd⟩
  · refine ⟨done ++ [w], todo', ht, by simpa using hw, ?_⟩
    rw [hd', hd, apply_append]
    rfl

theorem Halfway.begins (hs : Steps start s (.endOp p) t) (hp : t.pc p = .committing todo)
    (hno : ∀ todo, s.pc p ≠ .committing todo) : Halfway start p s t := by
  cases hs with
  | act _ _ hup _ ha =>
    cases ha with
    | commit _ l _ hl =>
      obtain ⟨-, -, rfl⟩ := endOp_commits hl
      exact ⟨hup, rfl, [], _, update_self .., rfl, rfl⟩
    | endOp _ l _ hl => simp [System.wakeup, goto, wake] at hp
    | endPanic _ x hq _ => exact absurd hp (hno todo)

theorem apply_commitWrites {d : Disk} {cache : Nat → Option Block} {lh : List Nat}
    (hroom : lh.length ≤ LOGBLOCKS) (hhome : ∀ b ∈ lh, Home start b) (hb : b ∈ lh) :
    apply d (commitWrites start d cache lh) b = contents d cache b := by
  obtain ⟨x, y, hw⟩ := commitWrites_eq d cache (List.ne_nil_of_mem hb) hroom hhome
  have hne : b ≠ start := by
    have := (hhome b hb).2
    omega
  have hmap := congrFun (apply_transaction (apply d (logWrites start (contents d cache) 0 lh ++
    [(start, putHead lh x)])) (contents d cache) lh) b
  have hsplit : commitWrites start d cache lh = (logWrites start (contents d cache) 0 lh ++
      [(start, putHead lh x)]) ++ (lh.map (fun b => (b, contents d cache b)) ++ [(start, putHead [] y)]) := by
    rw [hw]
    simp
  rw [hsplit, apply_append, apply_append, apply, apply, update_of_ne hne, hmap, updated, if_pos hb]

theorem done_of_steps (hs : Steps start s (.commitDone p) t) : s.pc p = .committing [] ∧ t.disk = s.disk ∧
    t.log = commitDone s.log := by
  cases hs with
  | act _ _ _ _ ha =>
    cases ha with
    | commitDone _ hp => exact ⟨hp, rfl, rfl⟩

theorem active_of_endOp (hs : Steps start s (.endOp p) t) : s.pc p = .active := by
  cases hs with
  | act _ _ _ _ ha =>
    cases ha with
    | commit _ _ hp | endOp _ _ hp | endPanic _ _ hp => exact hp

theorem exists_commit (r : Run ι start disk) {j c : Nat} {x : ι}
    (hquiet : ∀ todo, (r.state j).pc x ≠ .committing todo) (hjc : j ≤ c)
    (hc : r.event c = some (.commitDone x)) : ∃ i, j ≤ i ∧ Committed r x i c := by
  obtain ⟨n, rfl⟩ := Nat.exists_eq_add_of_le hjc
  have hstep : ∀ i, (∃ todo, (r.state (j + (i + 1))).pc x = .committing todo) →
      (∃ todo, (r.state (j + i)).pc x = .committing todo) ∨ r.event (j + i) = some (.endOp x) := by
    rintro i ⟨todo, hi⟩
    rcases run_steps r (j + i) with hsame | ⟨e, he, hs⟩
    · exact .inl ⟨todo, by rw [← hsame]; exact hi⟩
    · rcases enters_commit hs hi with hold | ⟨rfl, -⟩
      · exact .inl hold
      · exact .inr he
  obtain ⟨i, hin, hi, hsince⟩ := Runs.holds_since (P := fun i => ∃ todo, (r.state (j + i)).pc x = .committing todo)
    (fun ⟨todo, h⟩ => hquiet todo h) hstep ⟨[], (done_of_steps (steps_of_step (r.step_of_event hc))).1⟩
  refine ⟨j + i, Nat.le_add_right _ _, by omega, hi, ?_, hc⟩
  intro l hil hlc
  obtain ⟨m, rfl⟩ := Nat.exists_eq_add_of_le (show j ≤ l by omega)
  exact hsince m (by omega) (by omega)

theorem Committed.halfway {r : Run ι start disk} {x : ι} {i c : Nat} (h : Committed r x i c) {l : Nat}
    (hil : i < l) (hlc : l ≤ c) : Halfway start x (r.state i) (r.state l) := by
  induction hil with
  | refl =>
    obtain ⟨todo, ht⟩ := h.during (i + 1) (Nat.lt_succ_self i) h.before
    have hs := steps_of_step (r.step_of_event h.began)
    refine Halfway.begins hs ht ?_
    simp [active_of_endOp hs]
  | @step l hil ih =>
    obtain ⟨todo, ht⟩ := h.during (l + 1) (Nat.lt_succ_of_lt hil) hlc
    have hhalf := ih (Nat.le_of_succ_le hlc)
    rcases run_steps r l with hsame | ⟨e, -, hs⟩
    · rw [hsame]
      exact hhalf
    · exact hhalf.step (run_waiting r l).ordered hs ht

theorem Committed.installed {r : Run ι start disk}
    (hhome : ∀ k p b v, r.event k = some (.logWrite p b v) → Home start b) {x : ι} {i c : Nat}
    (h : Committed r x i c) (hb : b ∈ (r.state i).log.lh) : Installed r i c b := by
  obtain ⟨-, -, done, todo, hp, hw, hd⟩ := h.halfway h.before (Nat.le_refl c)
  obtain ⟨hhome, hroom⟩ := run_sound r hhome i
  obtain ⟨hlast, hdone, -⟩ := done_of_steps (steps_of_step (r.step_of_event h.done))
  rw [hlast, Pc.committing.injEq] at hp
  rw [← hp, List.append_nil] at hw
  refine ⟨hb, ?_⟩
  rw [hdone, hd, ← hw]
  exact apply_commitWrites hroom hhome hb

end Commits

section Returning

variable {r : Run ι start disk} {i j k : Nat}

def Awaiting (r : Run ι start disk) (q : ι) (j l : Nat) : Prop :=
  Busy (r.state l).log ∧ ∀ b, Logged r q j b → b ∈ (r.state l).log.lh

theorem panicked_kept (hs : Steps start s e t) (hp : s.panicked ≠ none) (hq : t.pc q = .active) :
    t.panicked ≠ none := by
  cases hs with
  | crash => cases hq
  | boot | recoverWrite | recovered => exact hp
  | act _ _ _ hok _ => exact absurd hok hp

theorem logged_kept (hlog : Logged r q j b) (hend : r.event j = some (.endOp q)) : b ∈ (r.state j).log.lh := by
  obtain ⟨m, v, hmj, hm, hactive⟩ := hlog
  have hkeeps : ∀ l, m < l → l ≤ j → b ∈ (r.state l).log.lh ∨ (r.state l).panicked ≠ none := by
    intro l hml
    induction hml with
    | refl =>
      intro _
      have hs := steps_of_step (r.step_of_event hm)
      generalize r.state (m + 1) = t at hs
      cases hs with
      | act _ _ _ _ ha =>
        cases ha with
        | logWrite _ _ _ l _ hl =>
          obtain ⟨-, -, rfl⟩ := logWrite_ok hl
          exact .inl (mem_absorb.mpr (.inr rfl))
        | logPanic => exact .inr (by simp)
    | @step l hml ih =>
      intro hlj
      have hlt : m < l := hml
      have hq := hactive (l + 1) (by omega) hlj
      obtain ⟨A, hord⟩ := (run_waiting r l).ordered
      have hquiet := (hord.quiet_of_active (hactive l (by omega) (by omega))).2
      rcases run_steps r l with hsame | ⟨e, -, hs⟩
      · rw [hsame]
        exact ih (by omega)
      · refine (ih (by omega)).imp ?_ (fun hp => panicked_kept hs hp hq)
        refine (keeps_due hs ?_ ?_).2.1 b
        · rintro x rfl
          exact hquiet x _ (done_of_steps hs).1
        · rintro rfl
          generalize r.state (l + 1) = t at hs hq
          cases hs with
          | crash => cases hq
          | act _ _ _ _ ha => cases ha
  rcases hkeeps j hmj (Nat.le_refl j) with hb | hp
  · exact hb
  · have hs := steps_of_step (r.step_of_event hend)
    generalize r.state (j + 1) = t at hs
    cases hs with
    | act _ _ _ hok _ => exact absurd hok hp

theorem exists_covering (hhome : ∀ k p b v, r.event k = some (.logWrite p b v) → Home start b)
    (hend : r.event j = some (.endOp q)) (hji : j < i) (hup : ∀ l, j ≤ l → l < i → r.event l ≠ some .crash)
    (hrest : ¬Busy (r.state i).log) :
    ∃ x m c, j ≤ m ∧ c < i ∧ Committed r x m c ∧ ∀ b, Logged r q j b → Installed r m c b := by
  have hs := steps_of_step (r.step_of_event hend)
  obtain ⟨A, hord⟩ := (run_waiting r j).ordered
  have hquiet := hord.quiet_of_active (active_of_endOp hs)
  have hfirst : Awaiting r q j (j + 1) := by
    have hlogged : ∀ b, Logged r q j b → b ∈ (r.state j).log.lh := fun b hb => logged_kept hb hend
    rw [Awaiting]
    generalize r.state (j + 1) = t at hs
    cases hs with
    | act _ _ _ _ ha =>
      cases ha with
      | commit _ l _ hl =>
        obtain ⟨-, -, rfl⟩ := endOp_commits hl
        exact ⟨.inl rfl, hlogged⟩
      | endOp _ l _ hl =>
        obtain ⟨-, hout, rfl⟩ := endOp_leaves hl
        exact ⟨.inr (Nat.sub_pos_of_lt hout), hlogged⟩
      | endPanic _ x _ hl =>
        rw [endOp_error hl] at hquiet
        cases hquiet.1
  have hstep : ∀ l, j + 1 ≤ l → Awaiting r q j l → Awaiting r q j (l + 1) ∨
      (r.event l = some .crash ∨ ∃ x, r.event l = some (.commitDone x)) := by
    intro l _ hl
    rcases run_due r l with hend | ⟨hbusy, hlh, -⟩
    · exact .inr hend
    · exact .inl ⟨hbusy hl.1, fun b hb => hlh b (hl.2 b hb)⟩
  rcases Runs.keeps_until hfirst hstep hji with hall | ⟨c, hjc, hci, hkept, hc⟩
  · exact absurd (hall i hji (Nat.le_refl i)).1 hrest
  · rcases hc with hcrash | ⟨x, hc⟩
    · exact absurd hcrash (hup c (by omega) hci)
    · obtain ⟨m, hjm, hcom⟩ := exists_commit r (hquiet.2 x) (by omega) hc
      refine ⟨x, m, c, hjm, hci, hcom, fun b hb => hcom.installed hhome ?_⟩
      rcases Nat.eq_or_lt_of_le hjm with rfl | hlt
      · exact logged_kept hb hend
      · exact (hkept m hlt (Nat.le_of_lt hcom.before)).2 b hb

structure Returns (r : Run ι start disk) (p : ι) (i k : Nat) : Prop where
  call : r.event i = some (.sync p)
  later : i ≤ k
  within : ∀ l, i < l → l ≤ k → (r.state l).pc p ≠ .idle
  back : (r.state (k + 1)).pc p = .idle

def inSync (target : Int) (pc : Pc) : Prop := pc = .syncLoop target ∨ pc = .syncSleep target

theorem inSync_wake {target : Int} {pc : Pc} (h : inSync target pc) : inSync target (wake pc) := by
  rcases h with rfl | rfl <;> exact .inl rfl

theorem sync_step (hs : Steps start s e t) (hup : e ≠ .crash) {target : Int} (hp : inSync target (s.pc p)) :
    inSync target (t.pc p) ∨ ¬s.log.ncommit < target := by
  have hother : ∀ {q : ι} {pc pc' : Pc}, s.pc q = pc → ¬inSync target pc →
      inSync target (update s.pc q pc' p) := by
    intro q pc pc' hq hpc
    have hne : p ≠ q := by
      rintro rfl
      exact hpc (hq ▸ hp)
    rw [update_of_ne hne]
    exact hp
  cases hs with
  | crash => exact absurd rfl hup
  | boot | recoverWrite | recovered => exact .inl hp
  | act _ _ _ _ ha =>
    cases ha with
    | logWrite | logPanic | endPanic | syncNow => exact .inl hp
    | call q hq | admitted q _ hq | refused q hq | commit q _ hq | diskWrite q _ _ hq =>
      exact .inl (hother hq (by simp [inSync]))
    | endOp q _ hq | commitDone q hq => exact .inl (inSync_wake (hother hq (by simp [inSync])))
    | sync q hq _ =>
      left
      rw [await]
      split <;> exact hother hq (by simp [inSync])
    | syncTest q target' hq =>
      by_cases hqp : p = q
      · subst hqp
        have heq : target = target' := by simpa [inSync, hq, eq_comm] using hp
        subst heq
        rw [await]
        split
        · exact .inl (.inr (update_self ..))
        · exact .inr ‹_›
      · left
        rw [await]
        split <;> simpa only [goto, update_of_ne hqp] using hp
    | kick q =>
      left
      by_cases hqp : p = q
      · subst hqp
        simpa only [goto, update_self] using inSync_wake hp
      · simpa only [goto, update_of_ne hqp] using hp

theorem exists_done (hret : Returns r p i k) (hup : ∀ l, i ≤ l → l ≤ k → r.event l ≠ some .crash)
    (hbusy : Busy (r.state i).log) (hn : (r.state i).log.ncommit < 2 ^ 31 - 1) :
    ∃ c x, i ≤ c ∧ c < k ∧ r.event c = some (.commitDone x) := by
  have hrange := (run_waiting r i).range
  have htarget : i32 ((r.state i).log.ncommit + 1) = (r.state i).log.ncommit + 1 :=
    i32_of_range (by omega) (by omega)
  have hfirst : (r.state (i + 1)).pc p = .syncSleep ((r.state i).log.ncommit + 1) := by
    have hs := steps_of_step (r.step_of_event hret.call)
    generalize r.state (i + 1) = t at hs
    cases hs with
    | act _ _ _ _ ha =>
      cases ha with
      | sync _ _ _ =>
        rw [htarget, await, if_pos (by omega)]
        exact update_self ..
      | syncNow _ _ hb => exact absurd hbusy hb
  have hleave : ∀ l, i + 1 ≤ l → inSync ((r.state i).log.ncommit + 1) ((r.state l).pc p) →
      inSync ((r.state i).log.ncommit + 1) ((r.state (l + 1)).pc p) ∨
        (r.event l = some .crash ∨ ¬(r.state l).log.ncommit < (r.state i).log.ncommit + 1) := by
    intro l _ hl
    rcases run_steps r l with hsame | ⟨e, he, hs⟩
    · left
      rw [hsame]
      exact hl
    · by_cases hcrash : e = .crash
      · exact .inr (.inl (hcrash ▸ he))
      · exact (sync_step hs hcrash hl).imp_right .inr
  have hcount : ∀ l, i ≤ l → (r.state l).log.ncommit = (r.state i).log.ncommit →
      (r.state (l + 1)).log.ncommit = (r.state i).log.ncommit ∨
        (r.event l = some .crash ∨ ∃ x, r.event l = some (.commitDone x)) := by
    exact fun l _ hl => (run_due r l).symm.imp_left fun hkeeps => hkeeps.2.2.trans hl
  have hlater : i + 1 ≤ k + 1 := Nat.succ_le_succ hret.later
  rcases Runs.keeps_until (.inr hfirst) hleave hlater with hall | ⟨l, hil, hlk, -, hl⟩
  · have hlast := hall (k + 1) hlater (Nat.le_refl _)
    rw [hret.back] at hlast
    rcases hlast with h | h <;> cases h
  · rcases hl with hcrash | hl
    · exact absurd hcrash (hup l (by omega) (by omega))
    · rcases Runs.keeps_until (P := fun l => (r.state l).log.ncommit = (r.state i).log.ncommit) rfl hcount
        (show i ≤ l by omega) with hall | ⟨c, hic, hcl, -, hc⟩
      · have := hall l (by omega) (Nat.le_refl l)
        omega
      · rcases hc with hcrash | ⟨x, hc⟩
        · exact absurd hcrash (hup c hic (by omega))
        · exact ⟨c, x, hic, by omega, hc⟩

end Returning

/-- When sys_sync() returns, every operation that ended before the call is covered by a completed commit,
unless the call found the counter at its maximum. -/
theorem sync_durable (r : Run ι start disk)
    (hhome : ∀ k p b v, r.event k = some (.logWrite p b v) → Home start b) {p q : ι} {i j k : Nat}
    (hret : Returns r p i k) (hend : r.event j = some (.endOp q)) (hji : j < i)
    (hup : ∀ l, j ≤ l → l ≤ k → r.event l ≠ some .crash) (hn : (r.state i).log.ncommit < 2 ^ 31 - 1) :
    ∃ x m c, j ≤ m ∧ c ≤ k ∧ Committed r x m c ∧ ∀ b, Logged r q j b → Installed r m c b := by
  by_cases hbusy : Busy (r.state i).log
  · have hup' : ∀ l, i ≤ l → l ≤ k → r.event l ≠ some .crash := fun l hl => hup l (by omega)
    obtain ⟨c, x, hic, hck, hc⟩ := exists_done hret hup' hbusy hn
    have hrest : ¬Busy (r.state (c + 1)).log := by
      obtain ⟨hp, -, hlog⟩ := done_of_steps (steps_of_step (r.step_of_event hc))
      rw [hlog]
      exact not_busy_commitDone (run_waiting r c).ordered hp
    obtain ⟨x, m, c', hjm, hc', hcom⟩ := exists_covering hhome hend (show j < c + 1 by omega)
      (fun l hjl hlc => hup l hjl (by omega)) hrest
    exact ⟨x, m, c', hjm, by omega, hcom⟩
  · obtain ⟨x, m, c, hjm, hci, hcom⟩ := exists_covering hhome hend hji
      (fun l hjl hli => hup l hjl (by have := hret.later; omega)) hbusy
    exact ⟨x, m, c, hjm, by have := hret.later; omega, hcom⟩

def waitsForBoth (p q u : ι) : List (Event ι) :=
  [.boot, .recoverWrite, .recovered, .call p, .beginOp p, .call q, .beginOp q, .logWrite p 5 fun _ => 7, .endOp p,
    .sync u, .endOp q, .diskWrite q, .diskWrite q, .diskWrite q, .diskWrite q, .commitDone q, .syncTest u]

def isIdle : Pc → Bool
  | .idle => true
  | _ => false

def isActive : Pc → Bool
  | .active => true
  | _ => false

theorem eq_idle {pc : Pc} : isIdle pc = true ↔ pc = .idle := by cases pc <;> simp [isIdle]

theorem eq_active {pc : Pc} : isActive pc = true ↔ pc = .active := by cases pc <;> simp [isActive]

theorem sync_durable_waits : ∃ r : Run (Fin 3) 1000 fun _ _ => 0, Returns r 2 9 16 ∧
    ∃ x m c, 8 ≤ m ∧ c ≤ 16 ∧ Committed r x m c ∧ Installed r m c 5 := by
  have hexec : (Runs.exec (System.step 1000) (off fun _ _ => 0) (waitsForBoth (0 : Fin 3) 1 2)).isSome = true := by
    decide +kernel
  obtain ⟨t, ht⟩ := Option.isSome_iff_exists.mp hexec
  obtain ⟨r, -, hev⟩ := Runs.exists_script ht
  have hret : Returns r 2 9 16 := by
    refine ⟨hev 9, by decide, ?_, ?_⟩
    · intro l hl hl' hp
      have hidle : isIdle ((r.state l).pc 2) = false := by
        interval_cases l <;> exact Runs.script_eq hev (f := fun s => isIdle (s.pc 2)) (by decide +kernel)
      rw [eq_idle.mpr hp] at hidle
      cases hidle
    · exact eq_idle.mp (Runs.script_eq hev (f := fun s => isIdle (s.pc 2)) (by decide +kernel))
  have hlogged : Logged r 0 8 5 := by
    refine ⟨7, fun _ => 7, by decide, hev 7, fun l hl hl' => eq_active.mp ?_⟩
    interval_cases l <;> exact Runs.script_eq hev (f := fun s => isActive (s.pc 0)) (by decide +kernel)
  have hhome : ∀ k p b v, r.event k = some (.logWrite p b v) → Home 1000 b := by
    intro k p b v hk
    rw [hev] at hk
    have hmem := List.mem_of_getElem? hk
    simp only [waitsForBoth, List.mem_cons, List.not_mem_nil, reduceCtorEq, false_or, or_false,
      Event.logWrite.injEq] at hmem
    rw [hmem.2.1]
    exact ⟨by decide, .inl (by decide)⟩
  have hup : ∀ l, 8 ≤ l → l ≤ 16 → r.event l ≠ some .crash := by
    intro l hl hl'
    rw [hev]
    interval_cases l <;> simp [waitsForBoth]
  have hn : (r.state 9).log.ncommit = 0 := Runs.script_eq hev (f := fun s => s.log.ncommit) (by decide +kernel)
  obtain ⟨x, m, c, hm, hc, hcom, hinst⟩ := sync_durable r hhome hret (hev 8) (by decide) hup (by rw [hn]; decide)
  exact ⟨r, hret, x, m, c, hm, hc, hcom, hinst 5 hlogged⟩

/-- With the counter at its maximum sys_sync() returns at once, although the commit of a finished operation has
only begun: the block that it logged is not on the disk. -/
theorem sync_not_durable : ∃ (r : Run (Fin 2) 1000 fun _ _ => 0) (i j k : Nat) (v : Block), Returns r 1 i k ∧ j < i ∧
    r.event j = some (.endOp 0) ∧ Logged r 0 j 5 ∧ (∀ l, j ≤ l → l ≤ k → r.event l ≠ some .crash) ∧
    (r.state j).cache 5 = some v ∧ (r.state (k + 1)).disk 5 ≠ v ∧
    ¬∃ x m c, j ≤ m ∧ c ≤ k ∧ Committed r x m c ∧ Installed r m c 5 := by
  obtain ⟨d, c, hpath⟩ := path_atRest (ι := Fin 2) 1000 0 (2 ^ 31 - 1) (by decide)
  let v : Block := fun i => d 5 i + 1
  let es : List (Event (Fin 2)) := [.call 0, .beginOp 0, .logWrite 0 5 v, .endOp 0, .sync 1]
  obtain ⟨t, ht, hidle, hdisk⟩ : ∃ t, Runs.exec (System.step 1000) (atRest d c (2 ^ 31 - 1 : Nat)) es = some t ∧
      t.pc 1 = .idle ∧ t.disk = d := ⟨_, rfl, rfl, rfl⟩
  obtain ⟨r₁, hlast, hev₁⟩ := Runs.exists_script ht
  obtain ⟨r, n, hst, hev, -⟩ := hpath.exists_run r₁
  have hevent : ∀ k, r.event (n + k) = es[k]? := fun k => (hev k).trans (hev₁ k)
  have hend : r.state (n + 4 + 1) = t := (hst 5).trans hlast
  have hactive : ∀ l, n + 2 ≤ l → l ≤ n + 3 → (r.state l).pc 0 = .active := by
    intro l hl hl'
    rcases (by omega : l = n + 2 ∨ l = n + 3) with rfl | rfl
    · rw [hst]
      exact Runs.script_eq hev₁ (f := fun s => s.pc 0) rfl
    · rw [hst]
      exact Runs.script_eq hev₁ (f := fun s => s.pc 0) rfl
  refine ⟨r, n + 4, n + 3, n + 4, v, ⟨hevent 4, Nat.le_refl _, fun l hl hl' => by omega, by rw [hend, hidle]⟩,
    by omega, hevent 3, ⟨n + 2, v, by omega, hevent 2, hactive⟩, ?_, ?_, ?_, ?_⟩
  · intro l hl hl'
    rcases (by omega : l = n + 3 ∨ l = n + 4) with rfl | rfl <;> rw [hevent] <;> simp [es]
  · rw [hst 3]
    exact Runs.script_eq hev₁ (f := fun s => s.cache 5) rfl
  · rw [hend, hdisk]
    intro hv
    simpa [v] using congrFun hv ⟨0, by decide⟩
  · rintro ⟨x, m, c, hm, hc, hcom, -⟩
    have hlt := hcom.before
    have hdone := hcom.done
    rw [show c = n + 4 by omega, hevent] at hdone
    simp [es] at hdone

end AdaptiveXv6.Syncs
