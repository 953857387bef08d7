import AdaptiveXv6.Syncs

namespace AdaptiveXv6.Buffers

open LogDisk LogSystem System LogSteps LogOrder LogWaiters Syncs Function

/-- Each event takes and releases the locks it needs. A buffer that writei() gives back after a failed
either_copyin() holds v and is not logged. -/
inductive Event (ι : Type)
  | log (e : LogSystem.Event ι)
  | bread (b : Nat)
  | recycle (b : Nat)
  | copyFails (p : ι) (b : Nat) (v : Block)

variable {ι : Type} [DecidableEq ι] {start : Nat} {disk : Disk} {s t : System ι} {e : Event ι} {p : ι}

def held (s : System ι) (b : Nat) : Block := contents s.disk s.cache b

/-- A pinned buffer is not recycled: its reference count is not zero. -/
def step (start : Nat) (s : System ι) : Event ι → Option (System ι)
  | .log e => s.step start e
  | .bread b => some { s with cache := update s.cache b (some (held s b)) }
  | .recycle b => if b ∈ s.log.lh then none else some { s with cache := update s.cache b none }
  | .copyFails p b v => match s.mode, s.panicked, s.pc p with
    | .up, none, .active => some { s with cache := update s.cache b (some v) }
    | _, _, _ => none

abbrev Run (ι : Type) [DecidableEq ι] (start : Nat) (disk : Disk) := Runs.Run (step (ι := ι) start) (off disk)

/-- A buffer holds what its block has on disk. -/
def Matches (s : System ι) (b : Nat) : Prop := ∀ v, s.cache b = some v → v = s.disk b

/-- Only logged blocks differ from the disk, and a commit takes them there. -/
structure Coherent (start : Nat) (s : System ι) : Prop where
  ordered : ∃ A, Ordered s A
  sound : Sound start s
  agree : ∀ b, b ∉ s.log.lh → Matches s b
  commit : ∀ p todo, s.pc p = .committing todo → ∀ b ∈ s.log.lh, Matches s b ∨ b ∈ todo.map Prod.fst
  last : ∀ p todo w, s.pc p = .committing todo → todo.getLast? = some w → w.1 = start

namespace Coherent

omit [DecidableEq ι] in
theorem off (start : Nat) (disk : Disk) : Coherent start (LogSystem.off (ι := ι) disk) where
  ordered := ⟨∅, Ordered.off disk⟩
  sound := ⟨nofun, Nat.zero_le _⟩
  agree := nofun
  commit := nofun
  last := nofun

omit [DecidableEq ι] in
theorem of_cache (h : Coherent start s) (hord : ∃ A, Ordered t A) (hlog : t.log.lh = s.log.lh)
    (hpc : ∀ p todo, t.pc p = .committing todo → s.pc p = .committing todo)
    (hkeep : ∀ b, Matches s b → Matches t b) : Coherent start t where
  ordered := hord
  sound := by
    rw [Sound, hlog]
    exact h.sound
  agree b hb := hkeep b (h.agree b (hlog ▸ hb))
  commit p todo hp b hb := (h.commit p todo (hpc p todo hp) b (hlog ▸ hb)).imp_left (hkeep b)
  last p todo w hp := h.last p todo w (hpc p todo hp)

omit [DecidableEq ι] in
theorem matches_bwrite (w : Nat × Block) {b : Nat} (h : b = w.1 ∨ Matches s b) : Matches (s.bwrite w) b := by
  intro v hv
  by_cases hb : b = w.1
  · subst hb
    simp only [System.bwrite, update_self, Option.some.injEq] at hv ⊢
    exact hv.symm
  · simp only [System.bwrite, update_of_ne hb] at hv ⊢
    exact (h.resolve_left hb) v hv

variable (h : Coherent start s)

include h

theorem diskWrite (hord : ∃ A, Ordered ((s.bwrite w).goto p (.committing ws)) A)
    (hp : s.pc p = .committing (w :: ws)) : Coherent start ((s.bwrite w).goto p (.committing ws)) := by
  obtain ⟨A, hA⟩ := h.ordered
  have honly : ∀ q todo, update s.pc p (.committing ws) q = .committing todo → q = p ∧ todo = ws := by
    intro q todo hq
    by_cases hqp : q = p
    · subst hqp
      rw [update_self] at hq
      exact ⟨rfl, (Pc.committing.inj hq).symm⟩
    · rw [update_of_ne hqp] at hq
      exact absurd (hA.unique q p _ _ hq hp) hqp
  refine ⟨hord, h.sound, ?_, ?_, ?_⟩
  · exact fun b hb => matches_bwrite w (.inr (h.agree b hb))
  · intro q todo hq b hb
    obtain ⟨rfl, rfl⟩ := honly q todo hq
    rcases h.commit q _ hp b hb with hm | hm
    · exact .inl (matches_bwrite w (.inr hm))
    · rcases List.mem_cons.mp hm with rfl | hm
      · exact .inl (matches_bwrite w (.inl rfl))
      · exact .inr hm
  · intro q todo w' hq hlast
    obtain ⟨rfl, rfl⟩ := honly q todo hq
    refine h.last q _ w' hp ?_
    cases todo with
    | nil => cases hlast
    | cons v vs => rw [List.getLast?_cons_cons, hlast]

theorem commit_starts (hord : ∃ A, Ordered t A) (hp : s.pc p = .active)
    (hpc : t.pc = update s.pc p (.committing (commitWrites start s.disk s.cache s.log.lh)))
    (hlog : t.log.lh = s.log.lh) (hd : t.disk = s.disk) (hc : t.cache = s.cache) : Coherent start t := by
  obtain ⟨A, hA⟩ := h.ordered
  have hquiet := (hA.quiet_of_active hp).2
  have honly : ∀ q todo, t.pc q = .committing todo → todo = commitWrites start s.disk s.cache s.log.lh := by
    intro q todo hq
    rw [hpc] at hq
    by_cases hqp : q = p
    · subst hqp
      rw [update_self] at hq
      exact (Pc.committing.inj hq).symm
    · rw [update_of_ne hqp] at hq
      exact absurd hq (hquiet q todo)
  have hsame : ∀ b, Matches s b → Matches t b := by
    intro b hb
    rw [Matches, hd, hc]
    exact hb
  refine ⟨hord, by rw [Sound, hlog]; exact h.sound, fun b hb => hsame b (h.agree b (hlog ▸ hb)), ?_, ?_⟩
  · intro q todo hq b hb
    rw [hlog] at hb
    obtain ⟨x, y, hw⟩ := commitWrites_eq s.disk s.cache (List.ne_nil_of_mem hb) h.sound.2 h.sound.1
    rw [honly q todo hq, hw]
    right
    simp [hb]
  · intro q todo w hq hlast
    rw [honly q todo hq] at hlast
    by_cases hne : s.log.lh = []
    · rw [hne, commitWrites_nil] at hlast
      cases hlast
    · obtain ⟨x, y, hw⟩ := commitWrites_eq s.disk s.cache hne h.sound.2 h.sound.1
      rw [hw] at hlast
      simp only [List.getLast?_append, List.getLast?_cons, List.getLast?_nil, Option.getD_none, Option.getD_some,
        Option.some_or, Option.some.injEq] at hlast
      rw [← hlast]

omit [DecidableEq ι] in
theorem logWrite (hord : ∃ A, Ordered t A) (hp : s.pc p = .active) {b : Nat} {v : Block}
    (hsound : Sound start t) (hpc : t.pc = s.pc) (hlog : t.log.lh = absorb s.log.lh b) (hd : t.disk = s.disk)
    (hc : t.cache = update s.cache b (some v)) : Coherent start t := by
  obtain ⟨A, hA⟩ := h.ordered
  have hquiet := (hA.quiet_of_active hp).2
  refine ⟨hord, hsound, ?_, ?_, ?_⟩
  · intro a ha w hw
    rw [hlog, mem_absorb, not_or] at ha
    rw [hc, update_of_ne ha.2] at hw
    rw [hd]
    exact h.agree a ha.1 w hw
  · intro q todo hq
    exact absurd (hpc ▸ hq) (hquiet q todo)
  · intro q todo _ hq
    exact absurd (hpc ▸ hq) (hquiet q todo)

omit [DecidableEq ι] in
theorem commitDone (hord : ∃ A, Ordered t A) (hp : s.pc p = .committing [])
    (hlog : t.log.lh = []) (hpc : ∀ q todo, t.pc q = .committing todo → s.pc q = .committing todo)
    (hd : t.disk = s.disk) (hc : t.cache = s.cache) : Coherent start t := by
  have hall : ∀ b, Matches t b := by
    intro b
    rw [Matches, hd, hc]
    by_cases hb : b ∈ s.log.lh
    · rcases h.commit p [] hp b hb with hm | hm
      · exact hm
      · cases hm
    · exact h.agree b hb
  refine ⟨hord, ?_, fun b _ => hall b, fun _ _ _ b _ => .inl (hall b), fun q todo w hq => h.last q todo w (hpc q todo hq)⟩
  rw [Sound, hlog]
  exact ⟨nofun, Nat.zero_le _⟩

theorem acts {e : LogSystem.Event ι}
    (hhome : ∀ p b v, e = .logWrite p b v → Home start b) (hup : s.mode = .up) (hok : s.panicked = none)
    (ha : Acts start s e t) : Coherent start t := by
  obtain ⟨A, hA⟩ := h.ordered
  have hord := hA.acts ha
  have hsound := h.sound.step hhome (.act e t hup hok ha)
  have hmoves : ∀ {q : ι} {pc : Pc}, (∀ todo, pc ≠ .committing todo) → ∀ p todo,
      update s.pc q pc p = .committing todo → s.pc p = .committing todo := by
    intro q pc hpc p todo hp
    by_cases hpq : p = q
    · subst hpq
      rw [update_self] at hp
      exact absurd hp (hpc todo)
    · rwa [update_of_ne hpq] at hp
  cases ha with
  | call p hp | refused p hp => exact h.of_cache hord rfl (hmoves (by simp)) (fun _ => id)
  | admitted p l hp hl =>
    obtain ⟨-, -, rfl⟩ := beginOp_some hl
    exact h.of_cache hord rfl (hmoves (by simp)) (fun _ => id)
  | logWrite p b v l hp hl =>
    obtain ⟨-, -, rfl⟩ := logWrite_ok hl
    exact h.logWrite hord hp hsound rfl rfl rfl rfl
  | logPanic p b v x hp hl => exact h.of_cache hord rfl (fun _ _ => id) (fun _ => id)
  | commit p l hp hl =>
    obtain ⟨-, -, rfl⟩ := endOp_commits hl
    exact h.commit_starts hord hp rfl rfl rfl rfl
  | endOp p l hp hl =>
    obtain ⟨-, -, rfl⟩ := endOp_leaves hl
    exact h.of_cache hord rfl (fun q todo hq => hmoves (q := p) (show ∀ todo, Pc.idle ≠ .committing todo by simp) q todo
      (wake_eq_committing.mp hq)) (fun _ => id)
  | endPanic p x hp hl => exact h.of_cache hord rfl (fun _ _ => id) (fun _ => id)
  | diskWrite p w ws hp => exact h.diskWrite hord hp
  | commitDone p hp =>
    exact h.commitDone hord hp rfl (fun q todo hq => hmoves (q := p) (show ∀ todo, Pc.idle ≠ .committing todo by simp)
      q todo (wake_eq_committing.mp hq)) rfl rfl
  | sync p hp hb =>
    obtain ⟨hlog, hd, hc, -, -, ha⟩ := alike_await s (.inl hp) (Words.i32 (s.log.ncommit + 1))
    refine h.of_cache hord (by rw [hlog]) (fun q todo hq => ((ha q).2 todo).mp hq) fun b hb => ?_
    rw [Matches, hd, hc]
    exact hb
  | syncNow p hp hb => exact h
  | syncTest p target hp =>
    obtain ⟨hlog, hd, hc, -, -, ha⟩ := alike_await s (.inr ⟨target, hp⟩) target
    refine h.of_cache hord (by rw [hlog]) (fun q todo hq => ((ha q).2 todo).mp hq) fun b hb => ?_
    rw [Matches, hd, hc]
    exact hb
  | kick p =>
    refine h.of_cache hord rfl ?_ (fun _ => id)
    intro q todo hq
    by_cases hqp : q = p
    · subst hqp
      simpa only [goto, update_self, wake_eq_committing] using hq
    · simpa only [goto, update_of_ne hqp] using hq

omit [DecidableEq ι] in
theorem buffer {b : Nat} {o : Option Block} (ho : ∀ v, o = some v → Matches s b → v = s.disk b) :
    Coherent start { s with cache := update s.cache b o } := by
  refine h.of_cache (h.ordered.imp fun _ ho => ho.same rfl rfl) rfl (fun _ _ => id) ?_
  intro a ha v hv
  by_cases hab : a = b
  · subst hab
    simp only [update_self] at hv
    exact ho v hv ha
  · simp only [update_of_ne hab] at hv
    exact ha v hv

theorem step (hhome : ∀ p b v, e = .log (.logWrite p b v) → Home start b)
    (hcopy : ∀ p b v, e = .copyFails p b v → v = held s b) (he : Buffers.step start s e = some t) :
    Coherent start t := by
  have hheld : ∀ b, Matches s b → held s b = s.disk b := by
    intro b hb
    rw [held, contents]
    cases hc : s.cache b with
    | none => rfl
    | some v => exact hb v hc
  cases e with
  | log e =>
    cases steps_of_step he with
    | crash => exact off start s.disk
    | boot hm | recovered hm =>
      exact h.of_cache (h.ordered.imp fun _ ho => ho.same rfl rfl) rfl (fun _ _ => id) (fun _ => id)
    | recoverWrite w ws hm =>
      exact h.of_cache (h.ordered.imp fun _ ho => ho.same rfl rfl) rfl (fun _ _ => id)
        (fun b hb => matches_bwrite w (.inr hb))
    | act _ _ hup hok ha => exact h.acts (fun p b v hv => hhome p b v (by rw [hv])) hup hok ha
  | bread b =>
    cases he
    refine h.buffer ?_
    intro v hv hm
    cases hv
    exact hheld b hm
  | recycle b =>
    simp only [Buffers.step] at he
    split at he
    · cases he
    · cases he
      exact h.buffer nofun
  | copyFails p b v =>
    simp only [Buffers.step] at he
    split at he
    · cases he
      obtain rfl := hcopy p b v rfl
      refine h.buffer ?_
      intro v hv hm
      cases hv
      exact hheld b hm
    · cases he

end Coherent

theorem run_coherent (r : Run ι start disk)
    (hhome : ∀ k p b v, r.event k = some (.log (.logWrite p b v)) → Home start b)
    (hcopy : ∀ k p b v, r.event k = some (.copyFails p b v) → v = held (r.state k) b) (k : Nat) :
    Coherent start (r.state k) := by
  induction k with
  | zero =>
    rw [r.start]
    exact Coherent.off start disk
  | succ k ih =>
    cases he : r.event k with
    | none =>
      rw [r.state_of_no_event he]
      exact ih
    | some e =>
      refine ih.step ?_ ?_ (r.step_of_event he)
      · rintro p b v rfl
        exact hhome k p b v he
      · rintro p b v rfl
        exact hcopy k p b v he

omit [DecidableEq ι] in
theorem Coherent.agrees (h : Coherent start s) {n b : Nat} (hn : Counted s n) (hb : b ∉ s.log.lh.take n) :
    Matches s b := by
  rcases hn with rfl | ⟨rfl, p, todo, hp, htodo⟩
  · rw [List.take_length] at hb
    exact h.agree b hb
  · by_cases hlog : b ∈ s.log.lh
    · rcases h.commit p todo hp b hlog with hm | hm
      · exact hm
      · -- what is left is the last write, and that goes to the header
        have hhome := (h.sound.1 b hlog).2
        match todo, htodo with
        | [], _ => cases hm
        | [w], _ =>
          have hw := h.last p [w] w hp rfl
          simp only [List.map_cons, List.map_nil, List.mem_singleton] at hm
          omega
    · exact h.agree b hlog

end AdaptiveXv6.Buffers
