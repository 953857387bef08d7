import AdaptiveXv6.Pipes

namespace AdaptiveXv6.PipeWakeups

open Words Bytes Runs Pipes Function

variable {P : Type} {s t : Pipe P} {e : Event P} {p q : P} {x : Place}

/-- Asleep in piperead(). -/
def ReadSleeps (s : Pipe P) (p : P) : Prop := ∃ n, s.place p = .readSleep n

def WriteSleeps (s : Pipe P) (p : P) : Prop := ∃ n i, s.place p = .writeSleep n i

/-- In the loop of pipewrite(), with pi->lock. -/
def Writes (s : Pipe P) (p : P) : Prop := ∃ n i, s.place p = .writeTest n i ∨ s.place p = .writeByte n i

def Copies (s : Pipe P) (p : P) : Prop := ∃ n i, s.place p = .readByte n i

/-- Who sleeps has a reason, or the lock's holder has still to call wakeup(). -/
structure Watched (s : Pipe P) : Prop where
  locked : Locked s
  passed : ∀ p n i, s.place p = .writeByte n i → s.readopen = true ∧ ∀ q, ReadSleeps s q → s.killed p = false
  waits : ∀ p n, s.place p = .readWait n → s.empty ∧ s.writeopen = true
  readers : ∀ p, ReadSleeps s p →
    (s.empty ∧ s.writeopen = true) ∨ ∃ q, Writes s q ∧ s.killed q = false ∧ s.readopen = true
  writers : ∀ p, WriteSleeps s p → (s.full ∧ s.readopen = true) ∨ ∃ q, Copies s q

theorem Writes.holds (h : Writes s p) : (s.place p).holds = true := by
  obtain ⟨n, i, hp | hp⟩ := h
  · rw [hp]
    rfl
  · rw [hp]
    rfl

theorem Copies.holds (h : Copies s p) : (s.place p).holds = true := by
  obtain ⟨n, i, hp⟩ := h
  rw [hp]
  rfl

structure Same (s t : Pipe P) : Prop where
  nread : t.nread = s.nread
  nwrite : t.nwrite = s.nwrite
  readopen : t.readopen = s.readopen
  writeopen : t.writeopen = s.writeopen
  killed : t.killed = s.killed

namespace Same

theorem empty (h : Same s t) : t.empty ↔ s.empty := by
  rw [Pipe.empty, Pipe.empty, h.nread, h.nwrite]

theorem full (h : Same s t) : t.full ↔ s.full := by
  rw [Pipe.full, Pipe.full, h.nread, h.nwrite]

end Same

section Wakeups

theorem readSleeps_wakeReader : ¬ReadSleeps (s.wakeup Place.wakeReader) q := by
  rintro ⟨n, hq⟩
  rw [Pipe.wakeup_place] at hq
  cases hx : s.place q with
  | _ =>
    rw [hx] at hq
    cases hq

theorem writeSleeps_wakeWriter : ¬WriteSleeps (s.wakeup Place.wakeWriter) q := by
  rintro ⟨n, i, hq⟩
  rw [Pipe.wakeup_place] at hq
  cases hx : s.place q with
  | _ =>
    rw [hx] at hq
    cases hq

theorem Writes.wakeWriter (h : Writes s q) : Writes (s.wakeup Place.wakeWriter) q := by
  obtain ⟨n, i, hq | hq⟩ := h
  · exact ⟨n, i, .inl (by rw [Pipe.wakeup_place, hq]; rfl)⟩
  · exact ⟨n, i, .inr (by rw [Pipe.wakeup_place, hq]; rfl)⟩

theorem Copies.wakeReader (h : Copies s q) : Copies (s.wakeup Place.wakeReader) q := by
  obtain ⟨n, i, hq⟩ := h
  exact ⟨n, i, by rw [Pipe.wakeup_place, hq]; rfl⟩

theorem Writes.of_wakeWriter (h : Writes (s.wakeup Place.wakeWriter) q) : Writes s q := by
  obtain ⟨n, i, hq | hq⟩ := h
  · exact ⟨n, i, .inl (wakeWriter_eq (by simp) hq)⟩
  · exact ⟨n, i, .inr (wakeWriter_eq (by simp) hq)⟩

theorem Copies.of_wakeReader (h : Copies (s.wakeup Place.wakeReader) q) : Copies s q := by
  obtain ⟨n, i, hq⟩ := h
  exact ⟨n, i, wakeReader_eq (by simp) hq⟩

theorem Watched.wakeReader (h : Watched s) : Watched (s.wakeup Place.wakeReader) where
  locked := h.locked.wakeup holds_wakeReader
  passed q n i hq :=
    ⟨(h.passed q n i (wakeReader_eq (by simp) hq)).1, fun r hr => absurd hr readSleeps_wakeReader⟩
  waits q n hq := h.waits q n (wakeReader_eq (by simp) hq)
  readers q hq := absurd hq readSleeps_wakeReader
  writers q hq := by
    obtain ⟨n, i, hq⟩ := hq
    refine (h.writers q ⟨n, i, wakeReader_eq (by simp) hq⟩).imp_right ?_
    rintro ⟨w, hw⟩
    exact ⟨w, hw.wakeReader⟩

theorem Watched.wakeWriter (h : Watched s) : Watched (s.wakeup Place.wakeWriter) where
  locked := h.locked.wakeup holds_wakeWriter
  passed q n i hq := by
    have hs := h.passed q n i (wakeWriter_eq (by simp) hq)
    refine ⟨hs.1, ?_⟩
    rintro r ⟨m, hr⟩
    exact hs.2 r ⟨m, wakeWriter_eq (by simp) hr⟩
  waits q n hq := h.waits q n (wakeWriter_eq (by simp) hq)
  readers q hq := by
    obtain ⟨n, hq⟩ := hq
    refine (h.readers q ⟨n, wakeWriter_eq (by simp) hq⟩).imp_right ?_
    rintro ⟨w, hw, hrest⟩
    exact ⟨w, hw.wakeWriter, hrest⟩
  writers q hq := absurd hq writeSleeps_wakeWriter

end Wakeups

theorem not_writes (hp : s.place p = x) (hx : ∀ n i, x ≠ .writeTest n i ∧ x ≠ .writeByte n i) : ¬Writes s p := by
  rintro ⟨n, i, hq | hq⟩
  · exact (hx n i).1 (hp.symm.trans hq)
  · exact (hx n i).2 (hp.symm.trans hq)

theorem not_copies (hp : s.place p = x) (hx : ∀ n i, x ≠ .readByte n i) : ¬Copies s p := by
  rintro ⟨n, i, hq⟩
  exact hx n i (hp.symm.trans hq)

theorem Watched.alone (h : Watched s) (hp : s.place p = x) (hx : x.holds = true) (hq : (s.place q).holds = true) :
    q = p := by
  rw [← hp] at hx
  exact h.locked.other hq hx

variable [DecidableEq P]

theorem update_place {f : P → Place} {y : Place} (hx : x ≠ y) (h : update f p x q = y) :
    q ≠ p ∧ f q = y := by
  by_cases hqp : q = p
  · rw [hqp, update_self] at h
    exact absurd h hx
  · rw [update_of_ne hqp] at h
    exact ⟨hqp, h⟩

def Place.Plain : Place → Prop
  | .readSleep _ | .writeSleep _ _ | .writeByte _ _ | .readWait _ => False
  | _ => True

section Updates

variable (hplace : t.place = update s.place p x)
include hplace

theorem readSleeps_of_update (hx : ∀ n, x ≠ .readSleep n) (h : ReadSleeps t q) : ReadSleeps s q := by
  obtain ⟨n, hq⟩ := h
  rw [hplace] at hq
  exact ⟨n, (update_place (hx n) hq).2⟩

theorem writeSleeps_of_update (hx : ∀ n i, x ≠ .writeSleep n i) (h : WriteSleeps t q) : WriteSleeps s q := by
  obtain ⟨n, i, hq⟩ := h
  rw [hplace] at hq
  exact ⟨n, i, (update_place (hx n i) hq).2⟩

theorem place_of_ne (hq : q ≠ p) : t.place q = s.place q := by
  rw [hplace, update_of_ne hq]

theorem writes_of_ne (hq : q ≠ p) (h : Writes s q) : Writes t q := by
  rw [Writes, place_of_ne hplace hq]
  exact h

theorem copies_of_ne (hq : q ≠ p) (h : Copies s q) : Copies t q := by
  rw [Copies, place_of_ne hplace hq]
  exact h

end Updates

namespace Watched

theorem keep_readers (h : Watched s) (hplace : t.place = update s.place p x) (hsame : Same s t)
    (hp : (∃ q, ReadSleeps s q) → Writes s p → s.killed p = false → s.readopen = true → Writes t p)
    (hq : ReadSleeps s q) :
    (t.empty ∧ t.writeopen = true) ∨ ∃ q, Writes t q ∧ t.killed q = false ∧ t.readopen = true := by
  rw [hsame.empty, hsame.writeopen, hsame.killed, hsame.readopen]
  refine (h.readers q hq).imp_right ?_
  rintro ⟨w, hw, hkilled, hopen⟩
  refine ⟨w, ?_, hkilled, hopen⟩
  by_cases hwp : w = p
  · subst hwp
    exact hp ⟨q, hq⟩ hw hkilled hopen
  · exact writes_of_ne hplace hwp hw

theorem keep_writers (h : Watched s) (hplace : t.place = update s.place p x) (hsame : Same s t)
    (hp : (∃ q, WriteSleeps s q) → Copies s p → Copies t p) (hq : WriteSleeps s q) :
    (t.full ∧ t.readopen = true) ∨ ∃ q, Copies t q := by
  rw [hsame.full, hsame.readopen]
  refine (h.writers q hq).imp_right ?_
  rintro ⟨w, hw⟩
  refine ⟨w, ?_⟩
  by_cases hwp : w = p
  · subst hwp
    exact hp ⟨q, hq⟩ hw
  · exact copies_of_ne hplace hwp hw

theorem move (h : Watched s) (hlocked : Locked t) (hplace : t.place = update s.place p x)
    (hsame : Same s t) (hx : Place.Plain x)
    (hreads : (∃ q, ReadSleeps s q) → Writes s p → s.killed p = false → s.readopen = true → Writes t p)
    (hwrites : (∃ q, WriteSleeps s q) → Copies s p → Copies t p) : Watched t where
  locked := hlocked
  passed q n i hq := by
    rw [hplace] at hq
    rw [hsame.readopen, hsame.killed]
    have hs := h.passed q n i (update_place (by rintro rfl; exact hx) hq).2
    exact ⟨hs.1, fun r hr => hs.2 r (readSleeps_of_update hplace (by rintro n rfl; exact hx) hr)⟩
  waits q n hq := by
    rw [hplace] at hq
    rw [hsame.empty, hsame.writeopen]
    exact h.waits q n (update_place (by rintro rfl; exact hx) hq).2
  readers q hq :=
    h.keep_readers hplace hsame hreads (readSleeps_of_update hplace (by rintro n rfl; exact hx) hq)
  writers q hq :=
    h.keep_writers hplace hsame hwrites (writeSleeps_of_update hplace (by rintro n i rfl; exact hx) hq)

end Watched

/-- No kkill() between two bytes of a write while somebody waits for them. -/
def Unhurt (s : Pipe P) : Event P → Prop
  | .kkill p => Writes s p → ∀ q, ¬ReadSleeps s q
  | _ => True

namespace Watched

variable (h : Watched s)

include h

theorem test {n : Int} {i : Nat} (hlocked : Locked (s.goto p (.writeByte n i)))
    (hp : s.place p = .writeTest n i) (hopen : s.readopen = true) (hkilled : s.killed p = false) :
    Watched (s.goto p (.writeByte n i)) := by
  have hsame : Same s (s.goto p (.writeByte n i)) := ⟨rfl, rfl, rfl, rfl, rfl⟩
  have hwrites : Writes (s.goto p (.writeByte n i)) p := ⟨n, i, .inr (update_self _ _ _)⟩
  refine ⟨hlocked, ?_, ?_, ?_, ?_⟩
  · intro q m j hq
    refine ⟨hopen, fun r hr => ?_⟩
    by_cases hqp : q = p
    · rw [hqp]
      exact hkilled
    · rw [Pipe.goto_place, update_of_ne hqp] at hq
      exact (h.passed q m j hq).2 r (readSleeps_of_update rfl (by simp) hr)
  · intro q m hq
    exact h.waits q m (update_place (by simp) hq).2
  · intro q hq
    exact h.keep_readers rfl hsame (fun _ _ _ _ => hwrites) (readSleeps_of_update rfl (by simp) hq)
  · intro q hq
    exact h.keep_writers rfl hsame (fun _ hc => absurd hc (not_copies hp (by simp)))
      (writeSleeps_of_update rfl (by simp) hq)

theorem wait {n : Int} (hlocked : Locked (s.goto p (.readWait n))) (hp : s.place p = .readTest n)
    (hempty : s.empty) (hopen : s.writeopen = true) : Watched (s.goto p (.readWait n)) := by
  have hsame : Same s (s.goto p (.readWait n)) := ⟨rfl, rfl, rfl, rfl, rfl⟩
  refine ⟨hlocked, ?_, fun q m hq => ⟨hempty, hopen⟩, ?_, ?_⟩
  · intro q m j hq
    have hs := h.passed q m j (update_place (by simp) hq).2
    exact ⟨hs.1, fun r hr => hs.2 r (readSleeps_of_update rfl (by simp) hr)⟩
  · intro q hq
    exact h.keep_readers rfl hsame (fun _ hw => absurd hw (not_writes hp (by simp)))
      (readSleeps_of_update rfl (by simp) hq)
  · intro q hq
    exact h.keep_writers rfl hsame (fun _ hc => absurd hc (not_copies hp (by simp)))
      (writeSleeps_of_update rfl (by simp) hq)

theorem sleepReader {n : Int} (hlocked : Locked (s.release p (.readSleep n)))
    (hp : s.place p = .readWait n) : Watched (s.release p (.readSleep n)) := by
  have hsame : Same s (s.release p (.readSleep n)) := ⟨rfl, rfl, rfl, rfl, rfl⟩
  refine ⟨hlocked, ?_, ?_, ?_, ?_⟩
  · intro q m j hq
    obtain ⟨hqp, hq⟩ := update_place (by simp) hq
    exact absurd (h.alone hp rfl (by rw [hq]; rfl)) hqp
  · intro q m hq
    exact h.waits q m (update_place (by simp) hq).2
  · rintro q ⟨m, hq⟩
    by_cases hqp : q = p
    · exact .inl (h.waits p n hp)
    · rw [Pipe.release_place, update_of_ne hqp] at hq
      exact h.keep_readers rfl hsame (fun _ hw => absurd hw (not_writes hp (by simp))) ⟨m, hq⟩
  · intro q hq
    exact h.keep_writers rfl hsame (fun _ hc => absurd hc (not_copies hp (by simp)))
      (writeSleeps_of_update rfl (by simp) hq)

theorem sleepWriter {n : Int} {i : Nat} (hlocked : Locked ((s.wakeup Place.wakeReader).release p (.writeSleep n i)))
    (hp : s.place p = .writeByte n i) (hfull : s.full) :
    Watched ((s.wakeup Place.wakeReader).release p (.writeSleep n i)) := by
  have hsame : Same (s.wakeup Place.wakeReader) ((s.wakeup Place.wakeReader).release p (.writeSleep n i)) :=
    ⟨rfl, rfl, rfl, rfl, rfl⟩
  have hp' : (s.wakeup Place.wakeReader).place p = .writeByte n i := by
    rw [Pipe.wakeup_place, hp]
    rfl
  have hawake : ∀ q, ¬ReadSleeps ((s.wakeup Place.wakeReader).release p (.writeSleep n i)) q :=
    fun q hq => readSleeps_wakeReader (readSleeps_of_update rfl (by simp) hq)
  refine ⟨hlocked, ?_, ?_, fun q hq => absurd hq (hawake q), ?_⟩
  · intro q m j hq
    exact ⟨(h.wakeReader.passed q m j (update_place (by simp) hq).2).1, fun r hr => absurd hr (hawake r)⟩
  · intro q m hq
    exact h.wakeReader.waits q m (update_place (by simp) hq).2
  · rintro q ⟨m, j, hq⟩
    by_cases hqp : q = p
    · exact .inl ⟨hfull, (h.passed p n i hp).1⟩
    · rw [Pipe.release_place, update_of_ne hqp] at hq
      exact h.wakeReader.keep_writers rfl hsame (fun _ hc => absurd hc (not_copies hp' (by simp))) ⟨m, j, hq⟩

theorem put {n : Int} {i : Nat} {ch : Byte}
    (hlocked : Locked ((s.put ch).goto p (.writeTest n (i + 1)))) (hp : s.place p = .writeByte n i)
    (hfull : ¬s.full) : Watched ((s.put ch).goto p (.writeTest n (i + 1))) := by
  have hpassed := h.passed p n i hp
  refine ⟨hlocked, ?_, ?_, ?_, ?_⟩
  · intro q m j hq
    obtain ⟨hqp, hq⟩ := update_place (by simp) hq
    exact absurd (h.alone hp rfl (by rw [show s.place q = _ from hq]; rfl)) hqp
  · intro q m hq
    obtain ⟨hqp, hq⟩ := update_place (by simp) hq
    exact absurd (h.alone hp rfl (by rw [show s.place q = _ from hq]; rfl)) hqp
  · rintro q ⟨m, hq⟩
    have hsleeps : ReadSleeps s q := ⟨m, (update_place (by simp) hq).2⟩
    exact .inr ⟨p, ⟨n, i + 1, .inl (update_self _ _ _)⟩, hpassed.2 q hsleeps, hpassed.1⟩
  · rintro q ⟨m, j, hq⟩
    rcases h.writers q ⟨m, j, (update_place (by simp) hq).2⟩ with hs | ⟨w, hw⟩
    · exact absurd hs.1 hfull
    · rw [h.alone hp rfl hw.holds] at hw
      exact absurd hw (not_copies hp (by simp))

theorem take {n : Int} {i : Nat} (hlocked : Locked (s.take.goto p (.readByte n (i + 1))))
    (hp : s.place p = .readByte n i) (hempty : ¬s.empty) : Watched (s.take.goto p (.readByte n (i + 1))) := by
  refine ⟨hlocked, ?_, ?_, ?_, ?_⟩
  · intro q m j hq
    obtain ⟨hqp, hq⟩ := update_place (by simp) hq
    exact absurd (h.alone hp rfl (by rw [show s.place q = _ from hq]; rfl)) hqp
  · intro q m hq
    obtain ⟨hqp, hq⟩ := update_place (by simp) hq
    exact absurd (h.alone hp rfl (by rw [show s.place q = _ from hq]; rfl)) hqp
  · rintro q ⟨m, hq⟩
    rcases h.readers q ⟨m, (update_place (by simp) hq).2⟩ with hs | ⟨w, hw, -⟩
    · exact absurd hs.1 hempty
    · rw [h.alone hp rfl hw.holds] at hw
      exact absurd hw (not_writes hp (by simp))
  · intro q hq
    exact .inr ⟨p, n, i + 1, update_self _ _ _⟩

omit [DecidableEq P] in
theorem close (hlock : s.lock = none) {writable : Bool} (hlocked : Locked (s.pipeclose writable)) :
    Watched (s.pipeclose writable) := by
  have hfree : ∀ q, (s.place q).holds = true → False := by
    intro q hq
    rw [h.locked.free hlock q] at hq
    cases hq
  cases writable with
  | true =>
    refine ⟨hlocked, h.wakeReader.passed, ?_, fun q hq => absurd hq readSleeps_wakeReader, h.wakeReader.writers⟩
    intro q n hq
    exact (hfree q (by rw [wakeReader_eq (by simp) hq]; rfl)).elim
  | false =>
    refine ⟨hlocked, ?_, h.wakeWriter.waits, ?_, fun q hq => absurd hq writeSleeps_wakeWriter⟩
    · intro q n i hq
      exact (hfree q (by rw [wakeWriter_eq (by simp) hq]; rfl)).elim
    · rintro q ⟨n, hq⟩
      rcases h.readers q ⟨n, wakeWriter_eq (by simp) hq⟩ with hs | ⟨w, hw, -⟩
      · exact .inl hs
      · exact (hfree w hw.holds).elim

theorem kill (hu : Unhurt s (.kkill p)) (hlocked : Locked (s.kkill p)) : Watched (s.kkill p) := by
  have hplace : ∀ {q y}, (∀ n, y ≠ .readLock n) → (∀ n i, y ≠ .writeLock n i) → (s.kkill p).place q = y →
      s.place q = y := by
    intro q y hr hw hq
    change update s.place p (s.place p).wakeReader.wakeWriter q = y at hq
    by_cases hqp : q = p
    · rw [hqp, update_self] at hq
      rw [hqp]
      exact wakeReader_eq hr (wakeWriter_eq hw hq)
    · rw [update_of_ne hqp] at hq
      exact hq
  have hreads : ∀ {q}, ReadSleeps (s.kkill p) q → ReadSleeps s q := by
    rintro q ⟨n, hq⟩
    exact ⟨n, hplace (by simp) (by simp) hq⟩
  have hflag : ∀ {q}, q ≠ p → (s.kkill p).killed q = s.killed q := fun hq => update_of_ne hq _ _
  refine ⟨hlocked, ?_, ?_, ?_, ?_⟩
  · intro q n i hq
    have hs : s.place q = .writeByte n i := hplace (by simp) (by simp) hq
    refine ⟨(h.passed q n i hs).1, fun r hr => ?_⟩
    by_cases hqp : q = p
    · rw [hqp] at hs
      exact absurd (hreads hr) (hu ⟨n, i, .inr hs⟩ r)
    · rw [hflag hqp]
      exact (h.passed q n i hs).2 r (hreads hr)
  · intro q n hq
    exact h.waits q n (hplace (by simp) (by simp) hq)
  · intro q hq
    refine (h.readers q (hreads hq)).imp_right ?_
    rintro ⟨w, hw, hkilled, hopen⟩
    have hwp : w ≠ p := by
      rintro rfl
      exact hu hw q (hreads hq)
    exact ⟨w, writes_of_ne rfl hwp hw, (hflag hwp).trans hkilled, hopen⟩
  · rintro q ⟨n, i, hq⟩
    refine (h.writers q ⟨n, i, hplace (by simp) (by simp) hq⟩).imp_right ?_
    rintro ⟨w, m, j, hw⟩
    refine ⟨w, m, j, ?_⟩
    change update s.place p (s.place p).wakeReader.wakeWriter w = _
    by_cases hwp : w = p
    · rw [hwp, update_self, ← hwp, hw]
      rfl
    · rw [update_of_ne hwp]
      exact hw

end Watched

theorem watched_step (h : Watched s) (hu : Unhurt s e) (hm : Moves s e t) : Watched t := by
  have hlocked := locked_step h.locked hm
  cases hm with
  | pipewrite n hp | piperead n hp | writeLock hp | readLock hp | readKilled hp | readReady hp =>
    exact h.move hlocked rfl ⟨rfl, rfl, rfl, rfl, rfl⟩ trivial (fun _ hw => absurd hw (not_writes hp (by simp)))
      (fun _ hc => absurd hc (not_copies hp (by simp)))
  | writeRefused hp hi hrefused =>
    refine h.move hlocked rfl ⟨rfl, rfl, rfl, rfl, rfl⟩ trivial (fun _ _ hkilled hopen => ?_)
      (fun _ hc => absurd hc (not_copies hp (by simp)))
    rw [hkilled, hopen] at hrefused
    simp at hrefused
  | writeTest hp hi hopen hkilled => exact h.test hlocked hp hopen hkilled
  | writeDone hp | writeFault hp =>
    refine h.wakeReader.move hlocked rfl ⟨rfl, rfl, rfl, rfl, rfl⟩ trivial
      (fun ⟨q, hq⟩ => absurd hq readSleeps_wakeReader) (fun _ hc => absurd hc.of_wakeReader ?_)
    exact not_copies hp (by simp)
  | writeSleep hp hfull => exact h.sleepWriter hlocked hp hfull
  | writeByte hp hfull => exact h.put hlocked hp hfull
  | readWait hp hempty hopen => exact h.wait hlocked hp hempty hopen
  | readSleep hp => exact h.sleepReader hlocked hp
  | readByte hp hi hempty => exact h.take hlocked hp hempty
  | readFault hp | readDone hp =>
    refine h.wakeWriter.move hlocked rfl ⟨rfl, rfl, rfl, rfl, rfl⟩ trivial (fun _ hw => absurd hw.of_wakeWriter ?_)
      (fun ⟨q, hq⟩ => absurd hq writeSleeps_wakeWriter)
    exact not_writes hp (by simp)
  | pipeclose hlock => exact h.close hlock hlocked
  | kkill p => exact h.kill hu hlocked

variable {junk : Fin PIPESIZE → Byte}

theorem run_watched (r : Run Pipe.step (pipealloc junk : Pipe P))
    (hkill : ∀ k e, r.event k = some e → Unhurt (r.state k) e) (k : Nat) : Watched (r.state k) := by
  induction k with
  | zero =>
    rw [r.start]
    exact ⟨locked_pipealloc junk, nofun, nofun, by rintro _ ⟨_, ⟨⟩⟩, by rintro _ ⟨_, _, ⟨⟩⟩⟩
  | succ k ih =>
    cases he : r.event k with
    | none =>
      rw [r.state_of_no_event he]
      exact ih
    | some e => exact watched_step ih (hkill k e he) (moves_of_step (r.step_of_event he))

/-- With pi->lock free, who sleeps has nothing to do yet. -/
theorem pipe_sleepers (r : Run Pipe.step (pipealloc junk : Pipe P))
    (hkill : ∀ k e, r.event k = some e → Unhurt (r.state k) e) (k : Nat) (hlock : (r.state k).lock = none) (p : P) :
    (∀ n, (r.state k).place p = .readSleep n →
      (r.state k).nread = (r.state k).nwrite ∧ (r.state k).writeopen = true) ∧
    ∀ n i, (r.state k).place p = .writeSleep n i →
      (r.state k).nwrite = u32 ((r.state k).nread + PIPESIZE) ∧ (r.state k).readopen = true := by
  have h := run_watched r hkill k
  refine ⟨fun n hp => ?_, fun n i hp => ?_⟩
  · rcases h.readers p ⟨n, hp⟩ with hs | ⟨q, hq, -⟩
    · exact hs
    · have := h.locked q hq.holds
      rw [hlock] at this
      cases this
  · rcases h.writers p ⟨n, i, hp⟩ with hs | ⟨q, hq⟩
    · exact hs
    · have := h.locked q hq.holds
      rw [hlock] at this
      cases this

def readerAsleep : List (Event Bool) :=
  [.piperead false 1, .turn false 0 true, .turn false 0 true, .turn false 0 true]

def writerKilled : List (Event Bool) :=
  [.pipewrite true 2, .turn true 0 true, .turn true 0 true, .turn true 0 true, .kkill true, .turn true 0 true]

theorem pipe_sleepers_reader : ∃ (r : Run Pipe.step (pipealloc (fun _ => 0) : Pipe Bool)) (k : Nat),
    (r.state k).lock = none ∧ (r.state k).place false = .readSleep 1 ∧
      (r.state k).nread = (r.state k).nwrite ∧ (r.state k).writeopen = true := by
  have hok : (exec Pipe.step (pipealloc fun _ => 0) readerAsleep).any fun s =>
      decide (s.lock = none ∧ s.place false = .readSleep 1) := by decide
  obtain ⟨t, ht, hP⟩ := (Option.any_eq_true _ _).mp hok
  obtain ⟨r, hr, hev⟩ := exists_script ht
  have hP := of_decide_eq_true hP
  rw [← hr] at hP
  have hcalm : ∀ k e, r.event k = some e → Unhurt (r.state k) e := by
    intro k e he
    rw [hev k] at he
    have hmem := List.mem_of_getElem? he
    simp only [readerAsleep, List.mem_cons, List.not_mem_nil, or_false] at hmem
    rcases hmem with rfl | rfl | rfl | rfl <;> exact trivial
  exact ⟨r, _, hP.1, hP.2, (pipe_sleepers r hcalm _ hP.1 false).1 1 hP.2⟩

/-- The byte is in the pipe, the lock is free, and the reader is still asleep. -/
theorem reader_left_asleep : ∃ (r : Run Pipe.step (pipealloc (fun _ => 0) : Pipe Bool)) (k : Nat),
    (r.state k).lock = none ∧ (r.state k).place false = .readSleep 1 ∧ (r.state k).nread ≠ (r.state k).nwrite ∧
      (r.state k).readopen = true ∧ (r.state k).writeopen = true := by
  have hok : (exec Pipe.step (pipealloc fun _ => 0) (readerAsleep ++ writerKilled)).any fun s =>
      decide (s.lock = none ∧ s.place false = .readSleep 1 ∧ s.nread ≠ s.nwrite ∧ s.readopen = true ∧
        s.writeopen = true) := by decide
  obtain ⟨r, k, hP⟩ := exists_reached_script hok
  exact ⟨r, k, of_decide_eq_true hP⟩

end AdaptiveXv6.PipeWakeups
