import AdaptiveXv6.Pipes

namespace AdaptiveXv6.PipeStreams

open Words Bytes Runs Windows Pipes Function

variable {P : Type} {s t : Pipe P} {e : Event P} {accepted delivered rest : List Byte}

/-- The buffer holds what has been accepted and not yet delivered. -/
structure Fifo (s : Pipe P) (accepted delivered rest : List Byte) : Prop where
  order : accepted = delivered ++ rest
  fits : rest.length ≤ PIPESIZE
  held : Window s.data delivered.length rest
  nread : s.nread = u32 delivered.length
  nwrite : s.nwrite = u32 accepted.length

namespace Fifo

theorem pipealloc (junk : Fin PIPESIZE → Byte) : Fifo (pipealloc junk : Pipe P) [] [] [] where
  order := rfl
  fits := Nat.zero_le _
  held := window_nil
  nread := rfl
  nwrite := rfl

variable (h : Fifo s accepted delivered rest)

include h

theorem same (hdata : t.data = s.data) (hr : t.nread = s.nread)
    (hw : t.nwrite = s.nwrite) : Fifo t accepted delivered rest where
  order := h.order
  fits := h.fits
  held := by
    rw [hdata]
    exact h.held
  nread := hr.trans h.nread
  nwrite := hw.trans h.nwrite

theorem written : s.nwrite = u32 (delivered.length + rest.length) := by
  rw [h.nwrite, h.order, List.length_append]

theorem length_lt : rest.length < 2 ^ 32 :=
  Nat.lt_of_le_of_lt h.fits (by decide)

theorem full_iff : s.full ↔ rest.length = PIPESIZE := by
  rw [Pipe.full, h.written, h.nread, u32_add_left]
  exact u32_add_inj h.length_lt (by decide)

theorem empty_iff : s.empty ↔ rest = [] := by
  rw [Pipe.empty, h.written, h.nread, ← List.length_eq_zero_iff]
  have hinj := u32_add_inj (x := delivered.length) (j := 0) (by decide) h.length_lt
  rw [Nat.add_zero] at hinj
  rw [hinj]
  exact eq_comm

theorem put (hfull : ¬s.full) (ch : Byte) : Fifo (s.put ch) (accepted ++ [ch]) delivered (rest ++ [ch]) := by
  have hroom : rest.length < PIPESIZE := by
    have := h.fits
    have hne := mt h.full_iff.mpr hfull
    omega
  refine ⟨?_, ?_, ?_, h.nread, ?_⟩
  · rw [h.order, List.append_assoc]
  · rw [List.length_append, List.length_singleton]
    exact hroom
  · have hpush := window_push (a := ch) h.held hroom
    have hpos : Fin.ofNat PIPESIZE s.nwrite = Fin.ofNat PIPESIZE (delivered.length + rest.length) := by
      rw [h.written]
      exact ofNat_mod (by decide) _
    rw [← hpos] at hpush
    exact hpush
  · rw [Pipe.put, h.nwrite, u32_add_left, List.length_append, List.length_singleton]

theorem take (hempty : ¬s.empty) : ∃ l, Fifo s.take accepted (delivered ++ [s.head]) l := by
  cases rest with
  | nil => exact absurd (h.empty_iff.mpr rfl) hempty
  | cons b l =>
    have hpos : Fin.ofNat PIPESIZE s.nread = Fin.ofNat PIPESIZE delivered.length := by
      rw [h.nread]
      exact ofNat_mod (by decide) _
    rw [Pipe.head, hpos, window_head h.held]
    refine ⟨l, ?_, Nat.le_of_succ_le h.fits, ?_, ?_, h.nwrite⟩
    · rw [h.order, List.append_assoc, List.singleton_append]
    · rw [List.length_append, List.length_singleton]
      exact window_tail h.held
    · rw [Pipe.take, h.nread, u32_add_left, List.length_append, List.length_singleton]

theorem distance : u32 (s.nwrite + 2 ^ 32 - s.nread) = rest.length := by
  have hlt := h.length_lt
  rw [h.written, h.nread]
  simp only [u32]
  omega

end Fifo

structure Ready (s : Pipe P) : Prop where
  locked : Locked s
  ready : ∀ p n, s.place p = .readByte n 0 → s.empty → s.writeopen = false

theorem Ready.wakeReader (h : Ready s) : Ready (s.wakeup Place.wakeReader) :=
  ⟨h.locked.wakeup holds_wakeReader, fun q n hq he => h.ready q n (wakeReader_eq (by simp) hq) he⟩

theorem Ready.wakeWriter (h : Ready s) : Ready (s.wakeup Place.wakeWriter) :=
  ⟨h.locked.wakeup holds_wakeWriter, fun q n hq he => h.ready q n (wakeWriter_eq (by simp) hq) he⟩

variable [DecidableEq P]

/-- The bytes that pipewrite() stored and those that piperead() copied out, after the event. -/
def flow (s : Pipe P) (e : Event P) (l : List Byte × List Byte) : List Byte × List Byte :=
  match e with
  | .turn p ch ok => match s.place p with
    | .writeByte _ _ => if ok = true ∧ ¬s.full then (l.1 ++ [ch], l.2) else l
    | .readByte n i =>
      if ok = true ∧ (i : Int) < n ∧ ¬s.empty then (l.1, l.2 ++ [s.head]) else l
    | _ => l
  | _ => l

def streams {s₀ : Pipe P} (r : Run Pipe.step s₀) (k : Nat) : List Byte × List Byte := r.history flow ([], []) k

theorem fifo_step {l : List Byte × List Byte} (h : Fifo s l.1 l.2 rest) (hm : Moves s e t) :
    ∃ rest', Fifo t (flow s e l).1 (flow s e l).2 rest' := by
  have hsame : ∀ {u : Pipe P}, flow s e l = l → u.data = s.data → u.nread = s.nread → u.nwrite = s.nwrite →
      ∃ rest', Fifo u (flow s e l).1 (flow s e l).2 rest' := by
    intro u hl hdata hr hw
    rw [hl]
    exact ⟨rest, h.same hdata hr hw⟩
  cases hm with
  | @pipeclose writable hlock =>
    cases writable with
    | true | false => exact hsame rfl rfl rfl rfl
  | pipewrite | piperead | kkill => exact hsame rfl rfl rfl rfl
  | writeLock hp | writeRefused hp | writeTest hp | writeDone hp | readLock hp | readKilled hp | readWait hp
  | readReady hp | readSleep hp => exact hsame (by rw [flow, hp]) rfl rfl rfl
  | writeSleep hp hfull => exact hsame (by simp only [flow, hp, hfull, not_true, and_false, if_false]) rfl rfl rfl
  | writeFault hp | readFault hp =>
    exact hsame (by simp only [flow, hp, Bool.false_eq_true, false_and, if_false]) rfl rfl rfl
  | readDone hp hstop =>
    refine hsame ?_ rfl rfl rfl
    simp only [flow, hp]
    exact if_neg fun hgo => hgo.2.2 (hstop hgo.2.1)
  | @writeByte p n i ch hp hfull =>
    have hl : flow s (.turn p ch true) l = (l.1 ++ [ch], l.2) := by
      simp only [flow, hp]
      exact if_pos ⟨trivial, hfull⟩
    rw [hl]
    exact ⟨_, (h.put hfull ch).same rfl rfl rfl⟩
  | @readByte p n i ch hp hi hempty =>
    have hl : flow s (.turn p ch true) l = (l.1, l.2 ++ [s.head]) := by
      simp only [flow, hp]
      exact if_pos ⟨trivial, hi, hempty⟩
    obtain ⟨rest', htake⟩ := h.take hempty
    rw [hl]
    exact ⟨rest', htake.same rfl rfl rfl⟩

variable {junk : Fin PIPESIZE → Byte}

theorem run_fifo (r : Run Pipe.step (pipealloc junk : Pipe P)) (k : Nat) :
    ∃ rest, Fifo (r.state k) (streams r k).1 (streams r k).2 rest :=
  r.always_history (B := fun _ => True)
    (I := fun (s : Pipe P) (l : List Byte × List Byte) => ∃ rest, Fifo s l.1 l.2 rest) (fun _ => trivial)
    ⟨[], .pipealloc junk⟩ (fun _ _ _ _ ⟨_, h⟩ _ _ hs => fifo_step h (moves_of_step hs)) k

theorem Ready.move (h : Ready s) {p : P} {x : Place} (hx : ∀ n, x ≠ .readByte n 0) (hlocked : Locked t)
    (hplace : t.place = update s.place p x) (hr : t.nread = s.nread) (hw : t.nwrite = s.nwrite)
    (hopen : t.writeopen = s.writeopen) : Ready t := by
  refine ⟨hlocked, fun q n hq he => ?_⟩
  rw [hopen]
  rw [Pipe.empty, hr, hw] at he
  rw [hplace] at hq
  by_cases hqp : q = p
  · rw [hqp, update_self] at hq
    exact absurd hq (hx n)
  · rw [update_of_ne hqp] at hq
    exact h.ready q n hq he

theorem Ready.alone (h : Ready s) {p : P} {x : Place} (hx : ∀ n, x ≠ .readByte n 0) (hlocked : Locked t)
    (hp : (s.place p).holds = true) (hplace : t.place = update s.place p x) : Ready t := by
  refine ⟨hlocked, fun q n hq he => ?_⟩
  rw [hplace] at hq
  by_cases hqp : q = p
  · rw [hqp, update_self] at hq
    exact absurd hq (hx n)
  · rw [update_of_ne hqp] at hq
    have hholds : (s.place q).holds = true := by
      rw [hq]
      rfl
    exact absurd (h.locked.other hholds hp) hqp

theorem ready_step (h : Ready s) (hm : Moves s e t) : Ready t := by
  have hlocked := locked_step h.locked hm
  cases hm with
  | pipewrite n hp | piperead n hp => exact h.move (fun _ => by simp) hlocked rfl rfl rfl rfl
  | @pipeclose writable hlock =>
    cases writable with
    | true => exact ⟨hlocked, fun _ _ _ _ => rfl⟩
    | false => exact ⟨hlocked, h.wakeWriter.ready⟩
  | kkill p =>
    refine ⟨hlocked, fun q n hq he => ?_⟩
    change update s.place p (s.place p).wakeReader.wakeWriter q = .readByte n 0 at hq
    by_cases hqp : q = p
    · rw [hqp, update_self] at hq
      exact h.ready p n (wakeReader_eq (by simp) (wakeWriter_eq (by simp) hq)) he
    · rw [update_of_ne hqp] at hq
      exact h.ready q n hq he
  | writeLock | readLock | writeRefused | readKilled | readSleep | writeTest | readWait =>
    exact h.move (fun _ => by simp) hlocked rfl rfl rfl rfl
  | writeDone | writeSleep | writeFault => exact h.wakeReader.move (fun _ => by simp) hlocked rfl rfl rfl rfl
  | readFault | readDone => exact h.wakeWriter.move (fun _ => by simp) hlocked rfl rfl rfl rfl
  | writeByte hp | readByte hp => exact h.alone (fun _ => by simp) hlocked (by rw [hp]; rfl) rfl
  | @readReady p n ch ok hp hready =>
    refine ⟨hlocked, fun q m hq he => ?_⟩
    by_cases hqp : q = p
    · exact hready he
    · rw [Pipe.goto_place, update_of_ne hqp] at hq
      exact h.ready q m hq he

theorem run_ready (r : Run Pipe.step (pipealloc junk : Pipe P)) (k : Nat) : Ready (r.state k) :=
  r.always (I := Ready) ⟨locked_pipealloc junk, nofun⟩ (fun _ _ _ h hs => ready_step h (moves_of_step hs)) k

/-- Being in a call of piperead() for n bytes. -/
def Reading (n : Int) : Place → Prop
  | .readLock m | .readTest m | .readWait m | .readSleep m | .readByte m _ => m = n
  | _ => False

theorem Reading.not_user {n ret : Int} {x : Place} (h : Reading n x) : x ≠ .user ret := by
  rintro rfl
  exact h

theorem Reading.wakeReader {n : Int} {x : Place} (h : Reading n x) : Reading n x.wakeReader := by
  cases x with
  | readSleep m => exact h
  | _ => exact h

theorem Reading.wakeWriter {n : Int} {x : Place} (h : Reading n x) : Reading n x.wakeWriter := by
  cases x with
  | writeSleep m i => exact h.elim
  | _ => exact h

theorem Reading.mover {n ret : Int} {p q : P} {x : Place} {f : P → Place} (h : Reading n (f q))
    (hret : update f p x q = .user ret) : q = p ∧ x = .user ret := by
  by_cases hqp : q = p
  · rw [hqp, update_self] at hret
    exact ⟨hqp, hret⟩
  · rw [update_of_ne hqp] at hret
    exact absurd hret h.not_user

theorem returns_zero (h : Ready s) (hm : Moves s e t) {q : P} {n : Int} (hn : 0 < n) (hq : Reading n (s.place q))
    (hret : t.place q = .user 0) : s.empty ∧ s.writeopen = false := by
  have hreader : Reading n ((s.wakeup Place.wakeReader).place q) := hq.wakeReader
  have hwriter : Reading n ((s.wakeup Place.wakeWriter).place q) := hq.wakeWriter
  cases hm with
  | pipewrite | piperead | writeLock | readLock | writeRefused | readKilled | readSleep | writeTest | readWait
  | readReady | writeByte | readByte => cases (hq.mover hret).2
  | @pipeclose writable hlock =>
    cases writable with
    | true => exact absurd hret hreader.not_user
    | false => exact absurd hret hwriter.not_user
  | kkill p =>
    obtain ⟨rfl, hx⟩ := hq.mover hret
    exact absurd hx hq.wakeReader.wakeWriter.not_user
  | writeSleep => cases (hreader.mover hret).2
  | writeDone hp | writeFault hp =>
    obtain ⟨rfl, -⟩ := hreader.mover hret
    rw [hp] at hq
    exact hq.elim
  | @readFault p m i ch hp hi hempty =>
    have hx := (hwriter.mover hret).2
    split at hx
    · cases hx
    · injection hx with hi
      omega
  | @readDone p m i ch ok hp hstop =>
    obtain ⟨rfl, hx⟩ := hwriter.mover hret
    injection hx with hi
    have hzero : i = 0 := by omega
    subst hzero
    rw [hp] at hq
    have hempty : s.empty := hstop (by rw [show m = n from hq]; exact hn)
    exact ⟨hempty, h.ready q m hp hempty⟩

end AdaptiveXv6.PipeStreams
