import AdaptiveXv6.Console

namespace AdaptiveXv6.ConsoleLines

open Words Bytes Runs Windows Console

theorem sub_u32 {x j k : Nat} (hjk : j ≤ k) (hk : k - j < 2 ^ 32) : sub (u32 (x + k)) (u32 (x + j)) = k - j := by
  rw [sub, u32, u32, u32]
  omega

/-- Since position start, the characters of pending are committed and not consumed, and those of edit can still
be erased. -/
structure Line (c : Cons) (start : Nat) (pending edit : List Byte) : Prop where
  r : c.r = u32 start
  w : c.w = u32 (start + pending.length)
  e : c.e = u32 (start + (pending ++ edit).length)
  fits : (pending ++ edit).length ≤ INPUT_BUF_SIZE
  held : Window c.buf start (pending ++ edit)

namespace Line

variable {c : Cons} {start : Nat} {pending edit : List Byte} {ch : Byte}

theorem zero : Line .zero 0 [] [] := ⟨rfl, rfl, rfl, Nat.zero_le _, window_nil⟩

theorem lengths (h : Line c start pending edit) : pending.length + edit.length ≤ 128 := by
  rw [← List.length_append]
  exact h.fits

theorem length_committed (h : Line c start pending edit) : sub c.w c.r = pending.length := by
  have := h.lengths
  have hsub := sub_u32 (x := start) (Nat.zero_le pending.length) (by omega)
  rw [h.w, h.r]
  exact hsub

theorem length_buffered (h : Line c start pending edit) : sub c.e c.r = (pending ++ edit).length := by
  have hfits : (pending ++ edit).length ≤ 128 := h.fits
  have hsub := sub_u32 (x := start) (Nat.zero_le (pending ++ edit).length) (by omega)
  rw [h.e, h.r]
  exact hsub

theorem empty_iff (h : Line c start pending edit) : c.r = c.w ↔ pending = [] := by
  have := h.lengths
  have hinj := u32_add_inj (x := start) (j := 0) (k := pending.length) (by decide) (by omega)
  rw [h.r, h.w, ← List.length_eq_zero_iff]
  exact hinj.trans eq_comm

theorem edited_iff (h : Line c start pending edit) : c.e = c.w ↔ edit = [] := by
  have := h.lengths
  rw [h.e, h.w, List.length_append, u32_add_inj (by omega) (by omega), ← List.length_eq_zero_iff]
  omega

theorem take (h : Line c start (ch :: pending) edit) :
    c.char c.r = ch ∧ Line { c with r := u32 (c.r + 1) } (start + 1) pending edit := by
  refine ⟨?_, ⟨?_, ?_, ?_, Nat.le_of_succ_le h.fits, window_tail h.held⟩⟩
  · rw [Cons.char, h.r]
    have hpos : Fin.ofNat INPUT_BUF_SIZE (u32 start) = Fin.ofNat INPUT_BUF_SIZE start := ofNat_mod (by decide) _
    rw [hpos]
    exact window_head h.held
  · rw [h.r, u32_add_left]
  · rw [h.w, List.length_cons, Nat.add_assoc, Nat.add_comm 1]
  · rw [h.e, List.cons_append, List.length_cons, Nat.add_assoc, Nat.add_comm 1]

theorem erase_fields (c : Cons) : c.erase.buf = c.buf ∧ c.erase.r = c.r ∧ c.erase.w = c.w := by
  rw [Cons.erase]
  exact ⟨rfl, rfl, rfl⟩

theorem sub_one {x : Nat} (hx : 0 < x) : sub (u32 x) 1 = u32 (x - 1) := by
  rw [sub, u32, u32, u32]
  omega

variable (h : Line c start pending edit)

include h

theorem erase (hedit : edit ≠ []) : Line c.erase start pending edit.dropLast := by
  have hpos : 0 < edit.length := List.length_pos_iff.mpr hedit
  have hlast : pending ++ edit.dropLast ++ [edit.getLast hedit] = pending ++ edit := by
    rw [List.append_assoc, List.dropLast_concat_getLast]
  have hlen : (pending ++ edit).length = (pending ++ edit.dropLast).length + 1 := by
    rw [← hlast]
    exact List.length_append
  have hfits := h.fits
  have hheld := h.held
  rw [hlen] at hfits
  rw [← hlast] at hheld
  obtain ⟨hbuf, hr, hw⟩ := erase_fields c
  refine ⟨hr.trans h.r, hw.trans h.w, ?_, Nat.le_of_succ_le hfits, ?_⟩
  · rw [Cons.erase, h.e, sub_one (by omega), hlen, Nat.add_succ_sub_one]
  · rw [hbuf]
    exact window_left hheld

theorem killLine {k : Nat} :
    ∃ edit', Line (Cons.killLine k c) start pending edit' ∧ (Cons.killLine k c).buf = c.buf := by
  induction k generalizing c edit with
  | zero => exact ⟨edit, h, rfl⟩
  | succ k ih =>
    rw [Cons.killLine]
    split
    · rename_i hgo
      obtain ⟨edit', hline, hbuf⟩ := ih (h.erase (mt h.edited_iff.mpr hgo.1))
      exact ⟨edit', hline, hbuf.trans (erase_fields c).1⟩
    · exact ⟨edit, h, rfl⟩

theorem store (ch : Byte) (hroom : (pending ++ edit).length < INPUT_BUF_SIZE) :
    Line (c.store ch) start pending (edit ++ [ch]) := by
  have hlen : (pending ++ (edit ++ [ch])).length = (pending ++ edit).length + 1 := by
    rw [← List.append_assoc, List.length_append, List.length_singleton]
  refine ⟨h.r, h.w, ?_, ?_, ?_⟩
  · rw [Cons.store, h.e, u32_add_left, hlen, Nat.add_assoc]
  · rw [hlen]
    exact hroom
  · have hpos : Fin.ofNat INPUT_BUF_SIZE c.e = Fin.ofNat INPUT_BUF_SIZE (start + (pending ++ edit).length) := by
      rw [h.e]
      exact ofNat_mod (by decide) _
    rw [← List.append_assoc, Cons.store, hpos]
    exact window_push h.held hroom

theorem commit : Line { c with w := c.e } start (pending ++ edit) [] := by
  refine ⟨h.r, h.e, ?_, ?_, ?_⟩
  · rw [List.append_nil]
    exact h.e
  · rw [List.append_nil]
    exact h.fits
  · rw [List.append_nil]
    exact h.held

theorem consoleintr (ch : Byte) : ∃ l edit', Line (c.consoleintr ch).1 start (pending ++ l) edit' := by
  have hnone : ∀ {c' edit'}, Line c' start pending edit' → ∃ l edit', Line c' start (pending ++ l) edit' := by
    intro c' edit' hline
    exact ⟨[], edit', by rw [List.append_nil]; exact hline⟩
  rw [Cons.consoleintr]
  split
  · exact hnone h
  split
  · obtain ⟨edit', hline, -⟩ := h.killLine
    exact hnone hline
  split
  · dsimp only
    split
    · exact hnone (h.erase (mt h.edited_iff.mpr ‹_›))
    · exact hnone h
  split
  · rename_i hgo
    rw [h.length_buffered] at hgo
    have hstore := fun ch' => h.store ch' hgo.2
    dsimp only
    generalize (if ch = carriageReturn then newline else ch) = ch'
    split
    · exact ⟨_, [], (hstore ch').commit⟩
    · exact hnone (hstore ch')
  · exact hnone h

end Line

def newLine (c c' : Cons) : List Byte := (List.range (sub c'.w c.w)).map fun j => c'.char (c.w + j)

theorem newLine_eq {c c' : Cons} {start : Nat} {pending l edit edit' : List Byte} (h : Line c start pending edit)
    (h' : Line c' start (pending ++ l) edit') : newLine c c' = l := by
  have hl := h'.lengths
  rw [List.length_append] at hl
  have hlen : sub c'.w c.w = l.length := by
    rw [h'.w, h.w, List.length_append, sub_u32 (Nat.le_add_right _ _) (by omega)]
    omega
  have hwindow : Window c'.buf c.w l := by
    rw [h.w]
    exact (window_mod (by decide)).mpr (window_right (window_left h'.held))
  rw [newLine, hlen]
  exact window_map hwindow

/-- What has been committed, taken out of the buffer and copied to readers. -/
structure Tape where
  committed : List Byte
  consumed : List Byte
  delivered : List Byte
  deriving DecidableEq

def Tape.empty : Tape := ⟨[], [], []⟩

variable {P : Type} [DecidableEq P] {s t : System P} {e : Event P} {l : Tape} {pending edit : List Byte}

/-- The tape after an event. A ^D kept for the next read is not consumed. -/
def record (s : System P) (e : Event P) (l : Tape) : Tape :=
  match e with
  | .consoleintr ch => { l with committed := l.committed ++ newLine s.cons (s.cons.consoleintr ch).1 }
  | .turn p ok => match s.place p with
    | .loop target n =>
      let ch := s.cons.char s.cons.r
      if n ≤ 0 ∨ s.cons.r = s.cons.w then l
      else if ch = control 'D' then if n < target then l else { l with consumed := l.consumed ++ [ch] }
      else ⟨l.committed, l.consumed ++ [ch], if ok then l.delivered ++ [ch] else l.delivered⟩
    | _ => l
  | _ => l

def Recorded (c : Cons) (l : Tape) : Prop :=
  ∃ pending edit, l.committed = l.consumed ++ pending ∧ Line c l.consumed.length pending edit

theorem recorded_intr {c : Cons} (h : Recorded c l) (ch : Byte) :
    Recorded (c.consoleintr ch).1 { l with committed := l.committed ++ newLine c (c.consoleintr ch).1 } := by
  obtain ⟨pending, edit, horder, hline⟩ := h
  obtain ⟨m, edit', hline'⟩ := hline.consoleintr ch
  refine ⟨pending ++ m, edit', ?_, hline'⟩
  rw [newLine_eq hline hline', horder, List.append_assoc]

theorem recorded_take {c : Cons} {delivered : List Byte} (h : Recorded c l) (hne : c.r ≠ c.w) :
    Recorded { c with r := u32 (c.r + 1) } ⟨l.committed, l.consumed ++ [c.char c.r], delivered⟩ := by
  obtain ⟨pending, edit, horder, hline⟩ := h
  cases pending with
  | nil => exact absurd (hline.empty_iff.mpr rfl) hne
  | cons ch pending =>
    obtain ⟨hch, htake⟩ := hline.take
    refine ⟨pending, edit, ?_, ?_⟩
    · rw [hch, horder, List.append_assoc, List.singleton_append]
    · rw [List.length_append, List.length_singleton]
      exact htake

theorem recorded_keep {c : Cons} (h : Recorded c l) :
    Recorded { c with r := sub (u32 (c.r + 1)) 1 } l := by
  obtain ⟨pending, edit, horder, hline⟩ := h
  have hr : sub (u32 (c.r + 1)) 1 = c.r := by
    rw [Line.sub_one (Nat.succ_pos _), hline.r]
    exact Nat.mod_mod _ _
  rw [hr]
  exact ⟨pending, edit, horder, hline⟩

theorem recorded_consume (h : Recorded s.cons l) (hne : s.cons.r ≠ s.cons.w) {p : P} {target n : Int} {ok : Bool}
    (hn : 0 < n) (hp : s.place p = .loop target n) :
    Recorded (s.consume p target n ok).cons (record s (.turn p ok) l) := by
  have hgo : ¬(n ≤ 0 ∨ s.cons.r = s.cons.w) := not_or.mpr ⟨by omega, hne⟩
  simp only [record, hp, if_neg hgo, System.consume]
  split
  · split
    · exact recorded_keep h
    · exact recorded_take h hne
  split
  · exact recorded_take h hne
  split
  · exact recorded_take h hne
  · exact recorded_take h hne

theorem recorded_step (h : Recorded s.cons l) (hs : s.step e = some t) : Recorded t.cons (record s e l) := by
  cases e with
  | consoleread p n =>
    rw [System.step] at hs
    split at hs
    · cases hs
      exact h
    · cases hs
  | consoleintr ch =>
    rw [System.step] at hs
    split at hs
    · cases hs
      exact recorded_intr h ch
    · cases hs
  | kkill p =>
    cases hs
    exact h
  | turn p ok =>
    rw [System.step, System.turn] at hs
    split at hs
    case h_1 | h_2 => cases hs
    case h_3 target n hp =>
      split at hs
      · cases hs
        simp only [record, hp]
        exact h
      · cases hs
    case h_4 target n hp =>
      split at hs
      · split at hs
        · rename_i hempty
          have hl : record s (.turn p ok) l = l := by
            simp only [record, hp]
            exact if_pos (.inr hempty)
          rw [hl]
          split at hs
          · cases hs
            exact h
          · cases hs
            exact h
        · cases hs
          exact recorded_consume h ‹_› ‹_› hp
      · rename_i hn
        cases hs
        have hl : record s (.turn p ok) l = l := by
          simp only [record, hp]
          exact if_pos (.inl (Int.not_lt.mp hn))
        rw [hl]
        exact h
    case h_5 target n hp =>
      cases hs
      simp only [record, hp]
      exact h

/-- A read that takes a character out of the buffer and cannot copy it. -/
def Faults (s : System P) : Event P → Prop
  | .turn p false => ∃ target n, s.place p = .loop target n ∧ 0 < n ∧ s.cons.r ≠ s.cons.w ∧
    s.cons.char s.cons.r ≠ control 'D'
  | _ => False

omit [DecidableEq P] in
theorem delivered_step (h : l.delivered = l.consumed.filter fun ch => decide (ch ≠ control 'D')) (hok : ¬Faults s e) :
    (record s e l).delivered = (record s e l).consumed.filter fun ch => decide (ch ≠ control 'D') := by
  cases e with
  | consoleread | consoleintr | kkill => exact h
  | turn p ok =>
    rw [record]
    split
    · rename_i target n hp
      dsimp only
      split
      · exact h
      · rename_i hgo
        rw [not_or] at hgo
        split
        · rename_i hmark
          split
          · exact h
          · simp [hmark, h]
        · rename_i hch
          cases ok with
          | true => simp [hch, h]
          | false => exact absurd ⟨target, n, hp, Int.not_le.mp hgo.1, hgo.2, hch⟩ hok
    · exact h

/-- The characters with which consoleintr() erases. -/
def Erases (ch : Byte) : Prop := ch = control 'U' ∨ ch = control 'H' ∨ ch = delete

theorem erases_spec {c : Cons} {start : Nat} {ch : Byte} (h : Line c start pending edit) (hch : Erases ch) :
    (c.consoleintr ch).1.buf = c.buf ∧ (c.consoleintr ch).1.r = c.r ∧ (c.consoleintr ch).1.w = c.w := by
  obtain ⟨edit', hline, hbuf⟩ := h.killLine (k := sub c.e c.w)
  have hne : ch ≠ control 'P' := by
    rcases hch with rfl | rfl | rfl
    · decide
    · decide
    · decide
  rw [Cons.consoleintr, if_neg hne]
  split
  · exact ⟨hbuf, hline.r.trans h.r.symm, hline.w.trans h.w.symm⟩
  · rename_i hU
    rw [if_pos (hch.resolve_left hU)]
    dsimp only
    split
    · exact Line.erase_fields c
    · exact ⟨rfl, rfl, rfl⟩

def tape (r : Run System.step (boot : System P)) (k : Nat) : Tape := r.history record .empty k

theorem run_recorded (r : Run System.step (boot : System P)) (k : Nat) : Recorded (r.state k).cons (tape r k) := by
  have hzero : Recorded (boot : System P).cons .empty := ⟨[], [], rfl, Line.zero⟩
  exact r.always_history (B := fun _ => True) (I := fun (s : System P) (l : Tape) => Recorded s.cons l)
    (fun _ => trivial) hzero (fun _ _ _ _ h _ _ hs => recorded_step h hs) k

theorem run_delivered (r : Run System.step (boot : System P)) (k : Nat)
    (hok : ∀ j e, j < k → r.event j = some e → ¬Faults (r.state j) e) :
    (tape r k).delivered = (tape r k).consumed.filter fun ch => decide (ch ≠ control 'D') := by
  induction k with
  | zero => rfl
  | succ k ih =>
    have hk := ih fun j e hj => hok j e (Nat.lt_succ_of_lt hj)
    cases he : r.event k with
    | none =>
      rw [tape, r.history_no_event record .empty he]
      exact hk
    | some e =>
      rw [tape, r.history_event record .empty he]
      exact delivered_step hk (hok k e (Nat.lt_succ_self k) he)

/-- The indices stay in order, erasing leaves what is committed, and readers get that in order, as long as no
copy to a reader fails. -/
theorem console_lines (r : Run System.step (boot : System P)) (k : Nat) :
    sub (r.state k).cons.w (r.state k).cons.r ≤ sub (r.state k).cons.e (r.state k).cons.r ∧
    sub (r.state k).cons.e (r.state k).cons.r ≤ INPUT_BUF_SIZE ∧
    (∀ ch, Erases ch → ((r.state k).cons.consoleintr ch).1.buf = (r.state k).cons.buf ∧
      ((r.state k).cons.consoleintr ch).1.r = (r.state k).cons.r ∧
      ((r.state k).cons.consoleintr ch).1.w = (r.state k).cons.w) ∧
    (∃ pending, (tape r k).committed = (tape r k).consumed ++ pending ∧
      pending.length = sub (r.state k).cons.w (r.state k).cons.r ∧
      Window (r.state k).cons.buf (r.state k).cons.r pending) ∧
    ((∀ j e, j < k → r.event j = some e → ¬Faults (r.state j) e) →
      (tape r k).delivered = (tape r k).consumed.filter fun ch => decide (ch ≠ control 'D')) := by
  obtain ⟨pending, edit, horder, hline⟩ := run_recorded r k
  refine ⟨?_, ?_, fun ch hch => erases_spec hline hch, ⟨pending, horder, hline.length_committed.symm, ?_⟩,
    run_delivered r k⟩
  · rw [hline.length_committed, hline.length_buffered, List.length_append]
    exact Nat.le_add_right _ _
  · rw [hline.length_buffered]
    exact hline.fits
  · rw [hline.r]
    exact (window_mod (by decide)).mpr (window_left hline.held)

def twoReads : List (Event Unit) :=
  [.consoleintr (BitVec.ofNat 8 'a'.toNat), .consoleintr newline, .consoleread () 2, .turn () true, .turn () false,
    .consoleread () 2, .turn () true, .turn () true]

/-- The first character is neither delivered nor left in the buffer. -/
theorem character_lost : ∃ (r : Run System.step (boot : System Unit)) (k : Nat),
    (r.state k).cons.r = (r.state k).cons.w ∧
    tape r k = ⟨[BitVec.ofNat 8 'a'.toNat, newline], [BitVec.ofNat 8 'a'.toNat, newline], [newline]⟩ := by
  have hok : (exec (traced System.step record) (boot, .empty) twoReads).any fun x =>
      decide (x.1.cons.r = x.1.cons.w ∧
        x.2 = ⟨[BitVec.ofNat 8 'a'.toNat, newline], [BitVec.ofNat 8 'a'.toNat, newline], [newline]⟩) := by decide
  have hrun : (exec System.step (boot : System Unit) twoReads).any fun _ => true := by decide
  obtain ⟨t, ht, -⟩ := (Option.any_eq_true _ _).mp hrun
  obtain ⟨r, -, hev⟩ := exists_script ht
  obtain ⟨x, hx, hP⟩ := (Option.any_eq_true _ _).mp hok
  have htrace := traced_script hev record .empty twoReads.length
  rw [List.take_length, hx] at htrace
  cases htrace
  exact ⟨r, twoReads.length, of_decide_eq_true hP⟩

end AdaptiveXv6.ConsoleLines
