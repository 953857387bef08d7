import AdaptiveXv6.DiskRequests

namespace AdaptiveXv6.DiskProtocol

open Runs Windows DiskDriver DiskRequests Function

variable {B : Type} [DecidableEq B] {s t : State B} {b c : B} {i j k : Fin NUM} {la lu : List (Fin NUM)}

structure Kept (s t : State B) (la lu : List (Fin NUM)) : Prop where
  avail : ∀ n, n < la.length → t.avail (Fin.ofNat NUM (s.fetched + n)) = s.avail (Fin.ofNat NUM (s.fetched + n))
  used : ∀ n, n < lu.length → t.used (Fin.ofNat NUM (s.seen + n)) = s.used (Fin.ofNat NUM (s.seen + n))
  calls : ∀ b i j k, s.phase b = .sent i j k → t.phase b = .sent i j k ∨ s.completed b = true

section Steps

variable (h : Inv s la lu)
include h

theorem kept_tryStart (hb : ∀ i j k, s.phase b ≠ .sent i j k) (write : Bool) (blockno : Nat) :
    Kept s (s.tryStart b write blockno) la lu := by
  have hcalls : ∀ (c : B) (i j k : Fin NUM) (x : Phase), s.phase c = .sent i j k →
      update s.phase b x c = .sent i j k := by
    intro c i j k x hc
    have hcb : c ≠ b := by
      rintro rfl
      exact hb i j k hc
    rw [update_of_ne hcb, hc]
  rcases alloc3_spec s with ⟨i, j, k, heq, hi, -⟩ | ⟨d, g, heq, -, -⟩
  · rw [State.tryStart, heq]
    refine ⟨fun n hn => ?_, fun _ _ => rfl, fun c x y z hc => .inl (hcalls c x y z _ hc)⟩
    have hlen := (length_lt h (not_mem_of_free h hi)).1
    simp only [State.send, State.take, h.availIdx, ofNat_u16]
    exact update_of_ne (ofNat_ne hn (by omega)) ..
  · rw [State.tryStart, heq]
    exact ⟨fun _ _ => rfl, fun _ _ => rfl, fun c x y z hc => .inl (hcalls c x y z _ hc)⟩

theorem inv_finish (hb : s.phase b = .sent i j k) (hd : s.disk b = false) :
    Inv (s.finish b i) la lu ∧ Kept s (s.finish b i) la lu := by
  have hl := h.linked b i j k hb
  have hmine : ∀ x, x = i ∨ x = j ∨ x = k → s.free x = false := fun x hx => (h.free x).mpr ⟨b, i, j, k, hb, hx⟩
  obtain ⟨g, hg, heq⟩ := finish_spec b h.ok hl (hmine i (.inl rfl)) (hmine j (.inr (.inl rfl)))
    (hmine k (.inr (.inr rfl)))
  rw [heq]
  have hphase : ∀ c x y z, update s.phase b .idle c = .sent x y z ↔ c ≠ b ∧ s.phase c = .sent x y z := by
    intro c x y z
    by_cases hc : c = b
    · simp [hc]
    · simp [hc]
  have hother : ∀ c x, c ≠ b → Uses s c x → x ≠ i ∧ x ≠ j ∧ x ≠ k := by
    intro c x hcb hc
    have hn : ¬(x = i ∨ x = j ∨ x = k) := fun hx => hcb (h.disjoint c b x hc ⟨i, j, k, hb, hx⟩)
    simpa using hn
  have huses : ∀ t : State B, t.phase = update s.phase b .idle → ∀ c x, Uses t c x ↔ c ≠ b ∧ Uses s c x := by
    intro t ht c x
    simp only [Uses, ht, hphase, and_assoc, exists_and_left]
  have hkeep : ∀ {α : Type} (f : Fin NUM → α) (a : α) c x, c ≠ b → Uses s c x →
      update (update (update f i a) j a) k a x = f x := by
    intro α f a c x hcb hc
    obtain ⟨h₁, h₂, h₃⟩ := hother c x hcb hc
    rw [update_of_ne h₃, update_of_ne h₂, update_of_ne h₁]
  refine ⟨{
    h with
    mem := fun x => by
      refine (h.mem x).trans ?_
      simp only [hphase]
      constructor
      · rintro ⟨c, y, z, hc, hdc⟩
        refine ⟨c, y, z, ⟨?_, hc⟩, hdc⟩
        rintro rfl
        rw [hd] at hdc
        cases hdc
      · rintro ⟨c, y, z, ⟨-, hc⟩, hdc⟩
        exact ⟨c, y, z, hc, hdc⟩
    status := fun x hx => by
      by_cases hxi : x = i
      · subst hxi
        simp only [update_self]
        exact h.status x hx
      · simp only [update_of_ne hxi]
        exact h.status x hx
    owner := fun c x y z hc => by
      obtain ⟨hcb, hc⟩ := (hphase c x y z).mp hc
      have hxi := (hother c x hcb ⟨x, y, z, hc, .inl rfl⟩).1
      simp only [update_of_ne hxi]
      exact h.owner c x y z hc
    linked := fun c x y z hc => by
      obtain ⟨hcb, hc⟩ := (hphase c x y z).mp hc
      exact (h.linked c x y z hc).congr fun w hw => hkeep s.desc .zero c w hcb ⟨x, y, z, hc, hw⟩
    disjoint := fun c c' x hc hc' => h.disjoint c c' x ((huses _ rfl c x).mp hc).2 ((huses _ rfl c' x).mp hc').2
    free := fun x => by
      refine Iff.trans ?_ (exists_congr fun c => (huses _ rfl c x).symm)
      constructor
      · intro hx
        have hn : ¬(x = i ∨ x = j ∨ x = k) := by
          rintro (rfl | rfl | rfl) <;> simp [update_apply] at hx
        simp only [not_or] at hn
        simp only [update_of_ne hn.2.2, update_of_ne hn.2.1, update_of_ne hn.1] at hx
        obtain ⟨c, hc⟩ := (h.free x).mp hx
        refine ⟨c, ?_, hc⟩
        rintro rfl
        obtain ⟨i', j', k', hb', hx'⟩ := hc
        rw [hb] at hb'
        cases hb'
        simp [hn] at hx'
      · rintro ⟨c, hcb, hc⟩
        exact (hkeep s.free true c x hcb hc).trans ((h.free x).mpr ⟨c, hc⟩)
    done := fun c x y z hc => h.done c x y z ((hphase c x y z).mp hc).2
    sleeps := fun c c' hc => h.sleeps c c' (hg c c' hc) }, fun _ _ => rfl, fun _ _ => rfl, ?_⟩
  intro c x y z hc
  by_cases hcb : c = b
  · subst hcb
    exact .inr (h.done c i j k hb (.inl hd))
  · exact .inl ((update_of_ne hcb ..).trans hc)

theorem inv_resume (hs : s.resume b = some t) : ∃ la', Inv t la' lu ∧ Kept s t la lu := by
  unfold State.resume at hs
  split at hs
  · rename_i write blockno hc hp
    cases hs
    have hb : ∀ i j k, s.phase b ≠ .sent i j k := by simp [hp]
    obtain ⟨la', hinv⟩ := inv_tryStart h hb write blockno
    exact ⟨la', hinv, kept_tryStart h hb write blockno⟩
  · rename_i i j k hc hp
    split at hs
    · cases hs
      refine ⟨la, ⟨h.ok, h.avail, h.availIdx, h.used, h.usedIdx, h.fetched, h.seen, h.nodup, h.mem, h.status, h.owner,
        h.linked, h.disjoint, h.free, h.done, ?_⟩, fun _ _ => rfl, fun _ _ => rfl, fun _ _ _ _ hc => .inl hc⟩
      intro c c' hcc
      by_cases hcb : c = b
      · subst hcb
        simp only [update_self, Option.some.injEq, Chan.buf.injEq] at hcc
        exact hcc.symm
      · simp only [update_of_ne hcb] at hcc
        exact h.sleeps c c' hcc
    · rename_i hd
      cases hs
      exact ⟨la, inv_finish h hp (Bool.not_eq_true _ ▸ hd)⟩
  · cases hs

omit [DecidableEq B] in
theorem inv_fetch (hs : s.fetch = some t) : ∃ la', Inv t la' lu ∧ Kept s t la lu := by
  rw [State.fetch] at hs
  split at hs
  · cases hs
  · rename_i hne
    cases hs
    cases hla : la with
    | nil =>
      have hidx := h.availIdx
      rw [hla, List.length_nil, Nat.add_zero] at hidx
      exact absurd ((Nat.mod_eq_of_lt h.fetched).symm.trans hidx.symm) hne
    | cons a l =>
      subst hla
      have hhead : s.avail (Fin.ofNat NUM s.fetched) = a := window_head h.avail
      have hperm : (l ++ (s.working ++ [a]) ++ lu).Perm (a :: l ++ s.working ++ lu) := by
        simp only [List.append_assoc, List.cons_append, List.nil_append]
        rw [← List.append_assoc l, ← List.append_assoc l]
        exact List.perm_middle
      rw [hhead]
      refine ⟨l, ⟨h.ok, ?_, ?_, h.used, h.usedIdx, u16_lt _, h.seen, ?_, ?_, h.status, h.owner, h.linked, h.disjoint,
        h.free, h.done, h.sleeps⟩, fun _ _ => rfl, fun _ _ => rfl, fun _ _ _ _ hc => .inl hc⟩
      · exact window_u16.mpr (window_tail h.avail)
      · rw [u16_add, h.availIdx, List.length_cons]
        congr 1
        omega
      · exact hperm.nodup_iff.mpr h.nodup
      · intro x
        exact hperm.mem_iff.trans (h.mem x)

omit [DecidableEq B] in
theorem statusOf_eq (hb : s.phase b = .sent i j k) : s.statusOf i = some i := by
  have hl := h.linked b i j k hb
  have hj : s.descAt j.val = s.desc j := dif_pos j.isLt
  have hk : s.descAt k.val = s.desc k := dif_pos k.isLt
  rw [State.statusOf, hl.first.1, hl.first.2, hj, hl.second.1, hl.second.2, hk, hl.third.2]
  rfl

theorem inv_complete {id : Fin NUM} (hs : s.complete id = some t) : ∃ lu', Inv t la lu' ∧ Kept s t la lu := by
  rw [State.complete] at hs
  split at hs
  · rename_i hid
    cases hs
    obtain ⟨b, j, k, hb, hd⟩ := (h.mem id).mp (List.mem_append_left _ (List.mem_append_right _ hid))
    have hperm : (la ++ s.working.erase id ++ (lu ++ [id])).Perm (la ++ s.working ++ lu) := by
      have hw : (s.working.erase id ++ (lu ++ [id])).Perm (s.working ++ lu) := by
        calc (s.working.erase id ++ (lu ++ [id])).Perm (id :: (s.working.erase id ++ lu)) := by
              rw [← List.append_assoc]
              exact List.perm_append_singleton id _
          List.Perm _ (s.working ++ lu) := ((List.perm_cons_erase hid).append_right lu).symm
      rw [List.append_assoc, List.append_assoc]
      exact hw.append_left la
    have hnot : id ∉ lu := by
      have hn := hperm.nodup_iff.mpr h.nodup
      have hn' := (List.nodup_append.mp hn).2.1
      intro hmem
      exact (List.nodup_append.mp hn').2.2 id hmem id (List.mem_singleton_self id) rfl
    have hlen : lu.length < NUM := by
      have hn := ((hperm.nodup_iff.mpr h.nodup).of_append_right).length_le_card
      simp only [List.length_append, List.length_singleton, Fintype.card_fin] at hn
      omega
    rw [statusOf_eq h hb]
    have hinfo : ∀ x, ((s.clearStatus (some id)) x).b = (s.info x).b := by
      intro x
      simp only [State.clearStatus]
      by_cases hx : x = id
      · rw [hx, update_self]
      · rw [update_of_ne hx]
    refine ⟨lu ++ [id], {
      h with
      used := by
        simp only [h.usedIdx, ofNat_u16]
        exact window_push h.used hlen
      usedIdx := by simp only [h.usedIdx, u16_add, List.length_append, List.length_singleton, Nat.add_assoc]
      nodup := hperm.nodup_iff.mpr h.nodup
      mem := fun x => hperm.mem_iff.trans (h.mem x)
      status := fun x hx => by
        simp only [State.clearStatus]
        by_cases hxid : x = id
        · rw [hxid, update_self]
        · rw [update_of_ne hxid]
          exact h.status x ((List.mem_append.mp hx).resolve_right fun hm => hxid (List.mem_singleton.mp hm))
      owner := fun c x y z hc => (hinfo x).trans (h.owner c x y z hc)
      done := fun c x y z hc hdone => by
        simp only
        split
        · rfl
        · rename_i hne
          refine h.done c x y z hc (hdone.imp_right fun hx => (List.mem_append.mp hx).resolve_right fun hm => hne ?_)
          rw [← List.mem_singleton.mp hm]
          exact h.owner c x y z hc }, fun _ _ => rfl, ?_, fun _ _ _ _ hc => .inl hc⟩
    intro n hn
    simp only [h.usedIdx, ofNat_u16]
    exact update_of_ne (ofNat_ne hn (by omega)) ..
  · cases hs

theorem intr_spec (hs : s.intr = some t) : ∃ a l b j k, lu = a :: l ∧ s.used (Fin.ofNat NUM s.seen) = a ∧
    s.phase b = .sent a j k ∧ s.disk b = true ∧
      t = { s.wakeup (.buf b) with disk := update s.disk b false, seen := u16 (s.seen + 1) } := by
  rw [State.intr] at hs
  split at hs
  · cases hs
  · rename_i hne
    cases hlu : lu with
    | nil =>
      have hidx := h.usedIdx
      rw [hlu, List.length_nil, Nat.add_zero] at hidx
      exact absurd ((Nat.mod_eq_of_lt h.seen).symm.trans hidx.symm) hne
    | cons a l =>
      have hhead : s.used (Fin.ofNat NUM s.seen) = a := window_head (l := l) (by rw [← hlu]; exact h.used)
      have hmem : a ∈ lu := by rw [hlu]; exact List.mem_cons_self
      obtain ⟨b, j, k, hb, hd⟩ := (h.mem a).mp (List.mem_append_right _ hmem)
      rw [hhead, h.status a hmem, if_neg (not_not_intro rfl), h.owner b a j k hb] at hs
      cases hs
      exact ⟨a, l, b, j, k, rfl, hhead, hb, hd, rfl⟩

theorem inv_intr (hs : s.intr = some t) : ∃ lu', Inv t la lu' ∧ Kept s t la lu := by
  obtain ⟨a, l, b, j, k, rfl, -, hb, hd, rfl⟩ := intr_spec h hs
  have hperm : (la ++ s.working ++ a :: l).Perm (a :: (la ++ s.working ++ l)) := List.perm_middle
  have hnodup := List.nodup_cons.mp (hperm.nodup_iff.mp h.nodup)
  have hdisk : ∀ c x y z, s.phase c = .sent x y z → x ≠ a →
      update s.disk b false c = s.disk c := by
    intro c x y z hc hxa
    refine update_of_ne ?_ ..
    rintro rfl
    rw [hb] at hc
    cases hc
    exact hxa rfl
  refine ⟨l, ⟨h.ok, h.avail, h.availIdx, ?_, ?_, h.fetched, u16_lt _, hnodup.2, ?_, ?_, h.owner, h.linked,
    h.disjoint, h.free, ?_, ?_⟩, fun _ _ => rfl, fun _ _ => rfl, fun _ _ _ _ hc => .inl hc⟩
  · exact window_u16.mpr (window_tail h.used)
  · rw [u16_add]
    refine h.usedIdx.trans ?_
    rw [List.length_cons]
    congr 1
    omega
  · intro x
    constructor
    · intro hx
      have hxa : x ≠ a := by
        rintro rfl
        exact hnodup.1 hx
      obtain ⟨c, y, z, hc, hdc⟩ := (h.mem x).mp (hperm.mem_iff.mpr (List.mem_cons_of_mem a hx))
      exact ⟨c, y, z, hc, (hdisk c x y z hc hxa).trans hdc⟩
    · rintro ⟨c, y, z, hc, hdc⟩
      have hxa : x ≠ a := by
        rintro rfl
        rw [sent_unique h hc hb] at hdc
        simp at hdc
      have hx := hperm.mem_iff.mp ((h.mem x).mpr ⟨c, y, z, hc, (hdisk c x y z hc hxa).symm.trans hdc⟩)
      exact (List.mem_cons.mp hx).resolve_left hxa
  · exact fun x hx => h.status x (List.mem_cons_of_mem a hx)
  · intro c x y z hc hdone
    by_cases hxa : x = a
    · subst hxa
      exact h.done c x y z hc (.inr List.mem_cons_self)
    · refine h.done c x y z hc (hdone.imp ?_ (List.mem_cons_of_mem a))
      exact fun hdc => (hdisk c x y z hc hxa).symm.trans hdc
  · exact fun c c' hc => h.sleeps c c' (woken_wakeup s (.buf b) c c' hc)

theorem inv_step {e : Event B} (hs : s.step e = some t) : ∃ la' lu', Inv t la' lu' ∧ Kept s t la lu := by
  cases e with
  | rw b write blockno =>
    simp only [State.step] at hs
    split at hs
    · rename_i hp hok
      cases hs
      have hb : ∀ i j k, s.phase b ≠ .sent i j k := by simp [hp]
      obtain ⟨la', hinv⟩ := inv_tryStart h hb write blockno
      exact ⟨la', lu, hinv, kept_tryStart h hb write blockno⟩
    · cases hs
  | resume b =>
    simp only [State.step] at hs
    split at hs
    · obtain ⟨la', hinv⟩ := inv_resume h hs
      exact ⟨la', lu, hinv⟩
    · cases hs
  | fetch =>
    obtain ⟨la', hinv⟩ := inv_fetch h hs
    exact ⟨la', lu, hinv⟩
  | complete id =>
    obtain ⟨lu', hinv⟩ := inv_complete h hs
    exact ⟨la, lu', hinv⟩
  | intr =>
    simp only [State.step] at hs
    split at hs
    · obtain ⟨lu', hinv⟩ := inv_intr h hs
      exact ⟨la, lu', hinv⟩
    · cases hs

end Steps

/-- The number of entries between two positions of a ring. -/
def pending (idx start : Nat) : Nat := u16 (idx + (2 ^ 16 - start))

theorem pending_eq {start n : Nat} (hs : start < 2 ^ 16) (hn : n < 2 ^ 16) : pending (u16 (start + n)) start = n := by
  simp only [pending, u16]
  omega

omit [DecidableEq B] in
theorem length_le (h : Inv s la lu) : la.length ≤ NUM ∧ lu.length ≤ NUM := by
  have hlen := h.nodup.length_le_card
  simp only [List.length_append, Fintype.card_fin] at hlen
  omega

end AdaptiveXv6.DiskProtocol
