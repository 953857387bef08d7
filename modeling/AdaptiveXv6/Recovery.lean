import AdaptiveXv6.LogDisk

namespace AdaptiveXv6.Recovery

open Writes LogDisk Function

variable {start : Nat} {d : Disk} {h : Nat → Block} {lh : List Nat}

/-- The disk stands for the contents h of the home blocks: recovery would put h there. A block that the header
lists is found in the log. -/
structure Stands (start : Nat) (h : Nat → Block) (d : Disk) : Prop where
  room : (getHead (d start)).length ≤ LOGBLOCKS
  home : ∀ b ∈ getHead (d start), Home start b
  logged : ∀ i (hi : i < (getHead (d start)).length), d (start + i + 1) = h (getHead (d start))[i]
  rest : ∀ b, Home start b → b ∉ getHead (d start) → d b = h b

structure Clean (start : Nat) (h : Nat → Block) (d : Disk) : Prop where
  empty : getHead (d start) = []
  home : ∀ b, Home start b → d b = h b

theorem Clean.stands (hc : Clean start h d) : Stands start h d where
  room := by simp [hc.empty]
  home b hb := by simp [hc.empty] at hb
  logged i hi := by simp [hc.empty] at hi
  rest b hb _ := hc.home b hb

theorem getHead_cleared (v : Block) : getHead (putHead [] v) = [] :=
  getHead_putHead (Nat.zero_le _) (fun _ hb => by cases hb) v

theorem Stands.install (hs : Stands start h d) {b : Nat} (hb : b ∈ getHead (d start)) (v : Block) :
    Stands start h (update d b v) ∧ update d b v start = d start := by
  have hout := (hs.home b hb).2
  have hhead : update d b v start = d start := update_of_ne (by omega) _ _
  refine ⟨⟨?_, ?_, ?_, ?_⟩, hhead⟩
  · rw [hhead]; exact hs.room
  · rw [hhead]; exact hs.home
  · intro i hi
    have hroom := hs.room
    simp only [hhead] at hi ⊢
    rw [update_of_ne (by omega)]
    exact hs.logged i hi
  · intro a ha hn
    rw [hhead] at hn
    have hne : a ≠ b := fun he => hn (he ▸ hb)
    rw [update_of_ne hne]
    exact hs.rest a ha hn

theorem install_through {bs : List Nat} (hs : Stands start h d) (hsub : ∀ b ∈ bs, b ∈ getHead (d start))
    (hdone : ∀ b ∈ getHead (d start), b ∈ bs ∨ d b = h b) (y : Block) :
    Through (Stands start h) (Clean start h) d (bs.map (fun b => (b, h b)) ++ [(start, putHead [] y)]) := by
  induction bs generalizing d with
  | nil =>
    have hclean : Clean start h (update d start (putHead [] y)) := by
      refine ⟨by rw [update_self]; exact getHead_cleared y, ?_⟩
      intro b hb
      have hne : b ≠ start := by
        have := hb.2
        omega
      rw [update_of_ne hne]
      by_cases hm : b ∈ getHead (d start)
      · rcases hdone b hm with hn | hd
        · cases hn
        · exact hd
      · exact hs.rest b hb hm
    exact .write hs (.done hclean.stands hclean)
  | cons b bs ih =>
    obtain ⟨hs', hhead⟩ := hs.install (hsub b (List.mem_cons_self ..)) (h b)
    refine .write hs (ih hs' ?_ ?_)
    · intro a ha
      rw [hhead]
      exact hsub a (List.mem_cons_of_mem _ ha)
    · intro a ha
      rw [hhead] at ha
      by_cases hab : a = b
      · right
        rw [hab, update_self]
      · rw [update_of_ne hab]
        rcases hdone a ha with hm | hd
        · exact .inl (by simpa [hab] using hm)
        · exact .inr hd

/-- However often recovery is cut short, the disk stands for the same contents, which are at home once it
completes. -/
theorem recover_through (hs : Stands start h d) :
    Through (Stands start h) (Clean start h) d (recoverWrites start d) := by
  obtain ⟨y, hw⟩ := recoverWrites_eq hs.room hs.home
  rw [hw, homeWrites_logged (v := h) (fun i hi => by rw [Nat.add_zero]; exact hs.logged i hi)]
  exact install_through hs (fun _ hb => hb) (fun _ hb => .inl hb) y

def updated (h v : Nat → Block) (lh : List Nat) : Nat → Block := fun b => if b ∈ lh then v b else h b

theorem log_through {v : Nat → Block} {bs : List Nat} {tail : Nat} (hc : Clean start h d)
    (hlh : lh.length ≤ LOGBLOCKS) (hbs : lh.drop tail = bs)
    (hdone : ∀ i (hi : i < lh.length), i < tail → d (start + i + 1) = v lh[i]) :
    Through (Stands start h) (fun d => Clean start h d ∧
      ∀ i (hi : i < lh.length), d (start + i + 1) = v lh[i]) d (logWrites start v tail bs) := by
  induction bs generalizing d tail with
  | nil =>
    refine .done hc.stands ⟨hc, ?_⟩
    intro i hi
    have := List.drop_eq_nil_iff.mp hbs
    exact hdone i hi (by omega)
  | cons b bs ih =>
    have hlt : tail < lh.length := by
      by_contra hge
      rw [List.drop_eq_nil_iff.mpr (by omega)] at hbs
      cases hbs
    have hb : lh[tail] = b ∧ lh.drop (tail + 1) = bs := by
      rw [List.drop_eq_getElem_cons hlt] at hbs
      exact List.cons.inj hbs
    have hc' : Clean start h (update d (start + tail + 1) (v b)) := by
      refine ⟨by rw [update_of_ne (by omega)]; exact hc.empty, ?_⟩
      intro a ha
      have hne : a ≠ start + tail + 1 := by
        have := ha.2
        omega
      rw [update_of_ne hne]
      exact hc.home a ha
    refine .write hc.stands (ih hc' hb.2 ?_)
    intro i hi hlt'
    by_cases hit : i = tail
    · subst hit
      rw [update_self, hb.1]
    · rw [update_of_ne (by omega)]
      exact hdone i hi (by omega)

theorem Clean.commit {v : Nat → Block} (hc : Clean start h d) (hlh : lh.length ≤ LOGBLOCKS)
    (hb : ∀ b ∈ lh, Home start b) (hlog : ∀ i (hi : i < lh.length), d (start + i + 1) = v lh[i]) (x : Block) :
    Stands start (updated h v lh) (update d start (putHead lh x)) ∧
      getHead (update d start (putHead lh x) start) = lh := by
  have hhead : getHead (update d start (putHead lh x) start) = lh := by
    rw [update_self]
    exact getHead_putHead hlh (fun b h => (hb b h).1) x
  refine ⟨⟨?_, ?_, ?_, ?_⟩, hhead⟩
  · rw [hhead]; exact hlh
  · rw [hhead]; exact hb
  · intro i hi
    simp only [hhead] at hi ⊢
    rw [update_of_ne (by omega), hlog i hi, updated, if_pos (List.getElem_mem hi)]
  · intro b hhome hn
    rw [hhead] at hn
    have hne : b ≠ start := by
      have := hhome.2
      omega
    rw [update_of_ne hne, updated, if_neg hn]
    exact hc.home b hhome

/-- However commit() is cut short, the disk stands for the contents before or after the transaction. -/
theorem commit_through (cache : Nat → Option Block) (hc : Clean start h d) (hlh : lh.length ≤ LOGBLOCKS)
    (hb : ∀ b ∈ lh, Home start b) :
    Through (fun d' => Stands start h d' ∨ Stands start (updated h (contents d cache) lh) d')
      (Clean start (updated h (contents d cache) lh)) d (commitWrites start d cache lh) := by
  by_cases hne : lh = []
  · subst hne
    have hsame : updated h (contents d cache) [] = h := by
      funext b
      simp [updated]
    rw [commitWrites_nil, hsame]
    exact .done (.inl hc.stands) hc
  obtain ⟨x, y, hw⟩ := commitWrites_eq d cache hne hlh hb
  have hmap : lh.map (fun b => (b, contents d cache b)) =
      lh.map fun b => (b, updated h (contents d cache) lh b) := by
    refine List.map_congr_left (fun b hm => ?_)
    rw [updated, if_pos hm]
  rw [hw, hmap]
  have hlog := (log_through (v := contents d cache) hc hlh (List.drop_zero (l := lh))
    (fun _ _ hlt => absurd hlt (Nat.not_lt_zero _)))
  refine (hlog.mono (fun _ => .inl) (fun _ => id)).append ?_
  intro d₁ hd₁
  obtain ⟨hs, hhead⟩ := hd₁.1.commit hlh hb hd₁.2 x
  refine .write (.inl hd₁.1.stands) ?_
  refine (install_through hs (by rw [hhead]; exact fun _ h => h) (by rw [hhead]; exact fun _ => .inl) y).mono
    (fun _ => .inr) (fun _ => id)

/-- The disk after a completed recovery. -/
def recovered (start : Nat) (d : Disk) : Disk := (recoverFromLog start ⟨d, fun _ => none, [], []⟩).disk

theorem installFrom_disk (start : Nat) {s : Store} (hs : s.disk = apply d s.issued) (tail : Nat) (bs : List Nat) :
    (installFrom start tail bs s).disk = apply d (installFrom start tail bs s).issued := by
  induction bs generalizing tail s with
  | nil => exact hs
  | cons b bs ih =>
    refine ih ?_ _
    simp only [bwrite, apply_append, ← hs]
    rfl

theorem recovered_eq (start : Nat) (d : Disk) : recovered start d = apply d (recoverWrites start d) := by
  have h := installFrom_disk start (s := readHead start ⟨d, fun _ => none, [], []⟩) (d := d) rfl 0
    (getHead (d start))
  simp only [recovered, recoverWrites, recoverFromLog, writeHead, bwrite, apply_append]
  rw [show (clear (installTrans start (readHead start ⟨d, fun _ => none, [], []⟩))).disk = _ from h]
  rfl

theorem putHead_idem (v : Block) : putHead [] (putHead [] v) = putHead [] v := by
  funext i
  simp only [putHead]
  split
  · rfl
  · split <;> rfl

theorem recovered_header (start : Nat) (d : Disk) : ∃ v, recovered start d start = putHead [] v := by
  refine ⟨bread (clear (installTrans start (readHead start ⟨d, fun _ => none, [], []⟩))) start, ?_⟩
  exact update_self ..

theorem recovered_idem (start : Nat) (d : Disk) : recovered start (recovered start d) = recovered start d := by
  obtain ⟨v, hv⟩ := recovered_header start d
  generalize recovered start d = d' at hv
  have hwrites : recoverWrites start d' = [(start, putHead [] (d' start))] := by
    have hempty : getHead (d' start) = [] := by rw [hv]; exact getHead_cleared v
    have hread : readHead start ⟨d', fun _ => none, [], []⟩ = ⟨d', fun _ => none, [], []⟩ := by
      simp only [readHead, bread, Option.getD_none, hempty]
    rw [recoverWrites, recoverFromLog, hread]
    rfl
  rw [recovered_eq, hwrites, apply, apply, hv, putHead_idem, ← hv, update_eq_self]

end AdaptiveXv6.Recovery
