import AdaptiveXv6.TableSteps

namespace AdaptiveXv6.InodeSteps

open Blocks Content Store Programs BlockMaps Truncation InodeTable Nodes TableSteps Function

variable {sb : Superblock} {fs : Fs} {T : Tree} {R : Nat → Nat} {t L : List Nat} {i j m : Nat}

def Crowded (sb : Superblock) (R : Nat → Nat) (t : List Nat) : Prop := NINODE ≤ load sb R + t.length

theorem refs_cons (R : Nat → Nat) (t : List Nat) (i : Nat) :
    ∀ j, j ≠ i → R j + (i :: t).count j = R j + t.count j := by
  intro j hj
  rw [List.count_cons_of_ne (Ne.symm hj)]

theorem idup_spec (h : At sb T R t L m fs) (hr : 0 < (fs.itable i).ref) :
    Wp (idup i) fs (fun _ => At sb T R (i :: t) L m) fun _ => False := by
  rw [Wp, idup]
  refine h.entry rfl rfl (h.slots_setEntry (by simp [hr])) (fun _ => h.sound.range i hr)
    (fun _ hv => h.sound.synced i hr hv) (fun hlk => ⟨Nat.succ_pos _, (h.sound.locked i hlk).2⟩) ?_ (refs_cons R t i)
    (h.locks i) (fun _ _ => Iff.rfl) (fun n hn hnl _ => h.awake i n hn hnl hr)
  change (fs.itable i).ref + 1 = _
  rw [List.count_cons_self, h.refs]
  omega

theorem iget_spec (h : At sb T R t L m fs) (hc : Calm T R) (hi : i < sb.ninodes) :
    Wp (iget i) fs (fun _ => At sb T R (i :: t) L m) fun e => e = .igetNoInodes ∧ Crowded sb R t := by
  rw [Wp, iget]
  by_cases hr : 0 < (fs.itable i).ref
  · rw [if_pos hr]
    exact idup_spec h hr
  · rw [if_neg hr]
    have hr₀ : (fs.itable i).ref = 0 := by omega
    have hunlocked : ¬(fs.itable i).locked = true := fun hlk => hr (h.sound.locked i hlk).1
    by_cases hs : fs.slots = 0
    · rw [if_pos hs]
      refine ⟨rfl, ?_⟩
      have hslots := h.sound.slots
      have hle := load_le sb R t
      have href : (fun j => (fs.itable j).ref) = fun j => R j + t.count j := funext h.refs
      rw [href] at hslots
      rw [Crowded]
      omega
    · rw [if_neg hs]
      refine h.entry rfl rfl ?_ (fun _ => hi) (by simp) (by simp) ?_
        (refs_cons R t i) ⟨by simp, fun hl => absurd ((h.locks i).mpr hl) hunlocked⟩ (fun _ _ => Iff.rfl) ?_
      · have hload := load_succ (R := fun j => (fs.itable j).ref)
          (S := fun j => ((fs.setEntry i ⟨1, false, false, (fs.itable i).ip⟩).itable j).ref) hi hr₀
          (by simp [Fs.setEntry]) (fun j hj => by simp [Fs.setEntry, hj])
        have hslots := h.sound.slots
        change fs.slots - 1 + load sb (fun j => ((fs.setEntry i ⟨1, false, false, (fs.itable i).ip⟩).itable j).ref) = _
        omega
      · have := h.refs i
        rw [List.count_cons_self]
        change 1 = _
        omega
      · intro n hn hnl _
        have := hc i n hn hnl
        have := h.refs i
        omega

theorem ilock_spec (h : At sb T R t L m fs) (hr : 0 < R i + t.count i) :
    Wp (ilock sb i) fs (fun _ fs' => At sb T R t (i :: L) m fs' ∧ i ∉ L)
      fun e => e = .deadlock ∧ i ∈ L ∨ e = .ilockNoType ∧ T i = none := by
  have hr' : 0 < (fs.itable i).ref := by
    rw [h.refs]
    exact hr
  have hlocks : ∀ j, j ≠ i → (j ∈ i :: L ↔ j ∈ L) := by
    intro j hj
    simp [hj]
  rw [Wp, ilock]
  rw [if_neg (by omega)]
  by_cases hlk : (fs.itable i).locked = true
  · rw [if_pos hlk]
    exact .inl ⟨rfl, (h.locks i).mp hlk⟩
  · have hnot : i ∉ L := fun hl => hlk ((h.locks i).mpr hl)
    rw [if_neg hlk]
    by_cases hv : (fs.itable i).valid = true
    · rw [if_pos hv]
      exact ⟨h.entry rfl rfl (h.slots_setEntry Iff.rfl) (fun _ => h.sound.range i hr')
        (fun _ hv => h.sound.synced i hr' hv) (fun _ => ⟨hr', hv⟩) (h.refs i) (fun _ _ => rfl)
        ⟨fun _ => List.mem_cons_self .., fun _ => rfl⟩ hlocks
        (fun n hn hnl _ => h.awake i n hn hnl hr'), hnot⟩
    · rw [if_neg hv]
      by_cases ht : (dinode sb fs.disk i).type = 0
      · rw [if_pos ht]
        refine .inr ⟨rfl, ?_⟩
        rw [← h.tree, Nodes.tree, if_neg (fun hal => hal.2 ht)]
      · rw [if_neg ht]
        exact ⟨h.entry rfl rfl (h.slots_setEntry Iff.rfl) (fun _ => h.sound.range i hr') (fun _ _ => ⟨rfl, ht⟩)
          (fun _ => ⟨hr', rfl⟩) (h.refs i) (fun _ _ => rfl) ⟨fun _ => List.mem_cons_self .., fun _ => rfl⟩ hlocks
          (fun _ _ _ _ => rfl), hnot⟩

theorem iunlock_spec (h : At sb T R t (i :: L) m fs) (hi : i ∉ L) :
    Wp (iunlock i) fs (fun _ => At sb T R t L m) fun _ => False := by
  have hlk := (h.locks i).mpr (List.mem_cons_self ..)
  obtain ⟨hr, hv⟩ := h.sound.locked i hlk
  rw [Wp, iunlock, if_neg (by simp [hlk]; omega)]
  refine h.entry rfl rfl (h.slots_setEntry Iff.rfl) (fun _ => h.sound.range i hr)
    (fun _ hv => h.sound.synced i hr hv) (by simp) (h.refs i) (fun _ _ => rfl)
    ⟨by simp, fun hl => absurd hl hi⟩ ?_ (fun n hn hnl _ => h.awake i n hn hnl hr)
  intro j hj
  simp [hj]

def release (T : Tree) (r i : Nat) : Tree :=
  match T i with
  | some n => if n.nlink = 0 ∧ r = 0 then update T i none else T
  | none => T

theorem release_calm (h : Calm T R) (c i : Nat) : release T (R i + c) i = T := by
  rw [release]
  split
  · rename_i n hn
    rw [if_neg]
    rintro ⟨h₀, hr⟩
    have := h i n hn h₀
    omega
  · rfl

theorem unref_spec (h : At sb T R (i :: t) L m fs) (hi : i ∈ L → 0 < R i + t.count i) :
    Wp (unref i) fs (fun _ => At sb T R t L m) fun _ => False := by
  have href := h.refs i
  rw [List.count_cons_self] at href
  have hr : 0 < (fs.itable i).ref := by omega
  rw [Wp, unref]
  refine h.entry rfl rfl ?_ (fun _ => h.sound.range i hr) (fun _ hv => h.sound.synced i hr hv)
    (fun hlk => ⟨?_, (h.sound.locked i hlk).2⟩) ?_ (fun j hj => (refs_cons R t i j hj).symm) (h.locks i)
    (fun _ _ => Iff.rfl) (fun n hn hnl _ => h.awake i n hn hnl hr)
  · have hslots := h.sound.slots
    dsimp only
    split
    · rename_i h₁
      have hload := load_succ (i := i) (S := fun j => (fs.itable j).ref)
        (R := fun j => ((fs.setEntry i { fs.itable i with ref := (fs.itable i).ref - 1 }).itable j).ref)
        (h.sound.range i hr) (by simp [Fs.setEntry, h₁]) hr (fun j hj => by simp [Fs.setEntry, hj])
      change fs.slots + 1 +
        load sb (fun j => ((fs.setEntry i { fs.itable i with ref := (fs.itable i).ref - 1 }).itable j).ref) = _
      omega
    · rename_i h₁
      exact h.slots_setEntry (by simp only; omega)
  · have := hi ((h.locks i).mp hlk)
    change 0 < (fs.itable i).ref - 1
    omega
  · change (fs.itable i).ref - 1 = _
    omega

structure Freed (sb : Superblock) (i : Nat) (fs fs' : Fs) : Prop where
  valid : Valid sb (dinode sb fs'.disk) fs'.disk
  others : ∀ j, j < sb.ninodes → j ≠ i → Same sb fs.disk fs'.disk j
  type : (dinode sb fs'.disk i).type = 0
  free : ∀ b, b < sb.size → inUse sb fs.disk b = false → inUse sb fs'.disk b = false
  table : ∃ w, fs'.itable = update fs.itable i ⟨0, false, (fs.itable i).locked, w⟩
  slots : fs'.slots = fs.slots + 1
  logs : Logs fs.disk fs'.disk

theorem ifree_run (hl : Layout sb) (hgood : Good sb i (lockedInode fs i)) (href : (fs.itable i).ref = 1) :
    Wp (do ifree sb i; unref i) fs (fun _ => Freed sb i fs) fun _ => False := by
  rw [ifree]
  simp only [bind_assoc]
  refine (onInode_spec (itrunc_spec hl hgood)).bind ?_
  rintro _ _ ⟨z, hz, rfl⟩
  generalize hw : ({ z.ip with type := 0 } : Inode) = w
  have hbare : ∀ s, slots sb (dinode sb z.disk) z.disk (i, s) = 0 := by
    intro s
    rw [slots]
    dsimp only
    rw [hz.synced, hz.ip, ptr_bare rfl, ite_self]
  obtain ⟨hvalid, hsame, huse⟩ := setDinode_bare (z := w) hl (valid_of_synced hz.good hz.synced) hgood.lt hbare
    (by rw [← hw, hz.ip]) (by rw [← hw, hz.ip])
  have hfinal : (do
      onInode i (modify fun x => { x with ip := { x.ip with type := 0 } })
      onInode i (iupdate sb i)
      modify fun fs => fs.setEntry i { fs.itable i with valid := false }
      unref i : FsM Unit) (putBack fs i z) = .ok ((), ⟨setDinode sb z.disk i w,
        update fs.itable i ⟨0, false, (fs.itable i).locked, w⟩, fs.slots + 1⟩) := by
    subst hw
    simp [bind, StateT.bind, Except.bind, onInode, putBack, Fs.setEntry, modify, modifyGet, MonadStateOf.modifyGet,
      StateT.modifyGet, iupdate, unref, href, pure, Except.pure]
  refine wp_of_ok hfinal ⟨hvalid, ?_, ?_, ?_, ⟨w, rfl⟩, rfl, hz.logs.logWrite ..⟩
  · exact fun j hj hji => (hz.others j hj hji).trans (hsame j hj hji)
  · rw [dinode_setDinode_self, ← hw]
  · intro b hb hfree
    rw [huse b hb]
    exact hz.free b hb hfree

theorem ifree_spec (hl : Layout sb) (h : At sb T R (i :: t) L m fs) (hi : i ∉ L) (hr : R i + t.count i = 0)
    (hv : (fs.itable i).valid = true) :
    Wp (do ifree sb i; unref i) fs (fun _ => At sb (update T i none) R t L m) fun _ => False := by
  have href : (fs.itable i).ref = 1 := by
    rw [h.refs, List.count_cons_self]
    omega
  have hgood := h.good_of_loaded (by omega) hv
  have hunlocked : ¬(fs.itable i).locked = true := fun hlk => hi ((h.locks i).mp hlk)
  refine (ifree_run hl hgood href).imp fun _ fs' hf => ?_
  obtain ⟨w, htable⟩ := hf.table
  refine h.change hf.valid hf.others ?_ htable ?_
    (fun h₀ => absurd h₀ (Nat.lt_irrefl 0)) (fun h₀ => absurd h₀ (Nat.lt_irrefl 0))
    (fun hlk => absurd hlk hunlocked) hr.symm (fun j hj => (refs_cons R t i j hj).symm)
    ⟨fun hlk => absurd hlk hunlocked, fun hl => absurd hl hi⟩ (fun _ _ => Iff.rfl) nofun
    (h.room.congr fun b hb hfree => hf.free b hb hfree)
  · rw [Nodes.tree, if_neg]
    exact fun ha => ha.2 hf.type
  · have hload := load_succ (i := i) (S := fun j => (fs.itable j).ref)
      (R := fun j => (update fs.itable i ⟨0, false, (fs.itable i).locked, w⟩ j).ref)
      hgood.lt (by simp) (by omega) (fun j hj => by simp [hj])
    have hslots := h.sound.slots
    rw [htable, hf.slots]
    omega

theorem iput_spec (hl : Layout sb) (h : At sb T R (i :: t) L m fs) (hi : i ∈ L → 0 < R i + t.count i) :
    Wp (iput sb i) fs (fun _ => At sb (release T (R i + t.count i) i) R t L m) fun _ => False := by
  have href := h.refs i
  rw [List.count_cons_self] at href
  rw [iput]
  refine wp_get_bind ?_
  dsimp only
  by_cases hlast : (fs.itable i).ref = 1 ∧ (fs.itable i).valid = true ∧ (fs.itable i).ip.nlink = 0
  · obtain ⟨-, hip, -, hT⟩ := h.loaded (by omega) hlast.2.1
    have hi' : i ∉ L := fun hL => absurd (hi hL) (by omega)
    have hunlocked : ¬(fs.itable i).locked = true := fun hlk => hi' ((h.locks i).mp hlk)
    have hgone : release T (R i + t.count i) i = update T i none := by
      rw [release, hT]
      refine if_pos ⟨?_, by omega⟩
      change (dinode sb fs.disk i).nlink = 0
      rw [← hip]
      exact hlast.2.2
    rw [if_pos hlast, if_neg hunlocked, hgone]
    exact ifree_spec hl h hi' (by omega) hlast.2.1
  · have hkept : release T (R i + t.count i) i = T := by
      rw [release]
      split
      · rename_i n hn
        rw [if_neg]
        rintro ⟨h₀, hr⟩
        have hv := h.awake i n hn h₀ (by omega)
        obtain ⟨-, hip, -, hT⟩ := h.loaded (by omega) hv
        refine hlast ⟨by omega, hv, ?_⟩
        rw [hT] at hn
        cases hn
        rw [hip]
        exact h₀
      · rfl
    rw [if_neg hlast, hkept]
    exact wp_pure_bind (unref_spec h hi)

theorem iunlockput_spec (hl : Layout sb) (h : At sb T R (i :: t) (i :: L) m fs) (hi : i ∉ L) :
    Wp (iunlockput sb i) fs (fun _ => At sb (release T (R i + t.count i) i) R t L m) fun _ => False := by
  rw [iunlockput]
  exact (iunlock_spec h hi).bind fun _ fs' hfs' => iput_spec hl hfs' fun hL => absurd hL hi

end AdaptiveXv6.InodeSteps
