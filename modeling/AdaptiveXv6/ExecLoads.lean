import AdaptiveXv6.SpaceCopies

namespace AdaptiveXv6.ExecLoads

open MemLayout Words Bytes Programs PageTables PageOwnership PageMaps AddressSpaces SpaceSteps SpaceCopies

variable {P : Type} [DecidableEq P] {s t u : Vm P} {q : Option P}
  {lo trampoline frame sz v n x va : Nat} {pt : PageTable} {file : Image}

structure Loaded (trampoline frame sz : Nat) (pt : PageTable) : Prop extends Space trampoline frame sz pt where
  dense : ∀ v, v < pages sz → ∃ e, pt.leaf v = some e ∧ e.user = true

theorem Loaded.ne_none (h : Loaded trampoline frame sz pt) (hv : v < pages sz) : pt.leaf v ≠ none := by
  obtain ⟨e, he, -⟩ := h.dense v hv
  rw [he]
  exact Option.some_ne_none e

structure Building (lo trampoline frame sz : Nat) (s t : Vm P) : Prop where
  owned : Owned lo [] t
  apart : Apart none s t
  loaded : Loaded trampoline frame sz (t.pt none)

omit [DecidableEq P] in
theorem Building.quiet (h : Building lo trampoline frame sz s t) (hquiet : Quiet t u) (hu : Owned lo [] u) :
    Building lo trampoline frame sz s u :=
  ⟨hu, h.apart.trans (hquiet.only none).toApart, by rw [hquiet.pt]; exact h.loaded⟩

section Reads

theorem walkaddr_user {e : Pte} (h : Shape (s.pt q)) (hv : va / PGSIZE < UPAGES)
    (hleaf : (s.pt q).leaf (va / PGSIZE) = some e) (he : e.user = true) :
    Wp (walkaddr q va) s (fun x t => t = s ∧ x = e.page ∧ x ≠ 0) fun _ => False := by
  have hva : ¬va ≥ MAXVA := by
    change va / 4096 < 2 ^ 26 - 2 at hv
    change ¬va ≥ 2 ^ 38
    omega
  rw [walkaddr, if_neg hva]
  refine wp_lookup h (lt_vpages hv) ?_
  rw [hleaf]
  refine wp_pure ⟨rfl, if_pos he, ?_⟩
  rw [if_pos he]
  exact h.page _ e hv hleaf

theorem field_lt (l : List Byte) (o n : Nat) : field l o n < 256 ^ n := by
  rw [field]
  generalize hks : List.range n = ks
  have hn : n = ks.length := by rw [← hks, List.length_range]
  rw [hn]
  clear hks hn
  induction ks with
  | nil => exact Nat.one_pos
  | cons k ks ih =>
    rw [List.foldr_cons, List.length_cons, Nat.pow_succ]
    have hbyte := (l.getD (o + k) 0).isLt
    omega

theorem length_string {l : List Byte} (h : l.any (· == 0) = true) : (l.takeWhile (· != 0)).length < l.length := by
  induction l with
  | nil => cases h
  | cons b l ih =>
    rw [List.takeWhile_cons]
    by_cases hb : b = 0
    · rw [if_neg (by simp [hb])]
      exact Nat.succ_pos _
    · rw [if_pos (by simpa using hb)]
      rw [List.any_cons, Bool.or_eq_true] at h
      exact Nat.succ_lt_succ (ih (h.resolve_left (by simpa using hb)))

theorem copyinstrLoop_spec (h : Shape (s.pt q)) (turns srcva max : Nat) :
    Wp (copyinstrLoop q turns srcva max) s (fun r t => t = s ∧ ∀ l, r = some l → l.length < max) fun _ => False := by
  induction turns generalizing srcva max with
  | zero => exact wp_pure ⟨rfl, fun l hl => by cases hl⟩
  | succ turns ih =>
    rw [copyinstrLoop]
    refine wp_ite (fun _ => wp_pure ⟨rfl, fun l hl => by cases hl⟩) fun hmax => ?_
    refine (walkaddr_spec h (pageOf srcva)).bind_reads fun x _ => ?_
    refine wp_ite (fun _ => wp_pure ⟨rfl, fun l hl => by cases hl⟩) fun _ => ?_
    refine wp_get_bind ?_
    dsimp only
    generalize hl : (List.range (min (PGSIZE - (srcva - pageOf srcva)) max)).map
      (fun k => s.byte x (srcva - pageOf srcva + k)) = l
    have hlen : l.length = min (PGSIZE - (srcva - pageOf srcva)) max := by
      rw [← hl, List.length_map, List.length_range]
    split
    · rename_i hany
      refine wp_pure ⟨rfl, fun l' hl' => ?_⟩
      cases hl'
      exact Nat.lt_of_lt_of_le (length_string hany) (hlen ▸ Nat.min_le_right _ _)
    · refine (ih (pageOf srcva + PGSIZE) (max - min (PGSIZE - (srcva - pageOf srcva)) max)).bind_reads fun r hr => ?_
      refine wp_pure ⟨rfl, fun l' hl' => ?_⟩
      obtain ⟨rest, hrest, rfl⟩ := Option.map_eq_some_iff.mp hl'
      have hlt := hr rest hrest
      rw [List.length_append, hlen]
      omega

end Reads

section Segments

theorem loadsegLoop_spec {offset turns i : Nat} (h : Owned lo [] s) (hwrap : va + sz ≤ 2 ^ 64)
    (hpages : ∀ j, j < sz → (va + j) / PGSIZE < UPAGES ∧ ∃ e, (s.pt q).leaf ((va + j) / PGSIZE) = some e ∧ e.user = true)
    (hturns : ∀ k, k < turns → i + k * PGSIZE < sz) :
    Wp (loadsegLoop q va file offset sz turns i) s (fun _ t => Quiet s t ∧ Owned lo [] t) fun _ => False := by
  induction turns generalizing s i with
  | zero => exact wp_pure ⟨⟨rfl, rfl, rfl, rfl, rfl⟩, h⟩
  | succ turns ih =>
    have hi : i < sz := by
      have hfirst := hturns 0 (Nat.succ_pos turns)
      rwa [Nat.zero_mul, Nat.add_zero] at hfirst
    obtain ⟨hv, e, hleaf, he⟩ := hpages i hi
    rw [loadsegLoop, u64_of_lt (by omega)]
    refine (walkaddr_user (h.shape q) hv hleaf he).bind_reads fun x hx => ?_
    rw [if_neg hx.2]
    refine wp_modify_bind ?_
    generalize hs₁ : { s with byte := Function.update s.byte x (store (s.byte x)
      (0, file.readi (u32 (offset + i)) (min (sz - i) PGSIZE))) } = s₁
    have hquiet : Quiet s s₁ := hs₁ ▸ ⟨rfl, rfl, rfl, rfl, rfl⟩
    have h₁ : Owned lo [] s₁ := hs₁ ▸ h.perm rfl rfl (List.Perm.refl _)
    split
    · exact wp_pure ⟨hquiet, h₁⟩
    · have hpages₁ : ∀ j, j < sz → (va + j) / PGSIZE < UPAGES ∧
          ∃ e, (s₁.pt q).leaf ((va + j) / PGSIZE) = some e ∧ e.user = true := by
        rw [hquiet.pt]
        exact hpages
      refine (ih h₁ hpages₁ fun k hk => ?_).imp fun _ t ht => ⟨hquiet.trans ht.1, ht.2⟩
      have hnext := hturns (k + 1) (Nat.succ_lt_succ hk)
      have hmul : (k + 1) * PGSIZE = k * PGSIZE + PGSIZE := Nat.succ_mul k PGSIZE
      omega

theorem pages_turns (k : Nat) (hk : k < pages sz) : k * PGSIZE < sz := by
  simp only [pages, PGROUNDUP, PGSIZE] at hk ⊢
  omega

theorem div_lt_pages (h : v < sz) : v / PGSIZE < pages sz := by
  simp only [pages, PGROUNDUP, PGSIZE]
  omega

theorem le_of_pages {m : Nat} (h : pages m ≤ UPAGES) : m ≤ TRAPFRAME := by
  simp only [pages, PGROUNDUP, PGSIZE] at h
  change (m + 4096 - 1) / 4096 * 4096 / 4096 ≤ 2 ^ 26 - 2 at h
  change m ≤ 2 ^ 38 - 4096 - 4096
  omega

theorem uvmalloc_building {newsz : Nat} {write exec : Bool} (h : Building lo trampoline frame sz s t) :
    Wp (uvmalloc lo none sz newsz write exec) t (fun r u =>
      (r ≠ 0 → r = max sz newsz ∧ Building lo trampoline frame r s u ∧
        Fresh (t.pt none).leaf (u.pt none).leaf (pages sz) (pages r) write exec) ∧
      (r = 0 → Building lo trampoline frame sz s u)) fun _ => False := by
  have hl := h.loaded
  refine (uvmalloc_spec h.owned hl.root hl.size hl.above (.inr fun w hw => hl.ne_none hw)).imp ?_
  rintro r u ⟨honly, hu, hcases⟩
  have hapart := h.apart.trans honly.toApart
  have hle := pages_le_upages hl.size
  have hsame : (u.pt none).leaf = (t.pt none).leaf → Building lo trampoline frame sz s u := by
    intro heq
    refine ⟨hu, hapart, ⟨hl.toSpace.update honly.root hl.size ?_ ?_, ?_⟩⟩ <;> rw [heq]
    · exact hl.above
    · exact fun _ _ => rfl
    · exact hl.dense
  rcases hcases with ⟨hr, hfit, hfresh⟩ | ⟨hr, hleaf⟩
  · have hle' : pages sz ≤ pages r := pages_le (by omega)
    refine ⟨fun _ => ⟨hr, ⟨hu, hapart, hl.toSpace.update honly.root (le_of_pages hfit) ?_ ?_, ?_⟩, hfresh⟩, fun hz => ?_⟩
    · intro v hv hv'
      rw [hfresh.2 v (by omega)]
      exact hl.above v (by omega) hv'
    · exact fun v hv => hfresh.2 v (by omega)
    · intro v hv
      by_cases hold : v < pages sz
      · rw [hfresh.2 v (by omega)]
        exact hl.dense v hold
      · obtain ⟨y, hy⟩ := hfresh.1 v (by omega) hv
        exact ⟨_, hy, rfl⟩
    · refine hsame (funext fun v => hfresh.2 v ?_)
      rw [hz, show pages 0 = 0 by decide]
      omega
  · exact ⟨fun hne => absurd hr hne, fun _ => hsame hleaf⟩

theorem loadLoop_spec {off : Nat} (h : Building lo trampoline frame sz s t) :
    Wp (loadLoop lo none file n off sz) t (fun r u => Building lo trampoline frame r.2 s u) fun _ => False := by
  induction n generalizing off sz t with
  | zero => exact wp_pure h
  | succ n ih =>
    rw [loadLoop]
    generalize file.readi (u32 off) 56 = l
    have hvaddr : (proghdr l).vaddr < 2 ^ 64 := field_lt l 16 8
    have hmemsz : (proghdr l).memsz < 2 ^ 64 := field_lt l 40 8
    generalize proghdr l = ph at hvaddr hmemsz ⊢
    refine wp_ite (fun _ => wp_pure h) fun hlen => ?_
    refine wp_ite (fun _ => ih h) fun htype => ?_
    refine wp_ite (fun _ => wp_pure h) fun hmem => ?_
    refine wp_ite (fun _ => wp_pure h) fun hwrap => ?_
    refine wp_ite (fun _ => wp_pure h) fun halign => ?_
    have hsum : ph.vaddr + ph.memsz < 2 ^ 64 := by
      simp only [u64] at hwrap
      omega
    rw [u64_of_lt hsum]
    refine (uvmalloc_building h).bind ?_
    rintro sz1 u ⟨hgrown, hsame⟩
    refine wp_ite (fun hz => wp_pure (hsame hz)) fun hz => ?_
    obtain ⟨hmax, hu, -⟩ := hgrown hz
    have hfile : u32 ph.filesz ≤ ph.filesz := Nat.mod_le _ _
    have hlimit := pages_le_upages hu.loaded.size
    refine (loadsegLoop_spec hu.owned (by omega) (fun j hj => ?_) fun k hk => ?_).bind ?_
    · have hv : (ph.vaddr + j) / PGSIZE < pages sz1 := div_lt_pages (by omega)
      exact ⟨Nat.lt_of_lt_of_le hv hlimit, hu.loaded.dense _ hv⟩
    · rw [Nat.zero_add]
      exact pages_turns k hk
    · rintro r w ⟨hquiet, hw⟩
      have hbuilt := hu.quiet hquiet hw
      cases r with
      | true =>
        rw [if_pos rfl]
        exact ih hbuilt
      | false =>
        rw [if_neg Bool.false_ne_true]
        exact wp_pure hbuilt

end Segments

end AdaptiveXv6.ExecLoads
