import AdaptiveXv6.ExecLoads
import AdaptiveXv6.SpaceCalls

namespace AdaptiveXv6.ExecSteps

open MemLayout Words Bytes Programs PageTables PageOwnership PageTableSteps PageMaps AddressSpaces SpaceSteps SpaceCopies
  SpaceCalls ExecLoads Function

variable {P : Type} [DecidableEq P] {s t u : Vm P} {p : P} {q : Option P} {L : List Nat}
  {lo trampoline frame sz v w n x sp : Nat} {pt : PageTable} {file : Image} {e : Pte}

section Guard

theorem walk_leaf (h : Shape (s.pt q)) (hleaf : (s.pt q).leaf v ≠ none) :
    Wp (walk q v false) s (fun r t => t = s ∧ r = true) fun _ => False := by
  refine (walk_reads h (h.leaf v hleaf).2).imp ?_
  rintro r t ⟨rfl, hr⟩
  cases r with
  | true => exact ⟨rfl, rfl⟩
  | false => exact absurd (hr rfl) hleaf

theorem uvmclear_spec (h : Owned lo L s) (hleaf : (s.pt q).leaf v = some e) :
    Wp (uvmclear q v) s (fun _ t => Only q s t ∧ Owned lo L t ∧
      (t.pt q).leaf = update (s.pt q).leaf v (some { e with user := false })) fun _ => False := by
  have hne : (s.pt q).leaf v ≠ none := by
    rw [hleaf]
    exact Option.some_ne_none e
  rw [uvmclear]
  refine (walk_leaf (h.shape q) hne).bind_reads fun r hr => ?_
  rw [if_pos hr]
  refine wp_modify ?_
  dsimp only
  rw [hleaf]
  refine ⟨only_setLeaf .., h.of_holds ?_ rfl ?_, leaf_withPt_setLeaf ..⟩
  · rw [holds_setLeaf]
    refine update_eq_self_iff.mpr ?_
    change _ = userPage (s.pt q) v
    rw [userPage, hleaf]
    rfl
  · exact shape_update h.shape (shape_setLeaf (h.shape q) (fun _ => (h.shape q).leaf v hne) fun e' hv he =>
      (Option.some.inj he) ▸ (h.shape q).page v e hv hleaf)

end Guard

section Stack

theorem push_le (hsp : sp < 2 ^ 64) (hn : n ≤ sp) : push sp n + n ≤ sp := by
  simp only [push, u64]
  omega

theorem copyoutLoop_nil (turns dstva : Nat) :
    Wp (copyoutLoop lo p q turns dstva []) s (fun _ t => t = s) fun _ => False := by
  cases turns with
  | zero => exact wp_pure rfl
  | succ turns =>
    rw [copyoutLoop, if_pos List.length_nil]
    exact wp_pure rfl

theorem copyout_page (h : Owned lo [] s) (hw : w < UPAGES) (hleaf : (s.pt q).leaf w = some e) (he : e.user = true)
    {dstva : Nat} {src : List Byte} (hlo : w * PGSIZE ≤ dstva) (hhi : dstva + src.length ≤ w * PGSIZE + PGSIZE) :
    Wp (copyout lo p q dstva src) s (fun _ t => Quiet s t ∧ Owned lo [] t) fun _ => False := by
  rw [copyout]
  cases hlen : src.length with
  | zero => exact wp_pure ⟨⟨rfl, rfl, rfl, rfl, rfl⟩, h⟩
  | succ turns =>
    have hpage : dstva / PGSIZE = w := by
      change w * 4096 ≤ dstva at hlo
      change dstva + src.length ≤ w * 4096 + 4096 at hhi
      change dstva / 4096 = w
      omega
    have hbase : pageOf dstva = w * PGSIZE := by rw [pageOf, hpage]
    have hdiv : w * PGSIZE / PGSIZE = w := Nat.mul_div_cancel w (by decide)
    have hmax : ¬w * PGSIZE ≥ MAXVA := by
      change w < 2 ^ 26 - 2 at hw
      change ¬w * 4096 ≥ 2 ^ 38
      omega
    rw [copyoutLoop, if_neg (by omega), hbase, if_neg hmax, reach]
    have hreach : Wp (walkaddr q (w * PGSIZE) >>= fun x => if x = 0 then vmfault lo p q (w * PGSIZE) else pure x) s
        (fun x t => t = s ∧ x ≠ 0) fun _ => False := by
      refine (walkaddr_user (h.shape q) (by rw [hdiv]; exact hw) (by rw [hdiv]; exact hleaf) he).bind_reads fun x hx => ?_
      rw [if_neg hx.2]
      exact wp_pure ⟨rfl, hx.2⟩
    refine hreach.bind_reads fun x hx => ?_
    rw [if_neg hx, hpage]
    refine wp_lookup (h.shape q) (lt_vpages hw) ?_
    rw [hleaf]
    dsimp only
    split
    · refine wp_modify_bind ?_
      have hmin : min (PGSIZE - (dstva - w * PGSIZE)) src.length = src.length := Nat.min_eq_right (by omega)
      rw [hmin, List.drop_length]
      refine (copyoutLoop_nil _ _).imp ?_
      rintro _ t rfl
      exact ⟨⟨rfl, rfl, rfl, rfl, rfl⟩, h.perm rfl rfl (List.Perm.refl _)⟩
    · exact wp_pure ⟨⟨rfl, rfl, rfl, rfl, rfl⟩, h⟩

theorem pushArgs_spec {argv : List (List Byte)} {ustack : List Nat} (h : Owned lo [] s) (hw : w < UPAGES) (hpos : 1 ≤ w)
    (hleaf : (s.pt q).leaf w = some e) (he : e.user = true) (hargs : ∀ arg ∈ argv, arg.length < PGSIZE)
    (hsp : w * PGSIZE ≤ sp) (hsp' : sp ≤ w * PGSIZE + PGSIZE) (hlen : ustack.length ≤ MAXARG) :
    Wp (pushArgs lo p q (w * PGSIZE) argv sp ustack) s (fun r t => Quiet s t ∧ Owned lo [] t ∧
      ∀ sp' us, r = some (sp', us) → w * PGSIZE ≤ sp' ∧ sp' ≤ w * PGSIZE + PGSIZE ∧ us.length ≤ MAXARG)
      fun _ => False := by
  have hquiet : Quiet s s := ⟨rfl, rfl, rfl, rfl, rfl⟩
  induction argv generalizing s sp ustack with
  | nil =>
    refine wp_pure ⟨hquiet, h, fun sp' us heq => ?_⟩
    cases heq
    exact ⟨hsp, hsp', hlen⟩
  | cons arg argv ih =>
    rw [pushArgs]
    refine wp_ite (fun _ => wp_pure ⟨hquiet, h, nofun⟩) fun hmany => ?_
    dsimp only
    refine wp_ite (fun _ => wp_pure ⟨hquiet, h, nofun⟩) fun hover => ?_
    have harg : arg.length < 4096 := hargs arg List.mem_cons_self
    have hfit : push sp (arg.length + 1) + (arg.length + 1) ≤ sp := by
      change w < 2 ^ 26 - 2 at hw
      change w * 4096 ≤ sp at hsp
      change sp ≤ w * 4096 + 4096 at hsp'
      exact push_le (by omega) (by omega)
    refine (copyout_page h hw hleaf he (Nat.not_lt.mp hover) ?_).bind ?_
    · rw [List.length_append, List.length_singleton]
      omega
    · rintro r s₁ ⟨hquiet₁, h₁⟩
      cases r with
      | false =>
        rw [if_neg Bool.false_ne_true]
        exact wp_pure ⟨hquiet₁, h₁, nofun⟩
      | true =>
        rw [if_pos rfl]
        refine (ih h₁ (by rw [hquiet₁.pt]; exact hleaf) (fun a ha => hargs a (List.mem_cons_of_mem _ ha))
          (Nat.not_lt.mp hover) (by omega) ?_ ⟨rfl, rfl, rfl, rfl, rfl⟩).imp ?_
        · rw [List.length_append, List.length_singleton]
          omega
        · exact fun r t ht => ⟨hquiet₁.trans ht.1, ht.2⟩

end Stack

section Commit

def exchange (p : P) : Place P → Place P
  | .table q l i => .table (Equiv.swap none (some p) q) l i
  | .leaf q v => .leaf (Equiv.swap none (some p) q) v
  | .extra a => .extra a

theorem exchange_involutive (p : P) : Involutive (exchange p) := by
  intro a
  cases a with
  | table q l i => simp only [exchange, Equiv.swap_apply_self]
  | leaf q v => simp only [exchange, Equiv.swap_apply_self]
  | extra a => rfl

theorem Owned.exchange (h : Owned lo L s) (hpt : ∀ q, t.pt q = s.pt (Equiv.swap none (some p) q))
    (hextra : t.extra = s.extra) (hfree : t.free = s.free) : Owned lo L t := by
  have hholds : holds t = fun a => holds s (ExecSteps.exchange p a) := by
    funext a
    cases a with
    | table q l i => simp only [holds, ExecSteps.exchange, hpt]
    | leaf q v => simp only [holds, ExecSteps.exchange, hpt]
    | extra a => simp only [holds, ExecSteps.exchange, hextra]
  refine ⟨?_, by rw [hfree]; exact h.nodup, by rw [hfree]; exact h.below, fun q => by rw [hpt]; exact h.shape _, h.pos⟩
  rw [hholds, hfree]
  exact h.held.reindex (exchange_involutive p)

def commit (s : Vm P) (p : P) (sz : Nat) (regs : Regs) : Vm P :=
  { s with
    pt := update (update s.pt (some p) (s.pt none)) none (s.pt (some p))
    sz := update s.sz p sz
    regs := update s.regs p regs }

theorem commit_pt (s : Vm P) (p : P) (sz : Nat) (regs : Regs) (q : Option P) :
    (commit s p sz regs).pt q = s.pt (Equiv.swap none (some p) q) := by
  change update (update s.pt (some p) (s.pt none)) none (s.pt (some p)) q = _
  by_cases hnone : q = none
  · rw [hnone, update_self, Equiv.swap_apply_left]
  · rw [update_of_ne hnone]
    by_cases hp : q = some p
    · rw [hp, update_self, Equiv.swap_apply_right]
    · rw [update_of_ne hp, Equiv.swap_apply_of_ne_of_ne hnone hp]

structure Execd (lo trampoline : Nat) (s t : Vm P) : Prop where
  sound : Sound lo trampoline t
  mode : t.mode = s.mode
  extra : t.extra = s.extra

theorem bad_spec {α : Type} (a : α) (h : Sound lo trampoline s) (ht : Owned lo [] t) (hapart : Apart none s t)
    (hspace : Space trampoline frame sz (t.pt none)) :
    Wp (do procFreepagetable lo none sz; pure a) t (fun _ u => Execd lo trampoline s u) fun _ => False := by
  refine (procFreepagetable_spec ht hspace.root hspace.size hspace.above).bind ?_
  rintro _ u hdrop
  have hau := hapart.trans hdrop.toApart
  refine wp_pure ⟨⟨hdrop.owned, fun r => ?_, hdrop.null⟩, hau.mode, hau.extra⟩
  exact (h.slot r).congr (hau.others _ (by simp)) (by rw [hau.extra]) (by rw [hau.sz]) (by rw [hau.mode])

theorem commit_spec {α : Type} (a : α) (regs : Regs) (h : Sound lo trampoline s) (hm : s.mode p ≠ .unused)
    (ht : Owned lo [] t) (hapart : Apart none s t)
    (hspace : Space trampoline (s.extra (.trapframe p)) sz (t.pt none)) :
    Wp (do procFreepagetable lo none (t.sz p); pure a) (commit t p sz regs) (fun _ u => Execd lo trampoline s u)
      fun _ => False := by
  obtain ⟨hframe, hold⟩ := (h.slot p).space hm
  have hc : Owned lo [] (commit t p sz regs) := Owned.exchange (p := p) ht (commit_pt t p sz regs) rfl rfl
  have hnone : (commit t p sz regs).pt none = s.pt (some p) := by
    rw [commit_pt, Equiv.swap_apply_left]
    exact hapart.others _ (by simp)
  rw [hapart.sz]
  refine (procFreepagetable_spec hc (by rw [hnone]; exact hold.root) hold.size (by rw [hnone]; exact hold.above)).bind ?_
  rintro _ u hdrop
  have hmode : u.mode = s.mode := hdrop.mode.trans hapart.mode
  have hextra : u.extra = s.extra := hdrop.extra.trans hapart.extra
  have hpt : u.pt (some p) = t.pt none := by
    rw [hdrop.others _ (by simp), commit_pt, Equiv.swap_apply_right]
  have hsz : u.sz p = sz := by
    rw [hdrop.sz]
    exact update_self ..
  refine wp_pure ⟨h.update (p := p) ⟨fun q hq => ?_, fun a _ => by rw [hextra], fun r hr => ?_, fun r _ => by rw [hmode],
    fun r hr => ?_⟩ hdrop.owned ⟨fun hu => ?_, fun _ => ?_⟩, hmode, hextra⟩
  · by_cases hqn : q = none
    · rw [hqn, hdrop.null, h.making]
    · rw [hdrop.others q hqn, commit_pt, Equiv.swap_apply_of_ne_of_ne hqn hq]
      exact hapart.others q hqn
  · rw [hdrop.sz, ← hapart.sz]
    exact update_of_ne hr ..
  · rw [hdrop.regs, ← hapart.regs]
    exact update_of_ne hr ..
  · rw [hmode] at hu
    exact absurd hu hm
  · rw [hextra, hsz, hpt]
    exact ⟨hframe, hspace⟩

end Commit

section Exec

variable {argv : List (List Byte)} {path : List Byte}

omit [DecidableEq P] in
theorem Building.round (h : Building lo trampoline frame sz s t) :
    Building lo trampoline frame (pages sz * PGSIZE) s t := by
  have hle := pages_le_upages h.loaded.size
  have hl := h.loaded
  refine ⟨h.owned, h.apart, ⟨hl.toSpace.update rfl (le_of_pages ?_) ?_ fun _ _ => rfl, ?_⟩⟩ <;> rw [pages_mul]
  · exact hle
  · exact hl.above
  · exact hl.dense

theorem length_words (us : List Nat) : (us.flatMap (le 8)).length = us.length * 8 := by
  induction us with
  | nil => rfl
  | cons a us ih =>
    rw [List.flatMap_cons, List.length_append, ih, length_le, List.length_cons]
    omega

theorem stack_spec {k : Nat} (h : Sound lo trampoline s) (hm : s.mode p ≠ .unused)
    (hargs : ∀ arg ∈ argv, arg.length < PGSIZE)
    (hb : Building lo trampoline (s.extra (.trapframe p)) ((k + 2) * PGSIZE) s t)
    (hguard : ∃ x, (t.pt none).leaf k = some ⟨x, true, false, true⟩)
    (htop : ∃ x, (t.pt none).leaf (k + 1) = some ⟨x, true, false, true⟩) (epc : Nat) (name : List Byte) :
    Wp (do
      uvmclear none (((k + 2) * PGSIZE - (USERSTACK + 1) * PGSIZE) / PGSIZE)
      match ← pushArgs lo p none ((k + 2) * PGSIZE - USERSTACK * PGSIZE) argv ((k + 2) * PGSIZE) [] with
      | none => do
        procFreepagetable lo none ((k + 2) * PGSIZE)
        pure none
      | some (sp, ustack) =>
        if push sp ((ustack.length + 1) * 8) < (k + 2) * PGSIZE - USERSTACK * PGSIZE then do
          procFreepagetable lo none ((k + 2) * PGSIZE)
          pure none
        else do
          if ← copyout lo p none (push sp ((ustack.length + 1) * 8)) ((ustack ++ [0]).flatMap (le 8)) then do
            let s ← get
            modify fun s =>
              { s with
                pt := update (update s.pt (some p) (s.pt none)) none (s.pt (some p))
                sz := update s.sz p ((k + 2) * PGSIZE)
                regs := update s.regs p
                  ⟨epc, push sp ((ustack.length + 1) * 8), push sp ((ustack.length + 1) * 8), name⟩ }
            procFreepagetable lo none (s.sz p)
            pure (some argv.length)
          else do
            procFreepagetable lo none ((k + 2) * PGSIZE)
            pure none) t (fun _ u => Execd lo trampoline s u) fun _ => False := by
  obtain ⟨x, hx⟩ := hguard
  obtain ⟨y, hy⟩ := htop
  have hle : k + 2 ≤ UPAGES := by
    have hpages := pages_le_upages hb.loaded.size
    rwa [pages_mul] at hpages
  have hclear : ((k + 2) * PGSIZE - (USERSTACK + 1) * PGSIZE) / PGSIZE = k := by
    change ((k + 2) * 4096 - 2 * 4096) / 4096 = k
    omega
  have hbase : (k + 2) * PGSIZE - USERSTACK * PGSIZE = (k + 1) * PGSIZE := by
    change (k + 2) * 4096 - 1 * 4096 = (k + 1) * 4096
    omega
  have hend : (k + 2) * PGSIZE = (k + 1) * PGSIZE + PGSIZE := Nat.succ_mul (k + 1) PGSIZE
  rw [hclear, hbase]
  refine (uvmclear_spec hb.owned hx).bind ?_
  rintro _ s₁ ⟨honly, h₁, hleaf⟩
  have hapart := hb.apart.trans honly.toApart
  have hspace : Space trampoline (s.extra (.trapframe p)) ((k + 2) * PGSIZE) (s₁.pt none) := by
    refine hb.loaded.toSpace.update honly.root hb.loaded.size (fun v hv hv' => ?_) fun v hv => ?_
    · have hv'' := hv
      rw [pages_mul] at hv''
      rw [hleaf, update_of_ne (by omega)]
      exact hb.loaded.above v hv hv'
    · rw [hleaf, update_of_ne (by omega)]
  have hy₁ : (s₁.pt none).leaf (k + 1) = some ⟨y, true, false, true⟩ := by
    rw [hleaf, update_of_ne (by omega)]
    exact hy
  -- whatever fails from here on, the new address space is given up
  have hbad : ∀ u : Vm P, Quiet s₁ u → Owned lo [] u →
      Wp (do procFreepagetable lo none ((k + 2) * PGSIZE); pure (none : Option Nat)) u
        (fun _ u => Execd lo trampoline s u) fun _ => False := by
    intro u hquiet hu
    exact bad_spec none h hu (hapart.trans (hquiet.only none).toApart) (by rw [hquiet.pt]; exact hspace)
  refine (pushArgs_spec h₁ (by omega) (by omega) hy₁ rfl hargs (by omega) (by omega) (Nat.zero_le _)).bind ?_
  rintro r s₂ ⟨hquiet₂, h₂, hr⟩
  cases r with
  | none => exact hbad s₂ hquiet₂ h₂
  | some pair =>
    obtain ⟨sp, us⟩ := pair
    obtain ⟨hlo, hhi, hus⟩ := hr sp us rfl
    dsimp only
    refine wp_ite (fun _ => hbad s₂ hquiet₂ h₂) fun hover => ?_
    have hfit : push sp ((us.length + 1) * 8) + (us.length + 1) * 8 ≤ sp := by
      change us.length ≤ 32 at hus
      change k + 2 ≤ 2 ^ 26 - 2 at hle
      change (k + 1) * 4096 ≤ sp at hlo
      change sp ≤ (k + 1) * 4096 + 4096 at hhi
      exact push_le (by omega) (by omega)
    refine (copyout_page h₂ (by omega) (by rw [hquiet₂.pt]; exact hy₁) rfl (Nat.not_lt.mp hover) ?_).bind ?_
    · rw [length_words, List.length_append, List.length_singleton]
      omega
    · rintro r s₃ ⟨hquiet₃, h₃⟩
      have hquiet := hquiet₂.trans hquiet₃
      cases r with
      | false =>
        rw [if_neg Bool.false_ne_true]
        exact hbad s₃ hquiet h₃
      | true =>
        rw [if_pos rfl]
        refine wp_get_bind (wp_modify_bind ?_)
        exact commit_spec _ _ h hm h₃ (hapart.trans (hquiet.only none).toApart) (by rw [hquiet.pt]; exact hspace)

theorem kexec_spec (h : Sound lo trampoline s) (hm : s.mode p ≠ .unused) (hargs : ∀ arg ∈ argv, arg.length < PGSIZE) :
    Wp (kexec lo trampoline p path file argv) s (fun _ t => Execd lo trampoline s t) fun _ => False := by
  have hsame : Execd lo trampoline s s := ⟨h, rfl, rfl⟩
  rw [kexec]
  generalize file.readi 0 64 = elf
  dsimp only
  refine wp_ite (fun _ => wp_pure hsame) fun hlen => ?_
  refine wp_ite (fun _ => wp_pure hsame) fun hmagic => ?_
  refine (procPagetable_spec h.owned h.making p).bind ?_
  rintro r s₁ ⟨hapart, h₁, ⟨rfl, hspace⟩ | ⟨rfl, hnull⟩⟩
  · rw [if_pos rfl]
    have hb : Building lo trampoline (s.extra (.trapframe p)) 0 s s₁ := by
      refine ⟨h₁, hapart, ⟨hspace, fun v hv => ?_⟩⟩
      rw [show pages 0 = 0 by decide] at hv
      exact absurd hv (Nat.not_lt_zero v)
    refine (loadLoop_spec hb).bind ?_
    rintro ⟨ok, sz⟩ s₂ hb₂
    cases ok with
    | false =>
      rw [if_neg Bool.false_ne_true]
      exact bad_spec none h hb₂.owned hb₂.apart hb₂.loaded.toSpace
    | true =>
      rw [if_pos rfl]
      dsimp only
      have hb₂ := Building.round hb₂
      have hlimit : pages sz * 4096 ≤ 2 ^ 38 - 4096 - 4096 := hb₂.loaded.size
      have hnew : u64 (pages sz * PGSIZE + (USERSTACK + 1) * PGSIZE) = (pages sz + 2) * PGSIZE := by
        change (pages sz * 4096 + 2 * 4096) % 2 ^ 64 = (pages sz + 2) * 4096
        omega
      rw [roundup_eq, hnew]
      refine (uvmalloc_building hb₂).bind ?_
      rintro sz' s₃ ⟨hgrown, hfailed⟩
      refine wp_ite (fun hz => ?_) fun hz => ?_
      · have hb₃ := hfailed hz
        exact bad_spec none h hb₃.owned hb₃.apart hb₃.loaded.toSpace
      obtain ⟨hmax, hb₃, hfresh⟩ := hgrown hz
      rw [Nat.max_eq_right (Nat.mul_le_mul_right PGSIZE (Nat.le_add_right _ 2))] at hmax
      rw [pages_mul, hmax, pages_mul] at hfresh
      subst hmax
      exact stack_spec h hm hargs hb₃ (hfresh.1 _ (Nat.le_refl _) (by omega)) (hfresh.1 _ (by omega) (by omega)) _ _
  · rw [if_neg Bool.false_ne_true]
    refine wp_pure ⟨⟨h₁, fun r => ?_, hnull⟩, hapart.mode, hapart.extra⟩
    exact (h.slot r).congr (hapart.others _ (by simp)) (by rw [hapart.extra]) (by rw [hapart.sz]) (by rw [hapart.mode])

theorem forkret_spec (find : List Byte → Option Image) (h : Sound lo trampoline s) (hm : s.mode p ≠ .unused) :
    Wp (forkret lo trampoline find p) s (fun _ t => Execd lo trampoline s t) fun _ => False := by
  rw [forkret]
  cases find init with
  | none => exact wp_pure ⟨h, rfl, rfl⟩
  | some file => exact kexec_spec h hm (by decide)

end Exec

section Arguments

structure Filled (m : Nat) (s : Vm P) : Prop where
  below : ∀ j, j < m → s.extra (.arg j) ≠ 0
  above : ∀ j, m ≤ j → s.extra (.arg j) = 0

omit [DecidableEq P] in
theorem Filled.same {m : Nat} (h : Filled m s) (hsame : SameArgs s t) : Filled m t :=
  ⟨fun j hj => by rw [hsame]; exact h.below j hj, fun j hj => by rw [hsame]; exact h.above j hj⟩

theorem fetchaddr_spec (h : Sound lo trampoline s) (hm : s.mode p ≠ .unused) (addr : Nat) :
    Wp (fetchaddr lo p addr) s (fun _ t => Kept lo trampoline p s t) fun _ => False := by
  rw [fetchaddr]
  refine wp_get_bind ?_
  split
  · exact wp_pure (Kept.refl h p)
  · exact (copyin_spec h hm addr 8).bind fun _ _ ht => wp_pure ht

theorem setExtra_arg {i : Nat} (h : Sound lo trampoline s) (hquiet : Quiet s t) (ht : Owned lo [x] t) (hi : Filled i s)
    (hx : x ≠ 0) : Wp (setExtra (.arg i) x) t (fun _ u => Sound lo trampoline u ∧ u.mode = s.mode ∧ Filled (i + 1) u)
      fun _ => False := by
  refine (setExtra_spec ht (by rw [hquiet.extra]; exact hi.above i (Nat.le_refl i))).imp ?_
  rintro _ u ⟨hplaced, hu⟩
  have hplaced' : Placed (.arg i) x s u := ⟨hplaced.pt.trans hquiet.pt, by rw [hplaced.extra, hquiet.extra],
    hplaced.sz.trans hquiet.sz, hplaced.mode.trans hquiet.mode, hplaced.regs.trans hquiet.regs⟩
  refine ⟨Sound.placed h (fun _ => by simp) hplaced' hu, hplaced'.mode, fun j hj => ?_, fun j hj => ?_⟩
  · rw [hplaced'.extra]
    by_cases hji : j = i
    · rw [hji, update_self]
      exact hx
    · rw [update_of_ne (by simpa using hji)]
      exact hi.below j (by omega)
  · have hji : j ≠ i := by omega
    rw [hplaced'.extra, update_of_ne (by simpa using hji)]
    exact hi.above j (by omega)

theorem fetchArgs_spec {uargv turns i : Nat} {argv : List (List Byte)} (h : Sound lo trampoline s)
    (hm : s.mode p ≠ .unused) (hi : Filled i s) (hargs : ∀ arg ∈ argv, arg.length < PGSIZE) :
    Wp (fetchArgs lo p uargv turns i argv) s (fun r t => Sound lo trampoline t ∧ t.mode = s.mode ∧
      (∃ m, m ≤ i + turns ∧ Filled m t) ∧ ∀ arg ∈ r.2, arg.length < PGSIZE) fun _ => False := by
  induction turns generalizing s i argv with
  | zero => exact wp_pure ⟨h, rfl, ⟨i, Nat.le_refl _, hi⟩, hargs⟩
  | succ turns ih =>
    rw [fetchArgs]
    refine (fetchaddr_spec h hm _).bind ?_
    rintro r s₁ hkept
    have hi₁ := hi.same hkept.args
    have hm₁ : s₁.mode p ≠ .unused := by rw [hkept.mode]; exact hm
    cases r with
    | none => exact wp_pure ⟨hkept.sound, hkept.mode, ⟨i, Nat.le_add_right _ _, hi₁⟩, hargs⟩
    | some uarg =>
      dsimp only
      refine wp_ite (fun _ =>
          wp_pure ⟨hkept.sound, hkept.mode, ⟨i, Nat.le_add_right _ _, hi₁⟩, hargs⟩) fun hzero => ?_
      refine (kalloc_spec hkept.sound.owned).bind ?_
      rintro x s₂ ⟨hquiet, ⟨rfl, h₂⟩ | ⟨hx, h₂⟩⟩
      · refine wp_modify_bind ?_
        rw [if_pos rfl]
        have hnull : update s₂.extra (.arg i) 0 = s₂.extra := by
          refine update_eq_self_iff.mpr ?_
          rw [hquiet.extra, hi₁.above i (Nat.le_refl i)]
        have hquiet' : Quiet s₁ { s₂ with extra := update s₂.extra (.arg i) 0 } :=
          ⟨hquiet.pt, hnull.trans hquiet.extra, hquiet.sz, hquiet.mode, hquiet.regs⟩
        refine wp_pure ⟨Sound.quiet hkept.sound hquiet' (h₂.perm rfl hnull (List.Perm.refl _)),
          hquiet'.mode.trans hkept.mode, ⟨i, Nat.le_add_right _ _, hi₁.same fun j => ?_⟩, hargs⟩
        rw [hquiet'.extra]
      · refine (setExtra_arg hkept.sound hquiet h₂ hi₁ hx).bind ?_
        rintro _ s₃ ⟨h₃, hmode₃, hi₃⟩
        rw [if_neg hx]
        have hmode : s₃.mode = s.mode := hmode₃.trans hkept.mode
        refine (copyinstrLoop_spec (h₃.owned.shape _) _ _ _).bind_reads fun r hr => ?_
        cases r with
        | none => exact wp_pure ⟨h₃, hmode, ⟨i + 1, by omega, hi₃⟩, hargs⟩
        | some l =>
          dsimp only
          refine (ih h₃ (by rw [hmode]; exact hm) hi₃ fun arg harg => ?_).imp ?_
          · rcases List.mem_append.mp harg with harg | harg
            · exact hargs arg harg
            · rw [List.mem_singleton.mp harg]
              exact hr l rfl
          · rintro r t ⟨ht, hmode', ⟨m, hle, hfilled⟩, hlens⟩
            exact ⟨ht, hmode'.trans hmode, ⟨m, by omega, hfilled⟩, hlens⟩

theorem freeArgs_spec {m turns i : Nat} (h : Sound lo trampoline s) (hle : m ≤ i + turns)
    (hbelow : ∀ j, i ≤ j → j < m → s.extra (.arg j) ≠ 0) (hzero : ∀ j, j < i ∨ m ≤ j → s.extra (.arg j) = 0) :
    Wp (freeArgs lo turns i) s (fun _ t => Sound lo trampoline t ∧ t.mode = s.mode ∧ ∀ j, t.extra (.arg j) = 0)
      fun _ => False := by
  induction turns generalizing s i with
  | zero => exact wp_pure ⟨h, rfl, fun j => hzero j (by omega)⟩
  | succ turns ih =>
    rw [freeArgs]
    refine wp_get_bind ?_
    refine wp_ite (fun hnext => ?_) fun hnext => ?_
    · refine (freeExtra_sound h fun _ => by simp).bind ?_
      rintro _ s₁ ⟨h₁, hplaced⟩
      have hother : ∀ j, j ≠ i → s₁.extra (.arg j) = s.extra (.arg j) := fun j hj => by
        rw [hplaced.extra, update_of_ne (by simpa using hj)]
      refine (ih h₁ (by omega) (fun j hj hj' => ?_) fun j hj => ?_).imp ?_
      · rw [hother j (by omega)]
        exact hbelow j (by omega) hj'
      · by_cases hji : j = i
        · rw [hji, hplaced.extra, update_self]
        · rw [hother j hji]
          exact hzero j (by omega)
      · exact fun _ t ht => ⟨ht.1, ht.2.1.trans hplaced.mode, ht.2.2⟩
    · have hend : m ≤ i := by
        by_contra hlt
        exact hnext (hbelow i (Nat.le_refl i) (by omega))
      exact wp_pure ⟨h, rfl, fun j => hzero j (by omega)⟩

theorem sysExec_spec (find : List Byte → Option Image) (h : Sound lo trampoline s) (hm : s.mode p ≠ .unused)
    (hnone : ∀ j, s.extra (.arg j) = 0) (upath uargv : Nat) :
    Wp (sysExec lo trampoline find p upath uargv) s (fun _ t => Sound lo trampoline t ∧ ∀ j, t.extra (.arg j) = 0)
      fun _ => False := by
  rw [sysExec]
  refine (copyinstrLoop_spec (h.owned.shape _) _ _ _).bind_reads fun r _ => ?_
  cases r with
  | none => exact wp_pure ⟨h, hnone⟩
  | some path =>
    dsimp only
    have hfilled : Filled 0 s := ⟨fun j hj => absurd hj (Nat.not_lt_zero j), fun j _ => hnone j⟩
    refine (fetchArgs_spec h hm hfilled fun arg harg => absurd harg List.not_mem_nil).bind ?_
    rintro ⟨ok, argv⟩ s₁ ⟨h₁, hmode, ⟨m, hle, hm₁⟩, hlens⟩
    have hfree : ∀ (u : Vm P) (ret : Option Nat), Sound lo trampoline u → u.extra = s₁.extra →
        Wp (do freeArgs lo MAXARG 0; pure ret) u (fun _ t => Sound lo trampoline t ∧ ∀ j, t.extra (.arg j) = 0)
          fun _ => False := by
      intro u ret hu hextra
      refine (freeArgs_spec (m := m) hu hle (fun j _ hj => ?_) fun j hj => ?_).bind ?_
      · rw [hextra]
        exact hm₁.below j hj
      · rw [hextra]
        exact hm₁.above j (by omega)
      · exact fun _ t ht => wp_pure ⟨ht.1, ht.2.2⟩
    cases ok with
    | false =>
      rw [if_neg Bool.false_ne_true]
      exact hfree s₁ none h₁ rfl
    | true =>
      rw [if_pos rfl]
      cases find path with
      | none => exact wp_pure_bind (hfree s₁ none h₁ rfl)
      | some file =>
        refine (kexec_spec h₁ (by rw [hmode]; exact hm) hlens).bind ?_
        exact fun ret u hu => hfree u ret hu.sound hu.extra

end Arguments

end AdaptiveXv6.ExecSteps
