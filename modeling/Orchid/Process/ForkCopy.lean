import Orchid.Memory.Permissions
import Orchid.Process.Footprint

/-! # What a fork copies

`fork_address_space` reads the parent's tables and pages while it fills frames
that were free. None of the parent's are among these, so throughout the copy the
parent is what it was at the start, in `mem₀`.

* `Mirror mem₀ mem d P C fr`: in `mem` the table `C` with `d` levels below it is a
  copy of `P` in `mem₀`, made of the frames `fr`.
* `Fills` is the specification of a loop: if it succeeds it leaves a mirror.
* The PML4 was not cleared, so its slots that the parent does not use are the
  entries the frame held before; `SlotCopied` has them as a parameter.
* `copyCost` counts the frames, and with as many free ones the copy succeeds.
-/

namespace Orchid

open ByteMem Radix Function

/-! ## Copies of tables -/

/-- Slot `i` of the child's table `C`: where the parent's table is empty the entry is
`e₀`, else it has the parent's flags and leads to a frame of its own. `fr` are the
frames that were taken for the slot. -/
def SlotCopied (below : Nat → Nat → List Nat → Prop) (mem₀ mem : ByteMem) (P C : Nat)
    (i : Fin 512) (e₀ : Nat) (fr : List Nat) : Prop :=
  match child mem₀ P i with
  | none => fr = [] ∧ pte mem C i = e₀
  | some old => ∃ c rest, fr = c :: rest ∧ pte mem C i = makeEntry c (pte mem₀ P i) ∧
      child mem C i = some c ∧ below old c rest

/-- The frames `fr` are divided among the slots. -/
structure Parts (part : Fin 512 → List Nat) (fr : List Nat) : Prop where
  sub : ∀ i c, c ∈ part i → c ∈ fr
  apart : ∀ i j c, c ∈ part i → c ∈ part j → i = j
  nodup : ∀ i, (part i).Nodup

/-- The table `C` is a copy of `P` with `d` levels below it, a page if `d` is 0. -/
def Mirror (mem₀ mem : ByteMem) : Nat → Nat → Nat → List Nat → Prop
  | 0, P, C, _ => ∀ n < 4096, mem (C + n) = mem₀ (P + n)
  | d + 1, P, C, fr => ∃ part, Parts part fr ∧
      ∀ i, SlotCopied (Mirror mem₀ mem d) mem₀ mem P C i 0 (part i)

section Copies

variable {mem₀ mem mem' : ByteMem} {d P C f c e₀ : Nat} {i : Fin 512} {q q' : List (Fin 512)}
  {fr : List Nat}

theorem SlotCopied.congr {below below' : Nat → Nat → List Nat → Prop}
    (h : SlotCopied below mem₀ mem P C i e₀ fr) (hpte : pte mem' C i = pte mem C i)
    (hbelow : ∀ old c rest, fr = c :: rest → below old c rest → below' old c rest) :
    SlotCopied below' mem₀ mem' P C i e₀ fr := by
  unfold SlotCopied at h ⊢
  cases hold : child mem₀ P i with
  | none =>
    rw [hold] at h
    exact ⟨h.1, hpte.trans h.2⟩
  | some old =>
    rw [hold] at h
    rcases h with ⟨c, rest, hfr, hentry, hchild, hrest⟩
    refine ⟨c, rest, hfr, hpte.trans hentry, ?_, hbelow old c rest hfr hrest⟩
    rw [child, hpte]
    exact hchild

/-- A copy depends on its own frames only. -/
theorem Mirror.congr (h : Mirror mem₀ mem d P C fr) (hC : ∀ x, InPage C x → mem' x = mem x)
    (hfr : ∀ c ∈ fr, ∀ x, InPage c x → mem' x = mem x) : Mirror mem₀ mem' d P C fr := by
  induction d generalizing P C fr with
  | zero =>
    intro n hn
    rw [hC _ (inPage_add hn)]
    exact h n hn
  | succ d ih =>
    rcases h with ⟨part, hparts, hslots⟩
    refine ⟨part, hparts, ?_⟩
    intro i
    apply (hslots i).congr (pte_congr hC)
    intro old c rest heq hmirror
    have hmem : ∀ c' ∈ c :: rest, c' ∈ fr := by
      rw [← heq]
      exact hparts.sub i
    apply ih hmirror
    · exact hfr c (hmem c List.mem_cons_self)
    · intro c' hc'
      exact hfr c' (hmem c' (List.mem_cons_of_mem c hc'))

/-- Where a slot of the child leads, the parent's does, and to a frame taken for it. -/
theorem SlotCopied.child_eq {below : Nat → Nat → List Nat → Prop} {g : Nat}
    (h : SlotCopied below mem₀ mem P C i 0 fr) (hg : child mem C i = some g) :
    ∃ old rest, child mem₀ P i = some old ∧ fr = g :: rest ∧ below old g rest := by
  unfold SlotCopied at h
  cases hold : child mem₀ P i with
  | none =>
    rw [hold] at h
    rw [child, h.2] at hg
    cases hg
  | some old =>
    rw [hold] at h
    rcases h with ⟨c, rest, hfr, -, hchild, hrest⟩
    obtain rfl : c = g := Option.some.inj (hchild.symm.trans hg)
    exact ⟨old, rest, rfl, hfr, hrest⟩

/-- A copy has nothing that the parent does not have. -/
theorem Mirror.walk_back (h : Mirror mem₀ mem d P C fr) (hq : q.length ≤ d)
    (hc : walk (child mem) C q = some c) :
    (∃ f, walk (child mem₀) P q = some f) ∧ (q ≠ [] → c ∈ fr) := by
  induction d generalizing P C fr q with
  | zero =>
    obtain rfl : q = [] := List.length_eq_zero_iff.mp (by omega)
    exact ⟨⟨P, rfl⟩, fun hne => absurd rfl hne⟩
  | succ d ih =>
    cases q with
    | nil => exact ⟨⟨P, rfl⟩, fun hne => absurd rfl hne⟩
    | cons i q =>
      rw [List.length_cons] at hq
      rcases h with ⟨part, hparts, hslots⟩
      rw [walk_cons] at hc
      cases hg : child mem C i with
      | none =>
        rw [hg] at hc
        cases hc
      | some g =>
        rw [hg] at hc
        rcases (hslots i).child_eq hg with ⟨old, rest, hold, hpart, hmirror⟩
        rcases ih hmirror (by omega) hc with ⟨⟨f, hf⟩, hmem⟩
        refine ⟨⟨f, ?_⟩, fun _ => hparts.sub i c ?_⟩
        · rw [walk_cons, hold]
          exact hf
        · rw [hpart]
          cases q with
          | nil =>
            cases hc
            exact List.mem_cons_self
          | cons j q => exact List.mem_cons_of_mem g (hmem (by simp))

theorem Mirror.mem_cons (h : Mirror mem₀ mem d P C fr) (hq : q.length ≤ d)
    (hc : walk (child mem) C q = some c) : c ∈ C :: fr := by
  cases q with
  | nil =>
    cases hc
    exact List.mem_cons_self
  | cons i q => exact List.mem_cons_of_mem C ((h.walk_back hq hc).2 (by simp))

/-- Different paths of a copy lead to different frames. -/
theorem Mirror.walk_inj (h : Mirror mem₀ mem d P C fr) (hC : C ∉ fr) (hq : q.length ≤ d)
    (hq' : q'.length ≤ d) (hc : walk (child mem) C q = some c)
    (hc' : walk (child mem) C q' = some c) : q = q' := by
  induction d generalizing P C fr q q' with
  | zero =>
    rw [List.length_eq_zero_iff.mp (by omega : q.length = 0),
      List.length_eq_zero_iff.mp (by omega : q'.length = 0)]
  | succ d ih =>
    have hback := h.walk_back hq hc
    have hback' := h.walk_back hq' hc'
    cases q with
    | nil =>
      cases q' with
      | nil => rfl
      | cons j q' =>
        -- the table itself is none of the frames below it
        cases hc
        exact absurd (hback'.2 (by simp)) hC
    | cons i q =>
      cases q' with
      | nil =>
        cases hc'
        exact absurd (hback.2 (by simp)) hC
      | cons j q' =>
        rw [List.length_cons] at hq hq'
        rcases h with ⟨part, hparts, hslots⟩
        rw [walk_cons] at hc hc'
        cases hg : child mem C i with
        | none =>
          rw [hg] at hc
          cases hc
        | some g =>
          cases hg' : child mem C j with
          | none =>
            rw [hg'] at hc'
            cases hc'
          | some g' =>
            rw [hg] at hc
            rw [hg'] at hc'
            rcases (hslots i).child_eq hg with ⟨old, rest, -, hpart, hmirror⟩
            rcases (hslots j).child_eq hg' with ⟨old', rest', -, hpart', hmirror'⟩
            have hij : i = j := by
              apply hparts.apart i j c
              · rw [hpart]
                exact hmirror.mem_cons (by omega) hc
              · rw [hpart']
                exact hmirror'.mem_cons (by omega) hc'
            subst hij
            obtain rfl : g = g' := Option.some.inj (hg.symm.trans hg')
            have hnodup := hparts.nodup i
            rw [hpart] at hnodup
            rw [ih hmirror (List.nodup_cons.mp hnodup).1 (by omega) (by omega) hc hc']

theorem makeEntry_mod (c e : Nat) : makeEntry c e % 4096 = e % 4096 := by
  rw [makeEntry_eq]
  omega

/-- What a copy has of a page of the parent: the same flags on the way, and the same
bytes in a frame of its own. -/
structure PageCopied (mem₀ mem : ByteMem) (P C : Nat) (q : List (Fin 512)) (f c : Nat) : Prop where
  found : walk (child mem) C q = some c
  flags : (entriesOn mem C q).map (· % 4096) = (entriesOn mem₀ P q).map (· % 4096)
  bytes : ∀ n < 4096, mem (c + n) = mem₀ (f + n)

/-- The first slot of a path. -/
theorem SlotCopied.pageCopied (h : SlotCopied (Mirror mem₀ mem d) mem₀ mem P C i e₀ fr)
    (hf : walk (child mem₀) P (i :: q) = some f)
    (hbelow : ∀ old c rest, Mirror mem₀ mem d old c rest → walk (child mem₀) old q = some f →
      ∃ c', PageCopied mem₀ mem old c q f c' ∧ c' ∈ c :: rest) :
    ∃ c, PageCopied mem₀ mem P C (i :: q) f c ∧ c ∈ fr := by
  unfold SlotCopied at h
  rw [walk_cons] at hf
  cases hold : child mem₀ P i with
  | none =>
    rw [hold] at hf
    cases hf
  | some old =>
    rw [hold] at h hf
    rcases h with ⟨c, rest, hfr, hentry, hchild, hmirror⟩
    rcases hbelow old c rest hmirror hf with ⟨c', ⟨hfound, hflags, hbytes⟩, hmem⟩
    refine ⟨c', ⟨?_, ?_, hbytes⟩, hfr ▸ hmem⟩
    · rw [walk_cons, hchild]
      exact hfound
    · rw [entriesOn, entriesOn, hchild, hold, List.map_cons, List.map_cons, hentry, makeEntry_mod]
      exact congrArg _ hflags

/-- A copy has every page of the parent. -/
theorem Mirror.pageCopied (h : Mirror mem₀ mem d P C fr) (hq : q.length = d)
    (hf : walk (child mem₀) P q = some f) :
    ∃ c, PageCopied mem₀ mem P C q f c ∧ c ∈ C :: fr := by
  induction d generalizing P C fr q with
  | zero =>
    obtain rfl : q = [] := List.length_eq_zero_iff.mp hq
    cases hf
    exact ⟨C, ⟨rfl, rfl, h⟩, List.mem_cons_self⟩
  | succ d ih =>
    cases q with
    | nil => cases hq
    | cons i q =>
      rcases h with ⟨part, hparts, hslots⟩
      rcases (hslots i).pageCopied hf (fun old c rest hm hw => ih hm (by simpa using hq) hw) with
        ⟨c, hcopied, hmem⟩
      exact ⟨c, hcopied, List.mem_cons_of_mem C (hparts.sub i c hmem)⟩

end Copies

/-! ## The loops -/

section Loops

variable {mem₀ : ByteMem} {S : Fin 512 → Prop} {d P C c old : Nat} {vm vm' : Vm} {i : Fin 512}
  {taken rest : List Nat}

/-- A loop on the table `C` of the child begins: the part of the parent below the slots
`S` of its table `P` is as in `mem₀`, and apart from all that may be written. -/
structure ForkStart (mem₀ : ByteMem) (S : Fin 512 → Prop) (d P C : Nat) (vm : Vm) : Prop where
  parent : ∀ q f, SlotPath S d q → walk (child mem₀) P q = some f →
    f ∉ vm.free ∧ f ≠ C ∧ ∀ x, InPage f x → vm.mem x = mem₀ x
  parentAligned : Aligned P
  childAligned : Aligned C
  childTaken : C ∉ vm.free
  freeOk : FreeOk vm.free

theorem ForkStart.root (h : ForkStart mem₀ S d P C vm) :
    P ∉ vm.free ∧ P ≠ C ∧ ∀ x, InPage P x → vm.mem x = mem₀ x :=
  h.parent [] P (slotPath_nil _ _) rfl

theorem ForkStart.child_eq (h : ForkStart mem₀ S d P C vm) :
    child vm.mem P i = child mem₀ P i ∧ pte vm.mem P i = pte mem₀ P i :=
  ⟨child_congr h.root.2.2, pte_congr h.root.2.2⟩

theorem inPage_of_ne {f g x : Nat} (hf : Aligned f) (hg : Aligned g) (hne : f ≠ g)
    (hx : InPage f x) : ¬ InPage g x := by
  intro hgx
  exact hne (inPage_unique hf hg hx hgx)

/-- It still holds after something was written to the child's table. -/
theorem ForkStart.takes (h : ForkStart mem₀ S d P C vm) (ht : Takes (InPage C) vm vm' taken) :
    ForkStart mem₀ S d P C vm' where
  parent := by
    intro q f hq hf
    rcases h.parent q f hq hf with ⟨hfree, hne, hsame⟩
    have hfa : Aligned f := walk_aligned h.parentAligned hf
    refine ⟨fun hf' => hfree (ht.free_sub hf'), hne, fun x hx => ?_⟩
    rw [← hsame x hx]
    exact ht.page_kept h.freeOk hfa hfree (fun y hy => inPage_of_ne hfa h.childAligned hne hy) hx
  parentAligned := h.parentAligned
  childAligned := h.childAligned
  childTaken := fun hC => h.childTaken (ht.free_sub hC)
  freeOk := ht.freeOk h.freeOk

/-- It holds one level down, for the frame that was just taken. -/
theorem ForkStart.below (h : ForkStart mem₀ S (d + 1) P C vm) (hi : S i)
    (hold : child mem₀ P i = some old) (hfree : vm.free = c :: rest) {mem : ByteMem}
    (hout : ∀ x, ¬ InPage C x → ¬ InPage c x → mem x = vm.mem x) :
    ForkStart mem₀ (fun _ => True) d old c ⟨mem, rest⟩ := by
  have hcmem : c ∈ vm.free := mem_of_eq_cons hfree
  have hca := h.freeOk.aligned c hcmem
  constructor
  · intro q f hq hf
    have hpath : SlotPath S (d + 1) (i :: q) := slotPath_cons.mpr ⟨Nat.succ_le_succ hq.1, hi⟩
    have hwalk : walk (child mem₀) P (i :: q) = some f := by
      rw [walk_cons, hold]
      exact hf
    rcases h.parent _ f hpath hwalk with ⟨hnot, hne, hsame⟩
    have hfa : Aligned f := walk_aligned h.parentAligned hwalk
    have hfc : f ≠ c := by
      intro heq
      rw [heq] at hnot
      exact hnot hcmem
    refine ⟨?_, hfc, ?_⟩
    · intro hrest
      apply hnot
      rw [hfree]
      exact List.mem_cons_of_mem c hrest
    · intro x hx
      rw [← hsame x hx]
      exact hout x (inPage_of_ne hfa h.childAligned hne hx) (inPage_of_ne hfa hca hfc hx)
  · exact child_aligned hold
  · exact hca
  · exact h.freeOk.not_mem_rest hfree
  · have hok := h.freeOk
    rw [hfree] at hok
    exact hok.tail

/-- What the frame for the copy of `P` is filled with before the next level: the page's
bytes, or zeros for a table. -/
def Prepared (mem₀ mem : ByteMem) : Nat → Nat → Nat → Prop
  | 0, P, C => ∀ n < 4096, mem (C + n) = mem₀ (P + n)
  | _ + 1, _, C => ∀ j : Fin 512, pte mem C j = 0

theorem Prepared.congr {mem mem' : ByteMem} (h : Prepared mem₀ mem d P C)
    (hC : ∀ x, InPage C x → mem' x = mem x) : Prepared mem₀ mem' d P C := by
  cases d with
  | zero =>
    intro n hn
    rw [hC _ (inPage_add hn)]
    exact h n hn
  | succ d =>
    intro j
    rw [pte_congr hC]
    exact h j

/-- A loop that succeeds leaves a copy. -/
def Fills (mem₀ : ByteMem) (d : Nat) (below : Nat → Nat → Vm → Bool × Vm) : Prop :=
  ∀ P C vm vm', ForkStart mem₀ (fun _ => True) d P C vm → Prepared mem₀ vm.mem d P C →
    below P C vm = (true, vm') →
    ∃ taken, vm.free = taken ++ vm'.free ∧ Mirror mem₀ vm'.mem d P C taken

theorem ForkStart.child_ne_free {c : Nat} (h : ForkStart mem₀ S d P C vm) (hc : c ∈ vm.free) :
    C ≠ c := by
  intro heq
  rw [← heq] at hc
  exact h.childTaken hc

/-- One round that succeeds leaves its slot copied. -/
theorem forkEntry_copied {prepare : Nat → Nat → ByteMem → ByteMem}
    {below : Nat → Nat → Vm → Bool × Vm}
    (hprepare : ∀ old c mem x, ¬ InPage c x → prepare old c mem x = mem x)
    (hprepared : ∀ old c mem, Aligned old → Aligned c → old ≠ c →
      (∀ x, InPage old x → mem x = mem₀ x) → Prepared mem₀ (prepare old c mem) d old c)
    (htakes : ∀ P C vm, ∃ taken, Takes (InPage C) vm (below P C vm).2 taken)
    (hfills : Fills mem₀ d below) (h : ForkStart mem₀ S (d + 1) P C vm) (hi : S i)
    (hr : forkEntry prepare below P C i vm = (true, vm')) :
    ∃ taken, vm.free = taken ++ vm'.free ∧
      SlotCopied (Mirror mem₀ vm'.mem d) mem₀ vm'.mem P C i (pte vm.mem C i) taken := by
  rcases h.child_eq (i := i) with ⟨hchild, hpte⟩
  rcases forkEntry_cases prepare below hprepare h.freeOk h.parentAligned h.childAligned h.root.2.1
    h.root.1 i with ⟨hnone, heq⟩ | ⟨-, heq⟩ | ⟨c, rest, old, hfree, hold, hd, heq⟩
  · -- the parent has nothing here
    obtain rfl : vm = vm' := congrArg Prod.snd (heq.symm.trans hr)
    refine ⟨[], rfl, ?_⟩
    rw [hchild] at hnone
    rw [SlotCopied, hnone]
    exact ⟨rfl, rfl⟩
  · rw [heq] at hr
    cases hr
  · rw [hchild] at hold
    rw [hpte] at hd heq
    rw [heq] at hr
    have hcmem : c ∈ vm.free := mem_of_eq_cons hfree
    have hca := h.freeOk.aligned c hcmem
    have hCc : C ≠ c := h.child_ne_free hcmem
    set mem := write64 (prepare old c vm.mem) (C + 8 * i.val) (makeEntry c (pte mem₀ P i))
      with hmem
    have hout : ∀ x, ¬ InPage C x → mem x = prepare old c vm.mem x :=
      fun _ => write64_of_not_inPage
    have hstart : ForkStart mem₀ (fun _ => True) d old c ⟨mem, rest⟩ := by
      apply h.below hi hold hfree
      intro x hxC hxc
      rw [hout x hxC, hprepare _ _ _ _ hxc]
    -- the entry went into another page than the one that was prepared
    have hready : Prepared mem₀ mem d old c := by
      have hwalk : walk (child mem₀) P [i] = some old := by rw [walk_singleton, hold]
      rcases h.parent [i] old (slotPath_cons.mpr ⟨by simp, hi⟩) hwalk with ⟨hnot, -, hsame⟩
      have hne : old ≠ c := by
        intro he
        rw [he] at hnot
        exact hnot hcmem
      apply (hprepared old c vm.mem (child_aligned hold) hca hne hsame).congr
      intro x hx
      exact hout x (inPage_of_ne hca h.childAligned hCc.symm hx)
    rcases hfills old c _ vm' hstart hready hr with ⟨taken, hrest, hmirror⟩
    refine ⟨c :: taken, ?_, ?_⟩
    · rw [hfree, List.cons_append]
      exact congrArg (c :: ·) hrest
    · have hentry : pte vm'.mem C i = makeEntry c (pte mem₀ P i) := by
        rcases htakes old c ⟨mem, rest⟩ with ⟨taken', hkept⟩
        rw [hr] at hkept
        have hCrest : C ∉ rest := by
          intro hC
          apply h.childTaken
          rw [hfree]
          exact List.mem_cons_of_mem c hC
        have hpage : ∀ x, InPage C x → vm'.mem x = mem x := by
          intro x hx
          exact hkept.page_kept hstart.freeOk h.childAligned hCrest
            (fun y hy => inPage_of_ne h.childAligned hca hCc hy) hx
        rw [pte_congr hpage, hmem, pte_write64 h.childAligned h.childAligned (makeEntry_lt _ _),
          if_pos ⟨rfl, rfl⟩]
      rw [SlotCopied, hold]
      refine ⟨c, taken, rfl, hentry, ?_, hmirror⟩
      rw [child, hentry]
      exact hd

/-- A slot of the child's table that nothing was stored into. -/
theorem ForkStart.slot_kept (h : ForkStart mem₀ S d P C vm) {R : Nat → Prop}
    (ht : Takes R vm vm' taken) (hR : ∀ x, InSlot C i x → ¬ R x) :
    pte vm'.mem C i = pte vm.mem C i := by
  apply read64_congr
  intro n hn
  have hslot : InSlot C i (C + 8 * i.val + n) := by
    unfold InSlot
    omega
  by_contra hne
  rcases ht.frame _ hne with hRx | ⟨c, hc, hin⟩
  · exact hR _ hslot hRx
  · have hfree := ht.taken_sub hc
    have hCc : C ≠ c := h.child_ne_free hfree
    exact inPage_of_ne h.childAligned (h.freeOk.aligned c hfree) hCc (hslot.inPage i.isLt) hin

/-- What the frames `taken` hold stays, as long as only slots of `C` are written. -/
theorem SlotCopied.kept {fr : List Nat} {e₀ : Nat}
    (hslot : SlotCopied (Mirror mem₀ vm.mem d) mem₀ vm.mem P C i e₀ fr) {R : Nat → Prop}
    (ht : Takes R vm vm' taken) (hok : FreeOk vm.free) (hpte : pte vm'.mem C i = pte vm.mem C i)
    (hfr : ∀ c ∈ fr, Aligned c ∧ c ∉ vm.free ∧ ∀ x, InPage c x → ¬ R x) :
    SlotCopied (Mirror mem₀ vm'.mem d) mem₀ vm'.mem P C i e₀ fr := by
  have hpage : ∀ c ∈ fr, ∀ x, InPage c x → vm'.mem x = vm.mem x := by
    intro c hc x hx
    rcases hfr c hc with ⟨hca, hnot, hR⟩
    exact ht.page_kept hok hca hnot hR hx
  apply hslot.congr hpte
  intro old c rest heq hmirror
  rw [heq] at hpage
  apply hmirror.congr
  · exact hpage c List.mem_cons_self
  · intro c' hc'
    exact hpage c' (List.mem_cons_of_mem c hc')

/-- The frames of one more slot. -/
theorem Parts.insert {part : Fin 512 → List Nat} {fr fr' : List Nat} (h : Parts part fr')
    (hnodup : fr.Nodup) (hdisj : ∀ c ∈ fr, c ∉ fr') (i : Fin 512) :
    Parts (update part i fr) (fr ++ fr') := by
  have hcases : ∀ j c, c ∈ update part i fr j → (j = i ∧ c ∈ fr) ∨ (j ≠ i ∧ c ∈ part j) := by
    intro j c hc
    by_cases hj : j = i
    · subst hj
      rw [update_self] at hc
      exact Or.inl ⟨rfl, hc⟩
    · rw [update_of_ne hj] at hc
      exact Or.inr ⟨hj, hc⟩
  constructor
  · intro j c hc
    rcases hcases j c hc with ⟨-, hc⟩ | ⟨-, hc⟩
    · exact List.mem_append_left _ hc
    · exact List.mem_append_right _ (h.sub j c hc)
  · intro j l c hj hl
    rcases hcases j c hj with ⟨hji, hcj⟩ | ⟨-, hcj⟩
    · rcases hcases l c hl with ⟨hli, -⟩ | ⟨-, hcl⟩
      · exact hji.trans hli.symm
      · exact absurd (h.sub l c hcl) (hdisj c hcj)
    · rcases hcases l c hl with ⟨-, hcl⟩ | ⟨-, hcl⟩
      · exact absurd (h.sub j c hcj) (hdisj c hcl)
      · exact h.apart j l c hcj hcl
  · intro j
    by_cases hj : j = i
    · rw [hj, update_self]
      exact hnodup
    · rw [update_of_ne hj]
      exact h.nodup j

/-- What a loop over the slots from `i` on leaves, if all its rounds do. -/
theorem forkEntries_copied {entry : Nat → Vm → Bool × Vm}
    (htakes : ∀ i vm, ∃ taken, Takes (InSlot C i) vm (entry i vm).2 taken)
    (hentry : ∀ (i : Fin 512) vm vm', S i → ForkStart mem₀ S (d + 1) P C vm →
      entry i vm = (true, vm') → ∃ taken, vm.free = taken ++ vm'.free ∧
        SlotCopied (Mirror mem₀ vm'.mem d) mem₀ vm'.mem P C i (pte vm.mem C i) taken)
    (n i : Nat) (hn : i + n ≤ 512) (hS : ∀ j : Fin 512, i ≤ j.val → j.val < i + n → S j)
    (h : ForkStart mem₀ S (d + 1) P C vm) (hr : forkEntries entry i n vm = (true, vm')) :
    ∃ taken part, Takes (fun x => ∃ j, i ≤ j ∧ j < 512 ∧ InSlot C j x) vm vm' taken ∧
      Parts part taken ∧ ∀ j : Fin 512, i ≤ j.val → j.val < i + n →
        SlotCopied (Mirror mem₀ vm'.mem d) mem₀ vm'.mem P C j (pte vm.mem C j) (part j) := by
  induction n generalizing i vm with
  | zero =>
    obtain rfl : vm = vm' := congrArg Prod.snd hr
    refine ⟨[], fun _ => [], .refl, ⟨?_, ?_, ?_⟩, ?_⟩
    · intro j c hc
      exact hc
    · intro j l c hc
      cases hc
    · exact fun _ => List.nodup_nil
    · intro j hlo hhi
      omega
  | succ n ih =>
    rcases (⟨⟨i, by omega⟩, rfl⟩ : ∃ j : Fin 512, j.val = i) with ⟨j₀, hj₀⟩
    rcases htakes i vm with ⟨taken₁, ht₁⟩
    rcases hres : entry i vm with ⟨_ | _, vm₁⟩
    · rw [forkEntries, hres] at hr
      cases hr
    rw [forkEntries, hres] at hr
    rw [hres] at ht₁
    rcases hentry j₀ vm vm₁ (hS j₀ (by omega) (by omega)) h (by rw [hj₀, hres]) with
      ⟨taken, hfree, hslot⟩
    obtain rfl : taken = taken₁ := List.append_cancel_right (hfree.symm.trans ht₁.free)
    have hstart := h.takes (ht₁.mono fun x hx => hx.inPage (by omega))
    rcases ih (i + 1) (by omega) (fun j hlo hhi => hS j (by omega) (by omega)) hstart hr with
      ⟨taken₂, part, ht₂, hparts, hslots⟩
    refine ⟨taken ++ taken₂, update part j₀ taken, ?_, ?_, ?_⟩
    · apply (ht₁.mono _).trans ht₂
      · rintro x ⟨j, hlo, hhi, hx⟩
        exact Or.inl ⟨j, by omega, hhi, hx⟩
      · intro x hx
        exact ⟨i, Nat.le_refl i, by omega, hx⟩
    · apply hparts.insert
      · have hnodup := h.freeOk.nodup
        rw [hfree] at hnodup
        exact hnodup.of_append_left
      · intro c hc hc'
        exact ht₁.not_free h.freeOk hc (ht₂.taken_sub hc')
    · intro j hlo hhi
      by_cases hj : j = j₀
      · -- the slot of this round: the later ones do not touch it
        subst hj
        rw [update_self]
        apply hslot.kept ht₂ hstart.freeOk
        · apply hstart.slot_kept ht₂
          rintro x hx ⟨l, hl, -, hx'⟩
          unfold InSlot at hx hx'
          omega
        · intro c hc
          have hfree' := ht₁.taken_sub hc
          have hca := h.freeOk.aligned c hfree'
          have hcC : c ≠ C := (h.child_ne_free hfree').symm
          refine ⟨hca, ht₁.not_free h.freeOk hc, ?_⟩
          rintro x hx ⟨l, -, hl, hx'⟩
          exact inPage_of_ne hca h.childAligned hcC hx (hx'.inPage hl)
      · -- a later slot: this round did not touch it
        have hne : j.val ≠ i := fun heq => hj (Fin.ext (heq.trans hj₀.symm))
        rw [update_of_ne hj]
        have hkept : pte vm₁.mem C j = pte vm.mem C j := by
          apply h.slot_kept ht₁
          intro x hx hx'
          unfold InSlot at hx hx'
          omega
        rw [← hkept]
        exact hslots j (by omega) (by omega)

/-! ## The levels -/

theorem prepared_copyPage (old c : Nat) (mem : ByteMem) (hold : Aligned old) (hc : Aligned c)
    (hne : old ≠ c) (hsame : ∀ x, InPage old x → mem x = mem₀ x) :
    Prepared mem₀ (copyPage old c mem) 0 old c := by
  intro n hn
  have hapart : c + pageSize ≤ old ∨ old + pageSize ≤ c := by
    unfold Aligned at hold hc
    simp only [pageSize]
    omega
  have hin : c ≤ c + n ∧ c + n < c + pageSize := by
    simp only [pageSize]
    omega
  rw [copyPage, copy_apply hapart, if_pos hin, Nat.add_sub_cancel_left]
  exact hsame _ (inPage_add hn)

theorem prepared_clearPage (d old c : Nat) (mem : ByteMem) :
    Prepared mem₀ (clearPage old c mem) (d + 1) old c := pte_fill mem c

/-- The loop over a table that was prepared for it. -/
theorem fills_table {prepare : Nat → Nat → ByteMem → ByteMem} {below : Nat → Nat → Vm → Bool × Vm}
    (hprepare : ∀ old c mem x, ¬ InPage c x → prepare old c mem x = mem x)
    (hprepared : ∀ old c mem, Aligned old → Aligned c → old ≠ c →
      (∀ x, InPage old x → mem x = mem₀ x) → Prepared mem₀ (prepare old c mem) d old c)
    (htakes : ∀ P C vm, ∃ taken, Takes (InPage C) vm (below P C vm).2 taken)
    (hfills : Fills mem₀ d below) :
    Fills mem₀ (d + 1) (fun P C => forkEntries (forkEntry prepare below P C) 0 512) := by
  intro P C vm vm' h hzero hr
  rcases forkEntries_copied (fun i vm => forkEntry_takes hprepare htakes P C i vm)
    (fun i vm vm' hi h hr => forkEntry_copied hprepare hprepared htakes hfills h hi hr)
    512 0 (Nat.le_refl _) (fun _ _ _ => trivial) h hr with ⟨taken, part, ht, hparts, hslots⟩
  refine ⟨taken, ht.free, part, hparts, ?_⟩
  intro j
  have hslot := hslots j (Nat.zero_le _) (by omega)
  rw [hzero j] at hslot
  exact hslot

theorem fills_forkPt : Fills mem₀ 1 forkPt := by
  apply fills_table (fun _ _ _ _ hx => copyPage_apply hx) prepared_copyPage
  · exact fun _ _ _ => ⟨[], .refl⟩
  · -- the page is a copy as soon as it is filled
    intro P C vm vm' _ hbytes hr
    obtain rfl : vm = vm' := congrArg Prod.snd hr
    exact ⟨[], rfl, hbytes⟩

theorem fills_forkPd : Fills mem₀ 2 forkPd :=
  fills_table (fun _ _ _ _ hx => clearPage_apply hx)
    (fun old c mem _ _ _ _ => prepared_clearPage 0 old c mem) forkPt_takes fills_forkPt

theorem fills_forkPdpt : Fills mem₀ 3 forkPdpt :=
  fills_table (fun _ _ _ _ hx => clearPage_apply hx)
    (fun old c mem _ _ _ _ => prepared_clearPage 1 old c mem) forkPd_takes fills_forkPd

/-- The slots of the user half. -/
def LowerSlot (i : Fin 512) : Prop := i.val < 256

instance (i : Fin 512) : Decidable (LowerSlot i) := inferInstanceAs (Decidable (_ < _))

/-- `fork_address_space`, if it returns 0. The slots the parent does not use are what they
were in the frame of the child's PML4. -/
theorem forkAddressSpace_copied (h : ForkStart mem₀ LowerSlot 4 P C vm)
    (hr : forkAddressSpace P C vm = (true, vm')) :
    ∃ taken part, vm.free = taken ++ vm'.free ∧ Parts part taken ∧
      ∀ j, LowerSlot j → SlotCopied (Mirror mem₀ vm'.mem 3) mem₀ vm'.mem P C j (pte vm.mem C j)
        (part j) := by
  rcases forkEntries_copied
    (fun i vm => forkEntry_takes (fun _ _ _ _ hx => clearPage_apply hx) forkPdpt_takes P C i vm)
    (fun i vm vm' hi h hr => forkEntry_copied (fun _ _ _ _ hx => clearPage_apply hx)
      (fun old c mem _ _ _ _ => prepared_clearPage 2 old c mem) forkPdpt_takes fills_forkPdpt
      h hi hr)
    256 0 (by omega) (fun j _ hj => by simpa [LowerSlot] using hj) (h.takes (copyUpper_takes P C vm)) hr with
    ⟨taken, part, ht, hparts, hslots⟩
  refine ⟨taken, part, ht.free, hparts, ?_⟩
  intro j hj
  have hstale : pte (copyWords vm.mem C P 256 256) C j = pte vm.mem C j := by
    unfold LowerSlot at hj
    apply read64_congr
    intro n hn
    apply copyWords_apply_of_outside
    omega
  rw [← hstale]
  unfold LowerSlot at hj
  exact hslots j (Nat.zero_le _) (by omega)

/-! ## How many frames a copy takes -/

/-- The frames for one slot, if `below` counts those one level down. -/
def slotCost (below : Nat → Nat) (mem : ByteMem) (P i : Nat) : Nat :=
  if Present (read64 mem (P + 8 * i)) then 1 + below (entryGetAddr (read64 mem (P + 8 * i))) else 0

/-- The frames for `n` slots from `i` on. -/
def loopCost (cost : Nat → Nat) : Nat → Nat → Nat
  | _, 0 => 0
  | i, n + 1 => cost i + loopCost cost (i + 1) n

/-- The frames for all that is below a table. -/
def copyCost (mem : ByteMem) : Nat → Nat → Nat
  | 0, _ => 0
  | d + 1, P => loopCost (slotCost (copyCost mem d) mem P) 0 512

theorem loopCost_zero {cost : Nat → Nat} {n i : Nat}
    (h : ∀ j, i ≤ j → j < i + n → cost j = 0) : loopCost cost i n = 0 := by
  induction n generalizing i with
  | zero => rfl
  | succ n ih =>
    rw [loopCost, h i (Nat.le_refl i) (by omega), ih fun j hlo hhi => h j (by omega) (by omega)]

theorem slotCost_of_none {below : Nat → Nat} {mem : ByteMem} (h : child mem P i = none) :
    slotCost below mem P i = 0 :=
  if_neg fun hpres => by
    have hsome : child mem P i = some (entryGetAddr (pte mem P i)) := if_pos hpres
    rw [h] at hsome
    cases hsome

theorem slotCost_of_some {below : Nat → Nat} {mem : ByteMem} (h : child mem P i = some old) :
    slotCost below mem P i = 1 + below old := by
  rcases decode_eq_some h with ⟨haddr, hpres⟩
  have hone : slotCost below mem P i = 1 + below (entryGetAddr (pte mem P i)) := if_pos hpres
  rw [hone, haddr]

/-- Only slots that are used cost something. -/
theorem loopCost_eq_zero_iff {cost : Nat → Nat} {n i : Nat} :
    loopCost cost i n = 0 ↔ ∀ j, i ≤ j → j < i + n → cost j = 0 := by
  refine ⟨fun h => ?_, loopCost_zero⟩
  induction n generalizing i with
  | zero =>
    intro j hlo hhi
    omega
  | succ n ih =>
    rw [loopCost, Nat.add_eq_zero_iff] at h
    intro j hlo hhi
    rcases Nat.eq_or_lt_of_le hlo with rfl | hlt
    · exact h.1
    · exact ih h.2 j hlt (by omega)

theorem slotCost_eq_zero_iff {below : Nat → Nat} {mem : ByteMem} :
    slotCost below mem P i = 0 ↔ child mem P i = none := by
  refine ⟨fun h => ?_, slotCost_of_none⟩
  cases hold : child mem P i with
  | none => rfl
  | some old =>
    rw [slotCost_of_some hold] at h
    omega

/-- A table of which only the first slot is used. -/
theorem loopCost_single {below : Nat → Nat} {mem : ByteMem} {n : Nat} (hpos : 0 < n) (hn : n ≤ 512)
    (hfirst : child mem P 0 = some old) (hrest : ∀ j : Fin 512, j ≠ 0 → child mem P j = none) :
    loopCost (slotCost below mem P) 0 n = 1 + below old := by
  rcases Nat.exists_eq_add_of_lt hpos with ⟨m, rfl⟩
  have hzero : loopCost (slotCost below mem P) 1 (0 + m) = 0 := by
    apply loopCost_zero
    intro j hlo hhi
    apply slotCost_of_none (i := ⟨j, by omega⟩)
    apply hrest
    intro heq
    have hval := congrArg Fin.val heq
    simp only [Fin.val_zero] at hval
    omega
  rw [loopCost, hzero]
  exact slotCost_of_some (i := 0) hfirst

/-- A result `r` of code that needs `cost` frames: it succeeds exactly if there are as many,
and takes that many; it fails with no frame left. -/
structure Pays (cost : Nat) (vm : Vm) (r : Bool × Vm) : Prop where
  enough : cost ≤ vm.free.length → r.1 = true ∧ r.2.free.length + cost = vm.free.length
  short : vm.free.length < cost → r.1 = false ∧ r.2.free = []

/-- Nothing is needed. -/
theorem Pays.nothing : Pays 0 vm (true, vm) :=
  ⟨fun _ => ⟨rfl, rfl⟩, fun hlt => absurd hlt (Nat.not_lt_zero _)⟩

/-- The code takes a frame for each table and page it copies. -/
def Affords (mem₀ : ByteMem) (d : Nat) (below : Nat → Nat → Vm → Bool × Vm) : Prop :=
  ∀ P C vm, ForkStart mem₀ (fun _ => True) d P C vm →
    Pays (copyCost mem₀ d P) vm (below P C vm)

theorem forkEntry_affords {prepare : Nat → Nat → ByteMem → ByteMem}
    {below : Nat → Nat → Vm → Bool × Vm}
    (hprepare : ∀ old c mem x, ¬ InPage c x → prepare old c mem x = mem x)
    (hbelow : Affords mem₀ d below) (h : ForkStart mem₀ S (d + 1) P C vm) (hi : S i) :
    Pays (slotCost (copyCost mem₀ d) mem₀ P i) vm (forkEntry prepare below P C i vm) := by
  rcases h.child_eq (i := i) with ⟨hchild, -⟩
  cases hold : child mem₀ P i with
  | none =>
    rw [slotCost_of_none hold]
    rw [← hchild] at hold
    have hskip : forkEntry prepare below P C i vm = (true, vm) :=
      if_pos (not_present_of_child_none hold)
    rw [hskip]
    exact .nothing
  | some old =>
    rw [slotCost_of_some hold]
    rcases forkEntry_cases prepare below hprepare h.freeOk h.parentAligned h.childAligned
      h.root.2.1 h.root.1 i with ⟨hnone, -⟩ | ⟨hempty, heq⟩ | ⟨c, rest, old', hfree, hold', -, heq⟩
    · rw [hchild, hold] at hnone
      cases hnone
    · rw [heq]
      refine ⟨fun hle => ?_, fun _ => ⟨rfl, hempty⟩⟩
      rw [hempty, List.length_nil] at hle
      omega
    · rw [hchild, hold] at hold'
      cases hold'
      have hlen : vm.free.length = rest.length + 1 := by rw [hfree, List.length_cons]
      have hstart : ForkStart mem₀ (fun _ => True) d old c
          ⟨write64 (prepare old c vm.mem) (C + 8 * i.val) (makeEntry c (pte vm.mem P i)), rest⟩ := by
        apply h.below hi hold hfree
        intro x hxC hxc
        rw [write64_of_not_inPage hxC, hprepare _ _ _ _ hxc]
      rcases hbelow old c _ hstart with ⟨henough, hshort⟩
      simp only at henough hshort
      rw [heq]
      constructor
      · intro hle
        rcases henough (by omega) with ⟨hflag, hcount⟩
        exact ⟨hflag, by omega⟩
      · intro hlt
        exact hshort (by omega)

theorem forkEntries_affords {prepare : Nat → Nat → ByteMem → ByteMem}
    {below : Nat → Nat → Vm → Bool × Vm}
    (hprepare : ∀ old c mem x, ¬ InPage c x → prepare old c mem x = mem x)
    (htakes : ∀ P C vm, ∃ taken, Takes (InPage C) vm (below P C vm).2 taken)
    (hbelow : Affords mem₀ d below) (n i : Nat) (hn : i + n ≤ 512)
    (hS : ∀ j : Fin 512, i ≤ j.val → j.val < i + n → S j)
    (h : ForkStart mem₀ S (d + 1) P C vm) :
    Pays (loopCost (slotCost (copyCost mem₀ d) mem₀ P) i n) vm
      (forkEntries (forkEntry prepare below P C) i n vm) := by
  induction n generalizing i vm with
  | zero => exact .nothing
  | succ n ih =>
    rcases (⟨⟨i, by omega⟩, rfl⟩ : ∃ j : Fin 512, j.val = i) with ⟨j, rfl⟩
    rcases forkEntry_affords hprepare hbelow h (hS j (Nat.le_refl _) (by omega)) with
      ⟨henough, hshort⟩
    rcases forkEntry_takes hprepare htakes P C j vm with ⟨taken, ht⟩
    rw [loopCost, forkEntries]
    generalize forkEntry prepare below P C j vm = res at henough hshort ht ⊢
    rcases res with ⟨r, vm₁⟩
    have hstart : ForkStart mem₀ S (d + 1) P C vm₁ :=
      h.takes (ht.mono fun x hx => hx.inPage j.isLt)
    rcases ih (j.val + 1) (by omega) (fun l hlo hhi => hS l (by omega) (by omega)) hstart with
      ⟨henough', hshort'⟩
    by_cases hle : slotCost (copyCost mem₀ d) mem₀ P j ≤ vm.free.length
    · rcases henough hle with ⟨rfl, hcount⟩
      simp only at hcount ⊢
      constructor
      · intro hall
        rcases henough' (by omega) with ⟨hflag, hcount'⟩
        exact ⟨hflag, by omega⟩
      · intro hlt
        exact hshort' (by omega)
    · -- this round has too few
      rcases hshort (by omega) with ⟨rfl, hempty⟩
      exact ⟨fun hall => by omega, fun _ => ⟨rfl, hempty⟩⟩

theorem affords_forkPt : Affords mem₀ 1 forkPt := by
  intro P C vm h
  apply forkEntries_affords (fun _ _ _ _ hx => copyPage_apply hx) (fun _ _ _ => ⟨[], .refl⟩) _ 512 0
    (Nat.le_refl _) (fun _ _ _ => trivial) h
  exact fun _ _ vm _ => .nothing

theorem affords_table {below : Nat → Nat → Vm → Bool × Vm}
    (htakes : ∀ P C vm, ∃ taken, Takes (InPage C) vm (below P C vm).2 taken)
    (hbelow : Affords mem₀ d below) :
    Affords mem₀ (d + 1) (fun P C => forkEntries (forkEntry clearPage below P C) 0 512) := by
  intro P C vm h
  exact forkEntries_affords (fun _ _ _ _ hx => clearPage_apply hx) htakes hbelow 512 0
    (Nat.le_refl _) (fun _ _ _ => trivial) h

/-- How many frames the copy of the user half takes. -/
def forkCost (mem : ByteMem) (P : Nat) : Nat := loopCost (slotCost (copyCost mem 3) mem P) 0 256

theorem forkCost_eq_zero_iff {mem : ByteMem} :
    forkCost mem P = 0 ↔ ∀ j, LowerSlot j → child mem P j = none := by
  rw [forkCost, loopCost_eq_zero_iff]
  constructor
  · intro h j hj
    exact slotCost_eq_zero_iff.mp (h j (Nat.zero_le _) (by unfold LowerSlot at hj; omega))
  · intro h j _ hj
    exact slotCost_of_none (i := ⟨j, by omega⟩) (h _ (by unfold LowerSlot; simpa using hj))

/-- `fork_address_space` returns 0 exactly if there are enough free frames. -/
theorem forkAddressSpace_affords (h : ForkStart mem₀ LowerSlot 4 P C vm) :
    Pays (forkCost mem₀ P) vm (forkAddressSpace P C vm) := by
  have hloop : Pays (forkCost mem₀ P) { vm with mem := copyWords vm.mem C P 256 256 }
      (forkAddressSpace P C vm) :=
    forkEntries_affords (fun _ _ _ _ hx => clearPage_apply hx) forkPdpt_takes
      (affords_table forkPd_takes (affords_table forkPt_takes affords_forkPt)) 256 0 (by omega)
      (fun j _ hj => by simpa [LowerSlot] using hj) (h.takes (copyUpper_takes P C vm))
  exact ⟨hloop.enough, hloop.short⟩

end Loops

end Orchid
