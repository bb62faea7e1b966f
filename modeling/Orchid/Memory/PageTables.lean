import Orchid.Memory.Vmm

/-! # What the page-table code does to the trees in memory

Any number of address spaces share one physical memory; `root k` is the PML4
of address space `k`. `D k` are the paths of `k` whose tables the code may walk
through and store into, `E k` those whose tables or frames are known to be
distinct from everything else that is tracked. The forest invariant says that
they are, and that the free stack is disjoint from them.

* `Hung` says what one successful `ensure_page_table` does: one empty table
  appears at the end of one path, and every other path is as before.
* `descend` is the walk of `mapAt` as a recursion; `Grown` says what it does.
* `mapAt_of_missing` and `mapAt_of_enough` are the two outcomes of a map.
-/

namespace Orchid

open ByteMem Radix

/-- `x` lies in the page at `f`. -/
def InPage (f x : Nat) : Prop := f ≤ x ∧ x < f + 4096

instance (f x : Nat) : Decidable (InPage f x) := inferInstanceAs (Decidable (_ ∧ _))

/-- The top of the free stack is on it. -/
theorem mem_of_eq_cons {free rest : List Nat} {c : Nat} (h : free = c :: rest) : c ∈ free := by
  rw [h]
  exact List.mem_cons_self

theorem inPage_add {f n : Nat} (hn : n < 4096) : InPage f (f + n) :=
  ⟨Nat.le_add_right f n, Nat.add_lt_add_left hn f⟩

/-- Pages do not overlap. -/
theorem inPage_unique {f c x : Nat} (hf : Aligned f) (hc : Aligned c) (hfx : InPage f x)
    (hcx : InPage c x) : f = c := by
  unfold Aligned InPage at *
  omega

/-! ## Stores, seen through the links -/

section Stores

variable {mem mem' : ByteMem} {f g c : Nat} {i j : Fin 512}

theorem write64_of_not_inPage {x e : Nat} (h : ¬ InPage f x) :
    write64 mem (f + 8 * i.val) e x = mem x := by
  have hi := i.isLt
  unfold InPage at h
  exact write64_apply_of_outside (by omega)

theorem copyUpper_apply {x : Nat} (h : ¬ InPage c x) : copyWords mem c f 256 256 x = mem x := by
  unfold InPage at h
  exact copyWords_apply_of_outside (by omega)

/-- An entry depends on its table's page only. -/
theorem pte_congr (h : ∀ x, InPage f x → mem' x = mem x) : pte mem' f i = pte mem f i := by
  refine read64_congr fun n hn => h _ ?_
  have := i.isLt
  constructor <;> omega

theorem child_congr (h : ∀ x, InPage f x → mem' x = mem x) : child mem' f i = child mem f i := by
  rw [child, child, pte_congr h]

theorem pte_write64 (hf : Aligned f) (hg : Aligned g) {v : Nat} (hv : v < 2 ^ 64) :
    pte (write64 mem (f + 8 * i.val) v) g j = if g = f ∧ j = i then v else pte mem g j := by
  by_cases h : g = f ∧ j = i
  · obtain ⟨rfl, rfl⟩ := h
    rw [if_pos ⟨rfl, rfl⟩, pte, read64_write64_self hv]
  · rw [if_neg h]
    refine read64_write64_of_disjoint ?_
    have hi := i.isLt
    have hj := j.isLt
    unfold Aligned at hf hg
    rcases lt_trichotomy g f with hlt | rfl | hlt
    · omega
    · have hne : j.val ≠ i.val := fun he => h ⟨rfl, Fin.ext he⟩
      omega
    · omega

theorem pte_clearWords (hc : Aligned c) (hg : Aligned g) :
    pte (clearWords mem c 512) g j = if g = c then 0 else pte mem g j := by
  have hj := j.isLt
  split
  · next h =>
    subst h
    refine (readLE_of_digits (v := 0) fun n hn => ?_).trans (Nat.zero_mod _)
    have hin : g ≤ g + 8 * j.val + n ∧ g + 8 * j.val + n < g + 8 * 512 := by omega
    rw [clearWords_apply, if_pos hin, Nat.zero_div]
    rfl
  · next h =>
    refine read64_congr fun n hn => ?_
    have hout : ¬ (c ≤ g + 8 * j.val + n ∧ g + 8 * j.val + n < c + 8 * 512) := by
      unfold Aligned at hc hg
      omega
    rw [clearWords_apply, if_neg hout]

theorem child_write64 (hf : Aligned f) (hg : Aligned g) {v : Nat} (hv : v < 2 ^ 64) :
    child (write64 mem (f + 8 * i.val) v) g j = Radix.set (child mem) f i (decode v) g j := by
  rw [child, pte_write64 hf hg hv, Radix.set, child]
  split <;> rfl

theorem walk_write64 {r : Nat} {q : List (Fin 512)} (hr : Aligned r) (hf : Aligned f) {v : Nat}
    (hv : v < 2 ^ 64) :
    walk (child (write64 mem (f + 8 * i.val) v)) r q =
      walk (Radix.set (child mem) f i (decode v)) r q := by
  refine (walk_congr_on (P := Aligned) hr (fun _ _ _ _ h => child_aligned h) ?_).symm
  intro g j hg
  exact (child_write64 hf hg hv).symm

theorem decode_makeEntry {phys flags : Nat} (h : Aligned phys) (h' : phys < 2 ^ 52)
    (hf : flags % 2 = 1) : decode (makeEntry phys flags) = some phys := by
  rw [decode, if_pos (present_makeEntry phys hf), entryGetAddr_makeEntry h h']

/-- In a memory of zeros there are no tables. -/
theorem child_zero (g : Nat) (i : Fin 512) : child (fun _ => 0) g i = none := by
  simp [child, pte, read64, readLE, decode, Present]

end Stores

/-! ## Forests of page tables -/

/-- How the tracked sets of paths fit together. -/
structure Tracked {K : Type} (D E : K → List (Fin 512) → Prop) : Prop where
  closed : ∀ k, PrefixClosed (D k)
  sub : ∀ k p, D k p → E k p
  below : ∀ k p, E k p → Below (D k) p

/-- What the free stack always is: distinct page-aligned frames, not page 0. -/
structure FreeOk (free : List Nat) : Prop where
  nodup : free.Nodup
  nonzero : ∀ c ∈ free, c ≠ 0
  aligned : ∀ c ∈ free, Aligned c
  small : ∀ c ∈ free, c < 2 ^ 52

theorem FreeOk.tail {c : Nat} {free : List Nat} (h : FreeOk (c :: free)) : FreeOk free where
  nodup := h.nodup.of_cons
  nonzero := fun x hx => h.nonzero x (List.mem_cons_of_mem c hx)
  aligned := fun x hx => h.aligned x (List.mem_cons_of_mem c hx)
  small := fun x hx => h.small x (List.mem_cons_of_mem c hx)

/-- The tracked tables are distinct, and none of them is free. -/
structure Forest {K : Type} (root : K → Nat) (D E : K → List (Fin 512) → Prop) (vm : Vm) :
    Prop where
  tracked : Tracked D E
  aligned : ∀ k, Aligned (root k)
  distinct : Distinct (child vm.mem) root E
  fresh : ∀ c ∈ vm.free, Fresh (child vm.mem) root E c
  freeOk : FreeOk vm.free

section Forests

variable {K : Type} {root : K → Nat} {D E : K → List (Fin 512) → Prop} {vm vm₁ vm₂ : Vm}
  {k : K} {p q : List (Fin 512)} {i : Fin 512} {f c : Nat}

theorem Forest.distinctTables (h : Forest root D E vm) : Distinct (child vm.mem) root D :=
  fun k p k' p' f hp hp' => h.distinct k p k' p' f (h.tracked.sub k p hp) (h.tracked.sub k' p' hp')

theorem Forest.freshTables (h : Forest root D E vm) (hc : c ∈ vm.free) :
    Fresh (child vm.mem) root D c :=
  fun k p hp => h.fresh c hc k p (h.tracked.sub k p hp)

/-- What is written into a frame that is on no tracked path is not seen. -/
theorem Forest.walk_scribble (h : Forest root D E vm) (hc : Fresh (child vm.mem) root D c)
    (hca : Aligned c) {mem : ByteMem} (hout : ∀ x, ¬ InPage c x → mem x = vm.mem x)
    (hq : Below (D k) q) : walk (child mem) (root k) q = walk (child vm.mem) (root k) q := by
  refine walk_congr fun p j q' g heq hg => child_congr fun x hx => hout x fun hxc => ?_
  have hga : Aligned g := walk_aligned (h.aligned k) hg
  have hgc : g = c := inPage_unique hga hca hx hxc
  exact hc k p (hq p j q' heq) (hgc ▸ hg)

theorem Forest.congr {mem : ByteMem} (h : Forest root D E vm)
    (hwalk : ∀ k q, E k q → walk (child mem) (root k) q = walk (child vm.mem) (root k) q) :
    Forest root D E { vm with mem := mem } := by
  refine ⟨h.tracked, h.aligned, ?_, ?_, h.freeOk⟩
  · intro k p k' p' f hp hp' hf hf'
    rw [hwalk k p hp] at hf
    rw [hwalk k' p' hp'] at hf'
    exact h.distinct k p k' p' f hp hp' hf hf'
  · intro c' hc' k p hp
    rw [hwalk k p hp]
    exact h.fresh c' hc' k p hp

theorem Forest.scribble (h : Forest root D E vm) (hc : Fresh (child vm.mem) root D c)
    (hca : Aligned c) {mem : ByteMem} (hout : ∀ x, ¬ InPage c x → mem x = vm.mem x) :
    Forest root D E { vm with mem := mem } :=
  h.congr fun k q hq => h.walk_scribble hc hca hout (h.tracked.below k q hq)

variable [DecidableEq K]

/-- A store into a page table, the last level. -/
theorem Forest.walk_leaf (h : Forest root D E vm) (hp : D k p)
    (hf : walk (child vm.mem) (root k) p = some f) (hleaf : ¬ D k (p ++ [i])) {e : Nat}
    (he : e < 2 ^ 64) {k' : K} (hq : Below (D k') q) :
    walk (child (write64 vm.mem (f + 8 * i.val) e)) (root k') q =
      if k' = k ∧ q = p ++ [i] then decode e else walk (child vm.mem) (root k') q := by
  rw [walk_write64 (h.aligned k') (walk_aligned (h.aligned k) hf) he]
  exact walk_set_leaf (h.tracked.closed k) h.distinctTables hp hf hleaf hq _

/-- A free frame is filled so as to be an empty table, and hung into an empty
slot. -/
theorem Forest.walk_hang (h : Forest root D E vm) (hc : c ∈ vm.free) {mem : ByteMem}
    (hout : ∀ x, ¬ InPage c x → mem x = vm.mem x) (hempty : ∀ j, child mem c j = none)
    (hp : D k p) (hf : walk (child vm.mem) (root k) p = some f) (hs : child vm.mem f i = none)
    {e : Nat} (he : e < 2 ^ 64) (hd : decode e = some c) {k' : K} (hq : Below (D k') q) :
    walk (child (write64 mem (f + 8 * i.val) e)) (root k') q =
      if k' = k ∧ q = p ++ [i] then some c else walk (child vm.mem) (root k') q := by
  have hca := h.freeOk.aligned c hc
  have hfresh := h.freshTables hc
  have hcf : f ≠ c := fun he => hfresh k p hp (he ▸ hf)
  have hD : ∀ a x, D a x → walk (child mem) (root a) x = walk (child vm.mem) (root a) x :=
    fun a x hx => h.walk_scribble hfresh hca hout ((h.tracked.closed a).below hx)
  have hforest := h.scribble hfresh hca hout
  have hfresh' : Fresh (child mem) root D c := fun a x hx => by
    rw [hD a x hx]
    exact hfresh a x hx
  have hs' : child mem f i = none := by
    rw [← hs]
    exact child_congr fun x hx => hout x fun hxc =>
      hcf (inPage_unique (walk_aligned (h.aligned k) hf) hca hx hxc)
  rw [walk_write64 (h.aligned k') (walk_aligned (h.aligned k) hf) he, hd,
    walk_insert (h.tracked.closed k) hforest.distinctTables hp ((hD k p hp).trans hf) hs' hfresh'
      hempty hq, h.walk_scribble hfresh hca hout hq]

/-- From `vm` to `vm'` the frame `c` was taken from the free stack and hung
into slot `i` of the table `f` at path `p` of address space `k`; `e` is the
entry, and every other tracked path is as it was. -/
structure Hung (root : K → Nat) (D : K → List (Fin 512) → Prop) (k : K) (p : List (Fin 512))
    (i : Fin 512) (f c : Nat) (vm vm' : Vm) : Prop where
  free : vm.free = c :: vm'.free
  table : walk (child vm.mem) (root k) p = some f
  slot : child vm.mem f i = none
  walks : ∀ k' q, Below (D k') q → walk (child vm'.mem) (root k') q =
    if k' = k ∧ q = p ++ [i] then some c else walk (child vm.mem) (root k') q
  entries : ∀ g j, Aligned g → pte vm'.mem g j =
    if g = f ∧ j = i then makeEntry c (vmmPresent ||| vmmWritable)
    else if g = c then 0 else pte vm.mem g j
  frame : ∀ x, ¬ InPage c x → ¬ InPage f x → vm'.mem x = vm.mem x

/-- A frame taken from the free stack appears at the end of one path. -/
theorem Forest.insert (h : Forest root D E vm) (hfree : vm.free = c :: vm₁.free)
    (hwalks : ∀ k' q, Below (D k') q → walk (child vm₁.mem) (root k') q =
      if k' = k ∧ q = p then some c else walk (child vm.mem) (root k') q) :
    Forest root D E vm₁ := by
  have hcmem : c ∈ vm.free := mem_of_eq_cons hfree
  have hok := h.freeOk
  rw [hfree] at hok
  have hwalk : ∀ k' q, E k' q → walk (child vm₁.mem) (root k') q =
      if k' = k ∧ q = p then some c else walk (child vm.mem) (root k') q :=
    fun k' q hq => hwalks k' q (h.tracked.below k' q hq)
  refine ⟨h.tracked, h.aligned, distinct_insert h.distinct (h.fresh c hcmem) hwalk, ?_, hok.tail⟩
  intro c' hc' k' q hq
  rw [hwalk k' q hq]
  split
  · -- the frame just taken is not in the rest of the stack
    intro he
    exact (List.nodup_cons.mp hok.nodup).1 (Option.some.inj he ▸ hc')
  · exact h.fresh c' (by rw [hfree]; exact List.mem_cons_of_mem c hc') k' q hq

/-- Hanging in a free frame keeps the forest. -/
theorem Forest.hung (h : Forest root D E vm) (hh : Hung root D k p i f c vm vm₁) :
    Forest root D E vm₁ :=
  h.insert hh.free hh.walks

/-! ## `ensure_page_table` -/

theorem ensurePageTable_of_present (hc : child vm.mem f i = some c) :
    ensurePageTable (f + 8 * i.val) vm = vm := by
  have hp : Present (read64 vm.mem (f + 8 * i.val)) := (decode_eq_some hc).2
  rw [ensurePageTable, if_pos hp]

theorem not_present_of_child_none (h : child vm.mem f i = none) :
    ¬ Present (read64 vm.mem (f + 8 * i.val)) := by
  intro hp
  have : child vm.mem f i = some (entryGetAddr (pte vm.mem f i)) := if_pos hp
  rw [h] at this
  cases this

theorem ensurePageTable_of_empty (hs : child vm.mem f i = none) (hfree : vm.free = []) :
    ensurePageTable (f + 8 * i.val) vm = vm := by
  obtain ⟨mem, free⟩ := vm
  subst hfree
  simp [ensurePageTable, not_present_of_child_none hs, Vm.allocPage, pmmAllocPage]

theorem ensurePageTable_of_cons (hs : child vm.mem f i = none) {rest : List Nat}
    (hfree : vm.free = c :: rest) (hc0 : c ≠ 0) :
    ensurePageTable (f + 8 * i.val) vm =
      ⟨write64 (clearWords vm.mem c 512) (f + 8 * i.val)
        (makeEntry c (vmmPresent ||| vmmWritable)), rest⟩ := by
  obtain ⟨mem, free⟩ := vm
  simp only at hfree
  subst hfree
  simp [ensurePageTable, not_present_of_child_none hs, Vm.allocPage, pmmAllocPage, hc0]

/-- A successful `ensure_page_table`. -/
theorem ensurePageTable_hung (h : Forest root D E vm) (hp : D k p)
    (hf : walk (child vm.mem) (root k) p = some f) (hs : child vm.mem f i = none)
    {rest : List Nat} (hfree : vm.free = c :: rest) :
    Hung root D k p i f c vm (ensurePageTable (f + 8 * i.val) vm) := by
  have hcmem : c ∈ vm.free := mem_of_eq_cons hfree
  have hc0 := h.freeOk.nonzero c hcmem
  have hca := h.freeOk.aligned c hcmem
  have hfa : Aligned f := walk_aligned (h.aligned k) hf
  have hentry : decode (makeEntry c (vmmPresent ||| vmmWritable)) = some c :=
    decode_makeEntry hca (h.freeOk.small c hcmem) (by decide)
  have hout : ∀ x, ¬ InPage c x → clearWords vm.mem c 512 x = vm.mem x := fun x hx =>
    (clearWords_apply vm.mem c 512 x).trans (if_neg hx)
  rw [ensurePageTable_of_cons hs hfree hc0]
  refine ⟨hfree, hf, hs, ?_, ?_, ?_⟩
  · intro k' q hq
    refine h.walk_hang hcmem hout ?_ hp hf hs (makeEntry_lt _ _) hentry hq
    intro j
    rw [child, pte_clearWords hca hca, if_pos rfl]
    rfl
  · intro g j hg
    rw [pte_write64 hfa hg (makeEntry_lt _ _), pte_clearWords hca hg]
  · intro x hxc hxf
    exact (write64_of_not_inPage hxf).trans (hout x hxc)

theorem Hung.child_self (hh : Hung root D k p i f c vm vm₁) (hca : Aligned c) (hcf : f ≠ c)
    (j : Fin 512) : child vm₁.mem c j = none := by
  have hne : ¬ (c = f ∧ j = i) := fun h => hcf h.1.symm
  rw [child, hh.entries c j hca, if_neg hne, if_pos rfl]
  rfl

/-! ## The walk that makes missing tables -/

/-- From `vm` to `vm'` the frames `taken` were hung in, one below the other,
along the slots `q` from the table at path `p`. -/
structure Grown (root : K → Nat) (D : K → List (Fin 512) → Prop) (k : K)
    (p q : List (Fin 512)) (vm vm' : Vm) (taken : List Nat) : Prop where
  free : vm.free = taken ++ vm'.free
  walks : ∀ k' q', Below (D k') q' →
    walk (child vm'.mem) (root k') q' = walk (child vm.mem) (root k') q' ∨
    (walk (child vm.mem) (root k') q' = none ∧ k' = k ∧ (∃ q₁, q₁ <+: q ∧ q' = p ++ q₁) ∧
      ∃ c ∈ taken, walk (child vm'.mem) (root k') q' = some c)
  entries : ∀ g j, Aligned g →
    (pte vm'.mem g j = pte vm.mem g j ∧ g ∉ taken) ∨ pte vm'.mem g j = 0 ∨
      ∃ c ∈ taken, pte vm'.mem g j = makeEntry c (vmmPresent ||| vmmWritable)
  frame : ∀ x, vm'.mem x ≠ vm.mem x → (∃ c ∈ taken, InPage c x) ∨
    ∃ q₁ j q₂ g, q = q₁ ++ j :: q₂ ∧ walk (child vm.mem) (root k) (p ++ q₁) = some g ∧
      child vm.mem g j = none ∧ InPage g x

omit [DecidableEq K] in
theorem Grown.refl : Grown root D k p q vm vm [] where
  free := rfl
  walks := fun _ _ _ => Or.inl rfl
  entries := fun _ _ _ => Or.inl ⟨rfl, List.not_mem_nil⟩
  frame := fun _ h => absurd rfl h

omit [DecidableEq K] in
/-- The first table was there already. -/
theorem Grown.skip {taken : List Nat} (h : Grown root D k (p ++ [i]) q vm vm₁ taken) :
    Grown root D k p (i :: q) vm vm₁ taken where
  free := h.free
  walks := by
    intro k' q' hq'
    rcases h.walks k' q' hq' with heq | ⟨hnone, hk, ⟨q₁, hq₁, rfl⟩, hc⟩
    · exact Or.inl heq
    · refine Or.inr ⟨hnone, hk, ⟨i :: q₁, ?_, by simp⟩, hc⟩
      exact (List.prefix_cons_inj i).mpr hq₁
  entries := h.entries
  frame := by
    intro x hx
    rcases h.frame x hx with hc | ⟨q₁, j, q₂, g, rfl, hg⟩
    · exact Or.inl hc
    · exact Or.inr ⟨i :: q₁, j, q₂, g, rfl, by simpa using hg⟩

/-- The first table had to be made. -/
theorem Grown.hung {taken : List Nat} (hh : Hung root D k p i f c vm vm₁)
    (h : Grown root D k (p ++ [i]) q vm₁ vm₂ taken) (hD : PrefixClosed (D k))
    (hp : D k (p ++ i :: q)) :
    Grown root D k p (i :: q) vm vm₂ (c :: taken) where
  free := by rw [hh.free, h.free]; rfl
  walks := by
    intro k' q' hq'
    have hempty : walk (child vm.mem) (root k) (p ++ [i]) = none := by
      rw [walk_concat hh.table, hh.slot]
    have hfirst := hh.walks k' q' hq'
    by_cases hhit : k' = k ∧ q' = p ++ [i]
    · -- the new table itself: the rest of the walk does not touch it
      obtain ⟨rfl, rfl⟩ := hhit
      rw [if_pos ⟨rfl, rfl⟩] at hfirst
      refine Or.inr ⟨hempty, rfl, ⟨[i], ⟨q, rfl⟩, rfl⟩, c, List.mem_cons_self, ?_⟩
      rcases h.walks k' (p ++ [i]) hq' with heq | ⟨hnone, -⟩
      · rw [heq, hfirst]
      · rw [hfirst] at hnone
        cases hnone
    · rw [if_neg hhit] at hfirst
      rcases h.walks k' q' hq' with heq | ⟨hnone, hk, ⟨q₁, hq₁, rfl⟩, c', hc', hw⟩
      · exact Or.inl (heq.trans hfirst)
      · refine Or.inr ⟨hfirst ▸ hnone, hk, ⟨i :: q₁, ?_, by simp⟩, c',
          List.mem_cons_of_mem c hc', hw⟩
        exact (List.prefix_cons_inj i).mpr hq₁
  entries := by
    intro g j hg
    have hfirst := hh.entries g j hg
    rcases h.entries g j hg with ⟨heq, hnot⟩ | hzero | ⟨c', hc', hw⟩
    · rw [heq, hfirst]
      by_cases hslot : g = f ∧ j = i
      · exact Or.inr (Or.inr ⟨c, List.mem_cons_self, if_pos hslot⟩)
      · rw [if_neg hslot]
        by_cases hgc : g = c
        · exact Or.inr (Or.inl (if_pos hgc))
        · exact Or.inl ⟨if_neg hgc, by simp [hgc, hnot]⟩
    · exact Or.inr (Or.inl hzero)
    · exact Or.inr (Or.inr ⟨c', List.mem_cons_of_mem c hc', hw⟩)
  frame := by
    intro x hx
    by_cases hc : InPage c x
    · exact Or.inl ⟨c, List.mem_cons_self, hc⟩
    by_cases hf : InPage f x
    · exact Or.inr ⟨[], i, q, f, rfl, by simpa using hh.table, hh.slot, hf⟩
    rw [← hh.frame x hc hf] at hx
    rcases h.frame x hx with ⟨c', hc', hin⟩ | ⟨q₁, j, q₂, g, rfl, hg, hslot, hin⟩
    · exact Or.inl ⟨c', List.mem_cons_of_mem c hc', hin⟩
    · -- below the new table there was nothing to write to but the table itself
      have hw := hh.walks k (p ++ [i] ++ q₁) ?_
      · rw [hg, walk_append (p ++ [i]), walk_concat hh.table, hh.slot] at hw
        split at hw
        · exact absurd (Option.some.inj hw ▸ hin) hc
        · cases hw
      · refine hD.below (hD (p ++ [i] ++ q₁) (j :: q₂) ?_)
        simpa using hp

/-- What the walk does, and that it reaches the end exactly if there is a free
frame for every missing table. -/
theorem descend_spec (h : Forest root D E vm) (hpq : D k (p ++ q))
    (hf : walk (child vm.mem) (root k) p = some f) :
    ∃ taken, Grown root D k p q vm (descend f q vm).2 taken ∧
      Forest root D E (descend f q vm).2 ∧
      if missing (child vm.mem) f q ≤ vm.free.length then
        taken.length = missing (child vm.mem) f q ∧
          ∃ t, (descend f q vm).1 = some t ∧
            walk (child (descend f q vm).2.mem) (root k) (p ++ q) = some t
      else
        (descend f q vm).1 = none ∧ (descend f q vm).2.free = [] ∧
          walk (child (descend f q vm).2.mem) (root k) (p ++ q) = none := by
  -- along the path: each slot is used as it is, or is filled, or the stack is empty
  induction q generalizing p f vm with
  | nil => exact ⟨[], .refl, h, by simpa [descend, missing] using hf⟩
  | cons i q ih =>
    have hp : D k p := h.tracked.closed k p (i :: q) hpq
    have hpq' : D k (p ++ [i] ++ q) := by simpa using hpq
    cases hs : child vm.mem f i with
    | some c =>
      have heq : descend f (i :: q) vm = descend c q vm := by
        simp only [descend, ensurePageTable_of_present hs, hs]
      obtain ⟨taken, hgrown, hforest, hres⟩ := ih h hpq' ((walk_concat hf).trans hs)
      refine ⟨taken, heq ▸ hgrown.skip, heq ▸ hforest, ?_⟩
      simpa only [heq, missing, hs, List.append_assoc, List.singleton_append] using hres
    | none =>
      have hmissing : missing (child vm.mem) f (i :: q) = q.length + 1 := by
        rw [missing, hs]
      cases hfree : vm.free with
      | nil =>
        have heq : descend f (i :: q) vm = (none, vm) := by
          simp only [descend, ensurePageTable_of_empty hs hfree, hs]
        have hnone : walk (child vm.mem) (root k) (p ++ i :: q) = none := by
          rw [walk_append, hf, Option.bind_some, walk_cons, hs]
          rfl
        rw [heq, hmissing]
        exact ⟨[], .refl, h, by simp [hfree, hnone]⟩
      | cons c rest =>
        have hh := ensurePageTable_hung h hp hf hs hfree
        have hc : c ∈ vm.free := mem_of_eq_cons hfree
        have hcf : f ≠ c := fun he => h.freshTables hc k p hp (he ▸ hf)
        have hforest := h.hung hh
        have hwalk : walk (child (ensurePageTable (f + 8 * i.val) vm).mem) (root k) (p ++ [i]) =
            some c := by
          rw [hh.walks k (p ++ [i]) ((h.tracked.closed k).below_concat hp), if_pos ⟨rfl, rfl⟩]
        have hslot : child (ensurePageTable (f + 8 * i.val) vm).mem f i = some c := by
          have hold := hh.walks k p ((h.tracked.closed k).below hp)
          rw [if_neg (by simp), hf] at hold
          rw [← hwalk, walk_concat hold]
        have heq : descend f (i :: q) vm =
            descend c q (ensurePageTable (f + 8 * i.val) vm) := by
          simp only [descend, hslot]
        obtain ⟨taken, hgrown, hforest', hres⟩ := ih hforest hpq' hwalk
        refine ⟨c :: taken, heq ▸ hgrown.hung hh (h.tracked.closed k) hpq, heq ▸ hforest', ?_⟩
        have hfree' : (ensurePageTable (f + 8 * i.val) vm).free = rest := by
          have := hh.free
          rw [hfree] at this
          exact (List.cons.inj this).2.symm
        rw [missing_of_empty (hh.child_self (h.freeOk.aligned c hc) hcf), hfree'] at hres
        simpa only [heq, hmissing, List.length_cons, Nat.add_le_add_iff_right,
          Nat.add_right_cancel_iff, List.append_assoc, List.singleton_append] using hres

omit [DecidableEq K] in
/-- As long as there are tables, the walk follows them. -/
theorem descend_append {t : Nat} (h : walk (child vm.mem) f p = some t) (q : List (Fin 512)) :
    descend f (p ++ q) vm = descend t q vm := by
  induction p generalizing f with
  | nil => rw [List.nil_append, Option.some.inj h]
  | cons i p ih =>
    rw [walk_cons] at h
    cases hs : child vm.mem f i with
    | none =>
      rw [hs] at h
      cases h
    | some c =>
      rw [hs] at h
      simp only [List.cons_append, descend, ensurePageTable_of_present hs, hs]
      exact ih h

/-! ## Mapping a page -/

/-- A map that runs out of free frames. -/
theorem mapAt_of_missing (h : Forest root D E vm) {virt : Nat} (hD : D k (upperPath virt))
    (hlen : vm.free.length < missing (child vm.mem) (root k) (upperPath virt))
    (phys flags : Nat) :
    ∃ taken vm₁, mapAt (root k) virt phys flags vm = (false, vm₁) ∧ vm₁.free = [] ∧
      walk (child vm₁.mem) (root k) (upperPath virt) = none ∧
      Grown root D k [] (upperPath virt) vm vm₁ taken ∧ Forest root D E vm₁ := by
  obtain ⟨taken, hgrown, hforest, hres⟩ :=
    descend_spec (p := []) h (by simpa using hD) walk_nil
  rw [if_neg (by omega)] at hres
  refine ⟨taken, _, ?_, hres.2.1, hres.2.2, hgrown, hforest⟩
  have heq : descend (root k) (upperPath virt) vm =
      (none, (descend (root k) (upperPath virt) vm).2) := Prod.ext hres.1 rfl
  rw [mapAt_eq_descend, heq]

/-- A map with enough free frames. -/
theorem mapAt_of_enough (h : Forest root D E vm) {virt : Nat} (hD : D k (upperPath virt))
    (hlen : missing (child vm.mem) (root k) (upperPath virt) ≤ vm.free.length)
    (phys flags : Nat) :
    ∃ taken vm₁ t, mapAt (root k) virt phys flags vm = (true,
        { vm₁ with mem := write64 vm₁.mem (t + 8 * (ptSlot virt).val) (makeEntry phys flags) }) ∧
      taken.length = missing (child vm.mem) (root k) (upperPath virt) ∧
      walk (child vm₁.mem) (root k) (upperPath virt) = some t ∧
      Grown root D k [] (upperPath virt) vm vm₁ taken ∧ Forest root D E vm₁ := by
  obtain ⟨taken, hgrown, hforest, hres⟩ :=
    descend_spec (p := []) h (by simpa using hD) walk_nil
  rw [if_pos hlen] at hres
  obtain ⟨hcount, t, ht, hwalk⟩ := hres
  refine ⟨taken, _, t, ?_, hcount, by simpa using hwalk, hgrown, hforest⟩
  have heq : descend (root k) (upperPath virt) vm =
      (some t, (descend (root k) (upperPath virt) vm).2) := Prod.ext ht rfl
  rw [mapAt_eq_descend, heq]

end Forests

end Orchid
