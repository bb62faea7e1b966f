import Orchid.Memory.PageTables

/-! # Building address spaces out of free frames

The code that makes address spaces takes frames from the free stack, hangs them
into tables of one address space and fills them. Here that is followed through
a whole forest of page tables.

* `Forest.plant` starts to track a new tree, `Forest.pop` takes a frame.
* `Built` says what may happen to one address space `k`: frames that were free
  appear in it on certain paths, bytes change only in those frames and in the
  tables of `k`, and every path of every other address space is as it was.
* `Forest.mapTaken` maps a frame just taken; `Forest.hangTable` and
  `Forest.hangLeaf` store an entry for it in a given table.
-/

namespace Orchid

open ByteMem Radix

section Spaces

variable {K : Type} {root : K → Nat} {D E : K → List (Fin 512) → Prop} {vm vm₁ vm₂ : Vm}
  {k : K} {p q : List (Fin 512)} {i : Fin 512} {f c : Nat} {rest : List Nat}
  {R : List (Fin 512) → Prop}

/-! ## Taking a frame, tracking a tree -/

theorem Forest.pop (h : Forest root D E vm) (hfree : vm.free = c :: rest) :
    Forest root D E ⟨vm.mem, rest⟩ where
  tracked := h.tracked
  aligned := h.aligned
  distinct := h.distinct
  fresh := fun c' hc' => h.fresh c' (by rw [hfree]; exact List.mem_cons_of_mem c hc')
  freeOk := FreeOk.tail (hfree ▸ h.freeOk)

/-- A frame that is on no tracked path is given back. -/
theorem Forest.push (h : Forest root D E vm) (hc : Fresh (child vm.mem) root E c)
    (hnot : c ∉ vm.free) (ha : Aligned c) (h0 : c ≠ 0) (hsmall : c < 2 ^ 52) :
    Forest root D E (vm.freePage c) := by
  unfold Vm.freePage pmmFreePage
  split
  swap
  · -- the stack is full: the page is dropped
    exact h
  refine ⟨h.tracked, h.aligned, h.distinct, ?_, ⟨?_, ?_, ?_, ?_⟩⟩
  · intro c' hc'
    rcases List.mem_cons.mp hc' with rfl | hc'
    · exact hc
    · exact h.fresh c' hc'
  · exact List.nodup_cons.mpr ⟨hnot, h.freeOk.nodup⟩
  · exact List.forall_mem_cons.mpr ⟨h0, h.freeOk.nonzero⟩
  · exact List.forall_mem_cons.mpr ⟨ha, h.freeOk.aligned⟩
  · exact List.forall_mem_cons.mpr ⟨hsmall, h.freeOk.small⟩

/-- Other paths may be tracked instead, if each of them was tracked before,
leads nowhere, or is the root of a new tree. -/
theorem Forest.plant {D' E' : K → List (Fin 512) → Prop} (h : Forest root D E vm)
    (ht : Tracked D' E')
    (hnew : ∀ k' q, E' k' q → E k' q ∨ walk (child vm.mem) (root k') q = none ∨
      (k' = k ∧ q = [] ∧ Fresh (child vm.mem) root E (root k) ∧ root k ∉ vm.free)) :
    Forest root D' E' vm := by
  refine ⟨ht, h.aligned, ?_, ?_, h.freeOk⟩
  · intro k₁ q₁ k₂ q₂ g hq₁ hq₂ hg₁ hg₂
    rcases hnew k₁ q₁ hq₁ with hE₁ | hnone | ⟨rfl, rfl, hroot, -⟩
    · rcases hnew k₂ q₂ hq₂ with hE₂ | hnone | ⟨rfl, rfl, hroot, -⟩
      · exact h.distinct k₁ q₁ k₂ q₂ g hE₁ hE₂ hg₁ hg₂
      · rw [hnone] at hg₂
        cases hg₂
      · exact absurd (hg₁.trans hg₂.symm) (hroot k₁ q₁ hE₁)
    · rw [hnone] at hg₁
      cases hg₁
    · rcases hnew k₂ q₂ hq₂ with hE₂ | hnone | ⟨rfl, rfl, -⟩
      · exact absurd (hg₂.trans hg₁.symm) (hroot k₂ q₂ hE₂)
      · rw [hnone] at hg₂
        cases hg₂
      · exact ⟨rfl, rfl⟩
  · intro c' hc' k' q' hq' hw
    rcases hnew k' q' hq' with hE | hnone | ⟨rfl, rfl, -, hfree⟩
    · exact h.fresh c' hc' k' q' hE hw
    · rw [hnone] at hw
      cases hw
    · exact hfree (Option.some.inj hw ▸ hc')

/-- Tracking less, or paths that lead nowhere. -/
theorem Forest.retrack {D' E' : K → List (Fin 512) → Prop} (h : Forest root D E vm)
    (ht : Tracked D' E')
    (hnew : ∀ k' q, E' k' q → E k' q ∨ walk (child vm.mem) (root k') q = none) :
    Forest root D' E' vm := by
  refine ⟨ht, h.aligned, ?_, ?_, h.freeOk⟩
  · intro k₁ q₁ k₂ q₂ g hq₁ hq₂ hg₁ hg₂
    have hfirst := hnew k₁ q₁ hq₁
    have hsecond := hnew k₂ q₂ hq₂
    rw [hg₁] at hfirst
    rw [hg₂] at hsecond
    simp only [reduceCtorEq, or_false] at hfirst hsecond
    exact h.distinct k₁ q₁ k₂ q₂ g hfirst hsecond hg₁ hg₂
  · intro c' hc' k' q' hq' hw
    have hold := hnew k' q' hq'
    rw [hw] at hold
    simp only [reduceCtorEq, or_false] at hold
    exact h.fresh c' hc' k' q' hold hw

/-- Nothing is tracked below a frame that is on no tracked path. -/
theorem Forest.not_tracked (h : Forest root D E vm) (hk : Fresh (child vm.mem) root E (root k))
    (q : List (Fin 512)) : ¬ D k q :=
  fun hq => hk k [] (h.tracked.sub k [] (h.tracked.closed k [] q hq)) rfl

/-- Tables of different address spaces are different. -/
theorem Forest.ne_of_ne (h : Forest root D E vm) {k' : K} {f' : Nat} (hk : k ≠ k') (hp : D k p)
    (hq : D k' q) (hf : walk (child vm.mem) (root k) p = some f)
    (hf' : walk (child vm.mem) (root k') q = some f') : f ≠ f' := by
  rintro rfl
  exact hk (h.distinctTables k p k' q f hp hq hf hf').1

/-- A tracked table is not free. -/
theorem Forest.not_free (h : Forest root D E vm) (hp : D k p)
    (hf : walk (child vm.mem) (root k) p = some f) : f ∉ vm.free :=
  fun hfree => h.freshTables hfree k p hp hf

/-! ## What building does -/

/-- From `vm` to `vm'` address space `k` was built on at the paths `R`, with the
frames `taken`. -/
structure Built (root : K → Nat) (D : K → List (Fin 512) → Prop) (k : K)
    (R : List (Fin 512) → Prop) (vm vm' : Vm) (taken : List Nat) : Prop where
  free : vm.free = taken ++ vm'.free
  walks : ∀ k' q, Below (D k') q →
    walk (child vm'.mem) (root k') q = walk (child vm.mem) (root k') q ∨
    (k' = k ∧ R q ∧ ∃ c ∈ taken, walk (child vm'.mem) (root k') q = some c)
  frame : ∀ x, vm'.mem x ≠ vm.mem x → (∃ c ∈ taken, InPage c x) ∨
    ∃ p g, D k p ∧ walk (child vm.mem) (root k) p = some g ∧ InPage g x

theorem Built.refl : Built root D k R vm vm [] where
  free := rfl
  walks := fun _ _ _ => Or.inl rfl
  frame := fun _ h => absurd rfl h

theorem Built.mono {R' : List (Fin 512) → Prop} {taken : List Nat}
    (h : Built root D k R vm vm₁ taken) (hR : ∀ q, R q → R' q) : Built root D k R' vm vm₁ taken where
  free := h.free
  walks := by
    intro k' q hq
    rcases h.walks k' q hq with heq | ⟨hk, hq', hc⟩
    · exact Or.inl heq
    · exact Or.inr ⟨hk, hR q hq', hc⟩
  frame := h.frame

theorem Built.trans {taken taken' : List Nat} (hD : PrefixClosed (D k))
    (h : Built root D k R vm vm₁ taken) (h' : Built root D k R vm₁ vm₂ taken') :
    Built root D k R vm vm₂ (taken ++ taken') where
  free := by rw [h.free, h'.free, List.append_assoc]
  walks := by
    intro k' q hq
    rcases h'.walks k' q hq with heq | ⟨hk, hlen, c, hc, hw⟩
    · rcases h.walks k' q hq with heq' | ⟨hk, hlen, c, hc, hw⟩
      · exact Or.inl (heq.trans heq')
      · exact Or.inr ⟨hk, hlen, c, List.mem_append_left _ hc, heq.trans hw⟩
    · exact Or.inr ⟨hk, hlen, c, List.mem_append_right _ hc, hw⟩
  frame := by
    intro x hx
    by_cases hfirst : vm₁.mem x = vm.mem x
    · rw [← hfirst] at hx
      rcases h'.frame x hx with ⟨c, hc, hin⟩ | ⟨p, g, hp, hg, hin⟩
      · exact Or.inl ⟨c, List.mem_append_right _ hc, hin⟩
      · -- the table was there before, or was taken in the first part
        rcases h.walks k p (hD.below hp) with heq | ⟨-, -, c, hc, hw⟩
        · exact Or.inr ⟨p, g, hp, heq ▸ hg, hin⟩
        · rw [hw] at hg
          exact Or.inl ⟨c, List.mem_append_left _ hc, Option.some.inj hg ▸ hin⟩
    · rcases h.frame x hfirst with ⟨c, hc, hin⟩ | hold
      · exact Or.inl ⟨c, List.mem_append_left _ hc, hin⟩
      · exact Or.inr hold

theorem Built.length_le {taken : List Nat} (h : Built root D k R vm vm₁ taken) :
    vm₁.free.length ≤ vm.free.length := by
  rw [h.free, List.length_append]
  omega

/-- Other address spaces are not touched. -/
theorem Built.walk_other {taken : List Nat} (h : Built root D k R vm vm₁ taken) {k' : K}
    (hk : k' ≠ k) (hq : Below (D k') q) :
    walk (child vm₁.mem) (root k') q = walk (child vm.mem) (root k') q := by
  rcases h.walks k' q hq with heq | ⟨he, -⟩
  · exact heq
  · exact absurd he hk

/-- Writing into a frame just taken, which is no table. -/
theorem Built.scribble {taken : List Nat} (h : Built root D k R vm vm₁ taken)
    (hforest : Forest root D E vm₁) (hc : c ∈ taken) (hca : Aligned c)
    (hfresh : Fresh (child vm₁.mem) root D c) {mem : ByteMem}
    (hout : ∀ x, ¬ InPage c x → mem x = vm₁.mem x) :
    Built root D k R vm { vm₁ with mem := mem } taken where
  free := h.free
  walks := by
    intro k' q hq
    have heq := hforest.walk_scribble hfresh hca hout hq
    simp only [heq]
    exact h.walks k' q hq
  frame := by
    intro x hx
    by_cases hin : InPage c x
    · exact Or.inl ⟨c, hc, hin⟩
    · simp only [hout x hin] at hx
      exact h.frame x hx

/-! ## Mapping a frame just taken -/

theorem Forest.fresh_taken (h : Forest root D E vm) (hfree : vm.free = c :: rest) :
    Fresh (child vm.mem) root E c :=
  h.fresh c (mem_of_eq_cons hfree)

theorem FreeOk.not_mem_rest {free : List Nat} (h : FreeOk free) (hfree : free = c :: rest) :
    c ∉ rest :=
  (List.nodup_cons.mp (hfree ▸ h.nodup)).1

variable [DecidableEq K]

omit [DecidableEq K] in
theorem Grown.fresh {taken : List Nat} {F : K → List (Fin 512) → Prop}
    (h : Grown root D k p q vm vm₁ taken) (hF : ∀ k' q', F k' q' → Below (D k') q')
    (hc : Fresh (child vm.mem) root F c) (hnot : c ∉ vm.free) :
    Fresh (child vm₁.mem) root F c := by
  intro k' q' hq' hw
  rcases h.walks k' q' (hF k' q' hq') with heq | ⟨-, -, -, c', hc', hw'⟩
  · exact hc k' q' hq' (heq ▸ hw)
  · rw [hw'] at hw
    rw [h.free] at hnot
    exact hnot (List.mem_append_left _ (Option.some.inj hw ▸ hc'))

/-- The paths of address space `k` on which a map may put a frame. -/
def MapPaths (D : K → List (Fin 512) → Prop) (k : K) (q : List (Fin 512)) : Prop :=
  D k q ∨ q.length = 4

omit [DecidableEq K] in
theorem mapPaths_of_path {virt : Nat} (hD : PrefixClosed (D k)) (hup : D k (upperPath virt))
    (hq : q <+: path virt) : MapPaths D k q := by
  rcases List.prefix_concat_iff.mp hq with rfl | ⟨q', hq'⟩
  · exact Or.inr (length_path virt)
  · exact Or.inl (hD q q' (hq' ▸ hup))

omit [DecidableEq K] in
/-- Making the missing tables of a path is building. -/
theorem Grown.built {taken : List Nat} (h : Grown root D k [] q ⟨vm.mem, rest⟩ vm₁ taken)
    (hD : PrefixClosed (D k)) (hq : D k q) (hfree : vm.free = c :: rest) :
    Built root D k (fun q' => q' <+: q) vm vm₁ (c :: taken) where
  free := by rw [hfree, List.cons_append, ← h.free]
  walks := by
    intro k' q' hq'
    rcases h.walks k' q' hq' with heq | ⟨-, hk, ⟨q₁, hpre, rfl⟩, c', hc', hw⟩
    · exact Or.inl heq
    · exact Or.inr ⟨hk, hpre, c', List.mem_cons_of_mem c hc', hw⟩
  frame := by
    intro x hx
    rcases h.frame x hx with ⟨c', hc', hin⟩ | ⟨q₁, j, q₂, g, rfl, hg, -, hin⟩
    · exact Or.inl ⟨c', List.mem_cons_of_mem c hc', hin⟩
    · exact Or.inr ⟨q₁, g, hD q₁ (j :: q₂) hq, hg, hin⟩

/-- An entry for a frame that is on no tracked path is stored in the last level. -/
theorem Forest.leaf (h : Forest root D E vm) (hp : D k p)
    (hf : walk (child vm.mem) (root k) p = some f) (hleaf : ¬ D k (p ++ [i]))
    (hc : Fresh (child vm.mem) root E c) (hnot : c ∉ vm.free) {e : Nat} (he : e < 2 ^ 64)
    (hd : decode e = some c) :
    Forest root D E { vm with mem := write64 vm.mem (f + 8 * i.val) e } := by
  have hwalk : ∀ k' q, E k' q → walk (child (write64 vm.mem (f + 8 * i.val) e)) (root k') q =
      if k' = k ∧ q = p ++ [i] then some c else walk (child vm.mem) (root k') q := by
    intro k' q hq
    rw [h.walk_leaf hp hf hleaf he (h.tracked.below k' q hq), hd]
  refine ⟨h.tracked, h.aligned, distinct_insert h.distinct hc hwalk, ?_, h.freeOk⟩
  intro c' hc' k' q hq
  rw [hwalk k' q hq]
  split
  · rintro ⟨⟩
    exact hnot hc'
  · exact h.fresh c' hc' k' q hq

/-- The top of the free stack is taken and mapped. -/
theorem Forest.mapTaken (h : Forest root D E vm) {virt flags : Nat} (hD : D k (upperPath virt))
    (hleaf : ¬ D k (path virt)) (hfree : vm.free = c :: rest) (hflags : flags % 2 = 1) :
    ∃ taken, Forest root D E (mapAt (root k) virt c flags ⟨vm.mem, rest⟩).2 ∧
      Built root D k (fun q => q <+: path virt) vm
        (mapAt (root k) virt c flags ⟨vm.mem, rest⟩).2 (c :: taken) ∧
      Fresh (child (mapAt (root k) virt c flags ⟨vm.mem, rest⟩).2.mem) root D c := by
  have hpop := h.pop hfree
  have hcmem : c ∈ vm.free := mem_of_eq_cons hfree
  have hc := h.fresh_taken hfree
  have hnot : c ∉ rest := h.freeOk.not_mem_rest hfree
  have hcD : Fresh (child vm.mem) root D c := h.freshTables hcmem
  have hupper : ∀ q, q <+: upperPath virt → q <+: path virt :=
    fun q hq => hq.trans (List.prefix_append _ _)
  rcases Nat.lt_or_ge rest.length (missing (child vm.mem) (root k) (upperPath virt)) with hlt | hge
  · -- some table is missing and cannot be made
    obtain ⟨taken, vm₁, heq, -, -, hgrown, hforest⟩ := mapAt_of_missing hpop hD hlt c flags
    rw [heq]
    refine ⟨taken, hforest, (hgrown.built (h.tracked.closed k) hD hfree).mono hupper, ?_⟩
    exact hgrown.fresh (fun k' _ hq' => (h.tracked.closed k').below hq') hcD hnot
  · obtain ⟨taken, vm₁, t, heq, -, ht, hgrown, hforest⟩ := mapAt_of_enough hpop hD hge c flags
    have hbuilt := (hgrown.built (h.tracked.closed k) hD hfree).mono hupper
    have hentry := decode_makeEntry (h.freeOk.aligned c hcmem) (h.freeOk.small c hcmem) hflags
    have hc₁ : Fresh (child vm₁.mem) root E c := hgrown.fresh h.tracked.below hc hnot
    have hnot₁ : c ∉ vm₁.free := by
      intro hmem
      refine hnot ?_
      rw [show rest = taken ++ vm₁.free from hgrown.free]
      exact List.mem_append_right _ hmem
    have hwalk : ∀ k' q', Below (D k') q' →
        walk (child (write64 vm₁.mem (t + 8 * (ptSlot virt).val) (makeEntry c flags))) (root k') q' =
          if k' = k ∧ q' = path virt then some c else walk (child vm₁.mem) (root k') q' := by
      intro k' q' hq'
      rw [hforest.walk_leaf hD ht hleaf (makeEntry_lt _ _) hq', hentry]
      rfl
    rw [heq]
    refine ⟨taken, hforest.leaf hD ht hleaf hc₁ hnot₁ (makeEntry_lt _ _) hentry, ⟨hbuilt.free, ?_, ?_⟩,
      ?_⟩
    · intro k' q' hq'
      simp only [hwalk k' q' hq']
      by_cases hhit : k' = k ∧ q' = path virt
      · rw [if_pos hhit]
        exact Or.inr ⟨hhit.1, hhit.2 ▸ List.prefix_refl _, c, List.mem_cons_self, rfl⟩
      · rw [if_neg hhit]
        exact hbuilt.walks k' q' hq'
    · -- the leaf is stored in a table of `k`
      intro x hx
      by_cases hin : InPage t x
      · rcases hbuilt.walks k _ ((h.tracked.closed k).below hD) with hold | ⟨-, -, c', hc', hw⟩
        · exact Or.inr ⟨_, t, hD, hold ▸ ht, hin⟩
        · rw [hw] at ht
          exact Or.inl ⟨c', hc', Option.some.inj ht ▸ hin⟩
      · simp only [write64_of_not_inPage hin] at hx
        exact hbuilt.frame x hx
    · intro k' q' hq'
      simp only [hwalk k' q' ((h.tracked.closed k').below hq')]
      rw [if_neg]
      · exact hc₁ k' q' (h.tracked.sub k' q' hq')
      · rintro ⟨rfl, rfl⟩
        exact hleaf hq'

/-- A map leaves the tables that are there in their places. -/
theorem Forest.mapTaken_keeps (h : Forest root D E vm) {virt flags : Nat} (hD : D k (upperPath virt))
    (hleaf : ¬ D k (path virt)) (hfree : vm.free = c :: rest) {l : K} (hq : D l q)
    (hf : walk (child vm.mem) (root l) q = some f) :
    walk (child (mapAt (root k) virt c flags ⟨vm.mem, rest⟩).2.mem) (root l) q = some f := by
  have hpop := h.pop hfree
  have hbelow := (h.tracked.closed l).below hq
  -- making the missing tables fills empty slots only
  have hkept : ∀ {vm₁ taken}, Grown root D k [] (upperPath virt) ⟨vm.mem, rest⟩ vm₁ taken →
      walk (child vm₁.mem) (root l) q = some f := by
    intro vm₁ taken hgrown
    rcases hgrown.walks l q hbelow with heq | ⟨hnone, -⟩
    · exact heq.trans hf
    · rw [hf] at hnone
      cases hnone
  rcases Nat.lt_or_ge rest.length (missing (child vm.mem) (root k) (upperPath virt)) with hlt | hge
  · obtain ⟨taken, vm₁, heq, -, -, hgrown, -⟩ := mapAt_of_missing hpop hD hlt c flags
    rw [heq]
    exact hkept hgrown
  · obtain ⟨taken, vm₁, t, heq, -, ht, hgrown, hforest⟩ := mapAt_of_enough hpop hD hge c flags
    rw [heq]
    simp only
    rw [hforest.walk_leaf hD ht hleaf (makeEntry_lt _ _) hbelow, if_neg]
    · exact hkept hgrown
    · -- the page itself is no table
      rintro ⟨rfl, rfl⟩
      exact hleaf hq

/-- The frame is mapped if there is a free one for every missing table. -/
theorem Forest.mapTaken_path (h : Forest root D E vm) {virt flags : Nat}
    (hD : D k (upperPath virt)) (hleaf : ¬ D k (path virt)) (hfree : vm.free = c :: rest)
    (hflags : flags % 2 = 1) :
    walk (child (mapAt (root k) virt c flags ⟨vm.mem, rest⟩).2.mem) (root k) (path virt) =
      if missing (child vm.mem) (root k) (upperPath virt) ≤ rest.length then some c else none := by
  split
  · next hlen =>
    have hcmem : c ∈ vm.free := mem_of_eq_cons hfree
    obtain ⟨taken, vm₁, t, heq, -, ht, -, hforest⟩ := mapAt_of_enough (h.pop hfree) hD hlen c flags
    have hpath : Below (D k) (path virt) := (h.tracked.closed k).below_concat hD
    rw [heq, hforest.walk_leaf hD ht hleaf (makeEntry_lt _ _) hpath]
    exact (if_pos ⟨rfl, rfl⟩).trans
      (decode_makeEntry (h.freeOk.aligned c hcmem) (h.freeOk.small c hcmem) hflags)
  · next hlen =>
    rcases mapAt_of_missing (h.pop hfree) hD (Nat.lt_of_not_le hlen) c flags with
      ⟨-, vm₁, heq, -, hnone, -⟩
    rw [heq, path, walk_append, hnone]
    rfl

/-- A map takes a frame for every missing table, or all that there are. -/
theorem Forest.mapTaken_free (h : Forest root D E vm) {virt : Nat} (flags : Nat)
    (hD : D k (upperPath virt)) (hfree : vm.free = c :: rest) :
    (mapAt (root k) virt c flags ⟨vm.mem, rest⟩).2.free =
      rest.drop (missing (child vm.mem) (root k) (upperPath virt)) := by
  rcases Nat.lt_or_ge rest.length (missing (child vm.mem) (root k) (upperPath virt)) with hlt | hge
  · rcases mapAt_of_missing (h.pop hfree) hD hlt c flags with ⟨-, vm₁, heq, hnil, -⟩
    rw [heq, List.drop_eq_nil_of_le hlt.le]
    exact hnil
  · rcases mapAt_of_enough (h.pop hfree) hD hge c flags with
      ⟨taken, vm₁, t, heq, hcount, -, hgrown, -⟩
    rw [heq, show rest = taken ++ vm₁.free from hgrown.free, ← hcount, List.drop_left]

/-! ## Storing an entry for a frame just taken -/

theorem built_insert (hp : D k p) (hf : walk (child vm.mem) (root k) p = some f)
    (hfree : vm.free = c :: vm₁.free)
    (hwalks : ∀ k' q, Below (D k') q → walk (child vm₁.mem) (root k') q =
      if k' = k ∧ q = p ++ [i] then some c else walk (child vm.mem) (root k') q)
    (hframe : ∀ x, ¬ InPage c x → ¬ InPage f x → vm₁.mem x = vm.mem x) :
    Built root D k (fun q => q = p ++ [i]) vm vm₁ [c] where
  free := hfree
  walks := by
    intro k' q hq
    rw [hwalks k' q hq]
    split
    · next hhit => exact Or.inr ⟨hhit.1, hhit.2, c, List.mem_singleton_self c, rfl⟩
    · exact Or.inl rfl
  frame := by
    intro x hx
    by_cases hc : InPage c x
    · exact Or.inl ⟨c, List.mem_singleton_self c, hc⟩
    · by_cases hin : InPage f x
      · exact Or.inr ⟨p, f, hp, hf, hin⟩
      · exact absurd (hframe x hc hin) hx

omit [DecidableEq K] in
theorem hang_frame {mem : ByteMem} (hout : ∀ x, ¬ InPage c x → mem x = vm.mem x) {e x : Nat}
    (hc : ¬ InPage c x) (hf : ¬ InPage f x) : write64 mem (f + 8 * i.val) e x = vm.mem x := by
  rw [write64_of_not_inPage hf, hout x hc]

/-- The top of the free stack is filled as an empty table and hung into an empty
slot. -/
theorem Forest.hangTable (h : Forest root D E vm) (hfree : vm.free = c :: rest) {mem : ByteMem}
    (hout : ∀ x, ¬ InPage c x → mem x = vm.mem x) (hempty : ∀ j, child mem c j = none)
    (hp : D k p) (hf : walk (child vm.mem) (root k) p = some f) (hs : child vm.mem f i = none)
    {e : Nat} (he : e < 2 ^ 64) (hd : decode e = some c) :
    Forest root D E ⟨write64 mem (f + 8 * i.val) e, rest⟩ ∧
      Built root D k (fun q => q = p ++ [i]) vm ⟨write64 mem (f + 8 * i.val) e, rest⟩ [c] ∧
      walk (child (write64 mem (f + 8 * i.val) e)) (root k) (p ++ [i]) = some c ∧
      ∀ j, child (write64 mem (f + 8 * i.val) e) c j = none := by
  have hcmem : c ∈ vm.free := mem_of_eq_cons hfree
  have hcf : f ≠ c := fun heq => h.freshTables hcmem k p hp (heq ▸ hf)
  have hwalks : ∀ k' q, Below (D k') q → walk (child (write64 mem (f + 8 * i.val) e)) (root k') q =
      if k' = k ∧ q = p ++ [i] then some c else walk (child vm.mem) (root k') q :=
    fun k' q hq => h.walk_hang hcmem hout hempty hp hf hs he hd hq
  refine ⟨h.insert hfree hwalks, ?_, ?_, ?_⟩
  · exact built_insert hp hf hfree hwalks fun x hc hin => hang_frame hout hc hin
  · rw [hwalks k _ ((h.tracked.closed k).below_concat hp), if_pos ⟨rfl, rfl⟩]
  · -- the entry went into another table
    intro j
    have hfa : Aligned f := walk_aligned (h.aligned k) hf
    rw [child_write64 hfa (h.freeOk.aligned c hcmem) he, Radix.set,
      if_neg (fun heq => hcf heq.1.symm), hempty j]

/-- The top of the free stack is filled and stored as a leaf. -/
theorem Forest.hangLeaf (h : Forest root D E vm) (hfree : vm.free = c :: rest) {mem : ByteMem}
    (hout : ∀ x, ¬ InPage c x → mem x = vm.mem x) (hp : D k p)
    (hf : walk (child vm.mem) (root k) p = some f) (hleaf : ¬ D k (p ++ [i]))
    {e : Nat} (he : e < 2 ^ 64) (hd : decode e = some c) :
    Forest root D E ⟨write64 mem (f + 8 * i.val) e, rest⟩ ∧
      Built root D k (fun q => q = p ++ [i]) vm ⟨write64 mem (f + 8 * i.val) e, rest⟩ [c] := by
  have hcmem : c ∈ vm.free := mem_of_eq_cons hfree
  have hca := h.freeOk.aligned c hcmem
  have hfresh := h.freshTables hcmem
  have hscribble := h.scribble hfresh hca hout
  have hf' : walk (child mem) (root k) p = some f := by
    rw [h.walk_scribble hfresh hca hout ((h.tracked.closed k).below hp), hf]
  have hwalks : ∀ k' q, Below (D k') q → walk (child (write64 mem (f + 8 * i.val) e)) (root k') q =
      if k' = k ∧ q = p ++ [i] then some c else walk (child vm.mem) (root k') q := by
    intro k' q hq
    rw [hscribble.walk_leaf hp hf' hleaf he hq, hd, h.walk_scribble hfresh hca hout hq]
  refine ⟨h.insert hfree hwalks, ?_⟩
  exact built_insert hp hf hfree hwalks fun x hc hin => hang_frame hout hc hin

omit [DecidableEq K] in
/-- A store into a slot through which nothing is tracked. -/
theorem Forest.storeUntracked (h : Forest root D E vm) (hp : D k p)
    (hf : walk (child vm.mem) (root k) p = some f) (hno : ∀ q, E k q → ¬ p ++ [i] <+: q)
    {e : Nat} (he : e < 2 ^ 64) :
    Forest root D E { vm with mem := write64 vm.mem (f + 8 * i.val) e } := by
  have hwalk : ∀ k' q, E k' q → walk (child (write64 vm.mem (f + 8 * i.val) e)) (root k') q =
      walk (child vm.mem) (root k') q := by
    intro k' q hq
    rw [walk_write64 (h.aligned k') (walk_aligned (h.aligned k) hf) he]
    refine walk_set_elsewhere h.distinctTables hp hf (h.tracked.below k' q hq) ?_ _
    rintro ⟨rfl, hpre⟩
    exact hno q hq hpre
  exact h.congr hwalk

end Spaces

/-! ## One tree -/

section OneTree

variable {vm : Vm} {c : Nat}

/-- Nothing is tracked. -/
theorem forest_nil (a : Nat) (ha : Aligned a) (hok : FreeOk vm.free) :
    Forest (fun _ : Unit => a) (fun _ _ => False) (fun _ _ => False) vm where
  tracked := ⟨fun _ _ _ h => h, fun _ _ h => h, fun _ _ h => h.elim⟩
  aligned := fun _ => ha
  distinct := fun _ _ _ _ _ h => h.elim
  fresh := fun _ _ _ _ h => h.elim
  freeOk := hok

/-- An empty table is a tree by itself. -/
theorem forest_empty (hca : Aligned c) (hempty : ∀ i, child vm.mem c i = none)
    (hok : FreeOk vm.free) (hc : c ∉ vm.free) :
    Forest (fun _ : Unit => c) (fun _ _ => True) (fun _ _ => True) vm := by
  refine (forest_nil c hca hok).plant (k := ()) ⟨?_, ?_, ?_⟩ ?_
  · exact fun _ _ _ _ => trivial
  · exact fun _ _ _ => trivial
  · exact fun _ _ _ _ _ _ _ => trivial
  · intro _ q _
    cases q with
    | nil => exact Or.inr (Or.inr ⟨rfl, rfl, fun _ _ h => h.elim, hc⟩)
    | cons i q =>
      refine Or.inr (Or.inl ?_)
      rw [walk_cons, hempty i]
      rfl

end OneTree

end Orchid
