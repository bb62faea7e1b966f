import Orchid.Memory.Heap

/-! # The heap as a list of blocks

`Rep mem a bs z` says that the headers in memory spell the blocks `bs`, laid
out one behind the other from address `a`, each linked to the next and the
last one to `z`. Every function of the heap is specified on that list: the
walks find a place in it, and each update rewrites a short stretch of it.
-/

namespace Orchid

open ByteMem LinkedList Tiling

/-! ## Headers -/

/-- Address `x` is in the header at `block`. -/
def InHeader (block x : Nat) : Prop := block ≤ x ∧ x < block + headerSize

/-- The header at `block` describes `b` and links to `z`. -/
structure Header (mem : ByteMem) (block : Nat) (b : Block) (z : Nat) : Prop where
  size : blockSize mem block = b.size
  free : BlockFree mem block ↔ b.free = true
  next : blockNext mem block = z

section Headers

variable {mem mem' : ByteMem} {block v x z : Nat} {b : Block}

theorem setSize_apply (h : ¬ InHeader block x) : setSize mem block v x = mem x := by
  unfold InHeader headerSize at h
  exact write64_apply_of_outside (by omega)

theorem setFree_apply (h : ¬ InHeader block x) : setFree mem block v x = mem x := by
  unfold InHeader headerSize at h
  exact writeLE_apply_of_outside (by omega)

theorem setNext_apply (h : ¬ InHeader block x) : setNext mem block v x = mem x := by
  unfold InHeader headerSize at h
  exact write64_apply_of_outside (by omega)

theorem setHeader_apply {size free next : Nat} (h : ¬ InHeader block x) :
    setHeader mem block size free next x = mem x := by
  rw [setHeader, setNext_apply h, setFree_apply h, setSize_apply h]

theorem Header.congr (h : Header mem block b z) (heq : ∀ x, InHeader block x → mem' x = mem x) :
    Header mem' block b z := by
  have hsize : blockSize mem' block = blockSize mem block :=
    read64_congr fun i hi => heq _ ⟨by omega, by unfold headerSize; omega⟩
  have hfree : read32 mem' (block + 8) = read32 mem (block + 8) :=
    readLE_congr fun i hi => heq _ ⟨by omega, by unfold headerSize; omega⟩
  have hnext : blockNext mem' block = blockNext mem block :=
    read64_congr fun i hi => heq _ ⟨by omega, by unfold headerSize; omega⟩
  refine ⟨hsize.trans h.size, ?_, hnext.trans h.next⟩
  rw [BlockFree, hfree]
  exact h.free

theorem Header.setSize (h : Header mem block b z) (hv : v < 2 ^ 64) :
    Header (setSize mem block v) block { b with size := v } z where
  size := read64_write64_self hv
  free := by
    rw [BlockFree, read32, Orchid.setSize, write64, readLE_writeLE_of_disjoint (by omega)]
    exact h.free
  next := (read64_write64_of_disjoint (by omega)).trans h.next

theorem Header.setNext (h : Header mem block b z) (hv : v < 2 ^ 64) :
    Header (setNext mem block v) block b v where
  size := (read64_write64_of_disjoint (by omega)).trans h.size
  free := by
    rw [BlockFree, read32, Orchid.setNext, write64, readLE_writeLE_of_disjoint (by omega)]
    exact h.free
  next := read64_write64_self hv

/-- The code stores 0 or 1 in `free`. -/
theorem Header.setFree (h : Header mem block b z) (hv : v < 2) :
    Header (setFree mem block v) block { b with free := v == 1 } z where
  size := (readLE_writeLE_of_disjoint (by omega)).trans h.size
  free := by
    have hsmall : v % 256 ^ 4 = v := Nat.mod_eq_of_lt (by omega)
    rw [BlockFree, read32, Orchid.setFree, write32, readLE_writeLE_self, hsmall, beq_iff_eq]
    omega
  next := (readLE_writeLE_of_disjoint (by omega)).trans h.next

theorem header_setHeader {size next : Nat} (hsize : size < 2 ^ 64) (hnext : next < 2 ^ 64) :
    Header (setHeader mem block size 1 next) block ⟨size, true⟩ next := by
  have hany : Header mem block ⟨blockSize mem block, decide (BlockFree mem block)⟩
      (blockNext mem block) := ⟨rfl, by simp, rfl⟩
  exact ((hany.setSize hsize).setFree (v := 1) (by decide)).setNext hnext

end Headers

/-! ## Block lists in memory -/

/-- Where a link to the blocks `bs` at `a` points, if `z` comes behind them. -/
def link (a : Nat) (bs : List Block) (z : Nat) : Nat :=
  match bs with
  | [] => z
  | _ :: _ => a

/-- The headers spell the blocks `bs` from `a` on, and the last links to `z`. -/
def Rep (mem : ByteMem) (z : Nat) : Nat → List Block → Prop
  | _, [] => True
  | a, b :: bs =>
    Header mem a b (link (a + headerSize + b.size) bs z) ∧ Rep mem z (a + headerSize + b.size) bs

section Reps

variable {mem mem' : ByteMem} {a z : Nat} {b : Block} {bs l r : List Block}

@[simp] theorem link_nil : link a [] z = z := rfl

@[simp] theorem link_cons : link a (b :: bs) z = a := rfl

theorem link_append (l r : List Block) :
    link a (l ++ r) z = link a l (link (a + extent headerSize l) r z) := by
  cases l <;> rfl

theorem rep_append (l r : List Block) :
    Rep mem z a (l ++ r) ↔
      Rep mem (link (a + extent headerSize l) r z) a l ∧
        Rep mem z (a + extent headerSize l) r := by
  induction l generalizing a with
  | nil => simp [Rep]
  | cons b l ih =>
    have hshift : a + headerSize + b.size + extent headerSize l =
        a + (headerSize + b.size + extent headerSize l) := by omega
    rw [List.cons_append, Rep, Rep, ih, link_append, extent_cons, hshift, and_assoc]

/-- Only the headers matter. -/
theorem Rep.congr_headers (h : Rep mem z a bs)
    (heq : ∀ x b, At headerSize a bs x b → ∀ y, InHeader x y → mem' y = mem y) :
    Rep mem' z a bs := by
  induction bs generalizing a with
  | nil => trivial
  | cons b bs ih =>
    exact ⟨h.1.congr (heq a b (Or.inl ⟨rfl, rfl⟩)), ih h.2 fun x c hx => heq x c (Or.inr hx)⟩

theorem Rep.congr (h : Rep mem z a bs)
    (heq : ∀ x, a ≤ x → x < a + extent headerSize bs → mem' x = mem x) : Rep mem' z a bs := by
  refine h.congr_headers fun x b hx y hy => heq y ?_ ?_
  · have := hx.bounds
    have := hy.1
    omega
  · have := hx.bounds
    have := hy.2
    omega

/-! ## Rewriting a stretch of the list -/

/-- Every used block of `bs`, except the one at `x`, is still there in `bs'`,
and the bytes of its payload are the same. -/
def Kept (mem mem' : ByteMem) (a : Nat) (bs bs' : List Block) (x : Nat) : Prop :=
  ∀ y c, At headerSize a bs y c → c.free = false → y ≠ x →
    At headerSize a bs' y c ∧
      ∀ w, y + headerSize ≤ w → w < y + headerSize + c.size → mem' w = mem w

theorem Kept.trans {mem₁ mem₂ : ByteMem} {bs₁ bs₂ : List Block} {x : Nat}
    (h₁ : Kept mem mem₁ a bs bs₁ x) (h₂ : Kept mem₁ mem₂ a bs₁ bs₂ x) :
    Kept mem mem₂ a bs bs₂ x := by
  intro y c hy hused hne
  obtain ⟨hy₁, hmem₁⟩ := h₁ y c hy hused hne
  obtain ⟨hy₂, hmem₂⟩ := h₂ y c hy₁ hused hne
  exact ⟨hy₂, fun w hw hw' => (hmem₂ w hw hw').trans (hmem₁ w hw hw')⟩

/-- The stretch `m` of a block list became `m'`, of the same extent, and no
byte outside it was written. -/
structure Rewrite (mem mem' : ByteMem) (z a : Nat) (l m m' r : List Block) : Prop where
  rep : Rep mem z a (l ++ m ++ r)
  new : Rep mem' (link (a + extent headerSize l + extent headerSize m) r z)
    (a + extent headerSize l) m'
  nonempty : m ≠ [] ∧ m' ≠ []
  same : extent headerSize m' = extent headerSize m
  outside : ∀ y, y < a + extent headerSize l ∨
    a + extent headerSize l + extent headerSize m ≤ y → mem' y = mem y

variable {m m' : List Block}

theorem Rewrite.rep' (h : Rewrite mem mem' z a l m m' r) : Rep mem' z a (l ++ m' ++ r) := by
  have hrep := h.rep
  obtain ⟨hm, hm'⟩ := h.nonempty
  rw [List.append_assoc, rep_append, link_append, rep_append] at hrep
  rw [List.append_assoc, rep_append, link_append, rep_append, h.same]
  obtain ⟨hl, -, hr⟩ := hrep
  refine ⟨?_, h.new, ?_⟩
  · -- the link into the stretch is its start, before and after
    obtain ⟨b, m₁, rfl⟩ := List.exists_cons_of_ne_nil hm
    obtain ⟨b', m₁', rfl⟩ := List.exists_cons_of_ne_nil hm'
    exact hl.congr fun y _ hy => h.outside y (Or.inl hy)
  · exact hr.congr fun y hy _ => h.outside y (Or.inr hy)

theorem Rewrite.kept (h : Rewrite mem mem' z a l m m' r) {x : Nat}
    (hfree : ∀ y c, At headerSize (a + extent headerSize l) m y c → c.free = false → y = x) :
    Kept mem mem' a (l ++ m ++ r) (l ++ m' ++ r) x := by
  intro y c hy hused hne
  have hnot : ¬ At headerSize (a + extent headerSize l) m y c :=
    fun hin => hne (hfree y c hin hused)
  refine ⟨(hy.replace h.same).resolve_left hnot, fun w hw hw' => h.outside w ?_⟩
  rw [List.append_assoc, at_append, at_append] at hy
  rcases hy with hl | hm | hr
  · have := hl.bounds
    omega
  · exact absurd hm hnot
  · have := hr.bounds
    omega

/-! ## The walks -/

/-- The addresses of the blocks. -/
def blockAddrs (a : Nat) : List Block → List Nat
  | [] => []
  | b :: bs => a :: blockAddrs (a + headerSize + b.size) bs

@[simp] theorem length_blockAddrs : (blockAddrs a bs).length = bs.length := by
  induction bs generalizing a with
  | nil => rfl
  | cons b bs ih => simp [blockAddrs, ih]

theorem blockAddrs_append (l r : List Block) :
    blockAddrs a (l ++ r) = blockAddrs a l ++ blockAddrs (a + extent headerSize l) r := by
  induction l generalizing a with
  | nil => rfl
  | cons b l ih =>
    have hshift : a + headerSize + b.size + extent headerSize l =
        a + (headerSize + b.size + extent headerSize l) := by omega
    simp only [List.cons_append, blockAddrs, ih, extent_cons, hshift]

theorem mem_blockAddrs {x : Nat} : x ∈ blockAddrs a bs ↔ ∃ b, At headerSize a bs x b := by
  induction bs generalizing a with
  | nil => simp [blockAddrs, At]
  | cons c bs ih => simp [blockAddrs, At, ih, exists_or]

/-- Following `next` from the first block visits the blocks in address order. -/
theorem Rep.chain (h : Rep mem 0 a bs) (ha : 0 < a) :
    Chain (linkOf mem) (if bs = [] then none else some a) (blockAddrs a bs) := by
  induction bs generalizing a with
  | nil => rfl
  | cons b bs ih =>
    refine ⟨rfl, ?_⟩
    have hrest := ih h.2 (by omega)
    have hlink : linkOf mem a = if bs = [] then none else some (a + headerSize + b.size) := by
      rw [linkOf, h.1.next]
      cases bs with
      | nil => rfl
      | cons c bs =>
        have hne : a + headerSize + b.size ≠ 0 := by omega
        rw [link_cons, if_neg hne, if_neg (by simp)]
    rwa [hlink]

/-- A block that can serve a request of `size` bytes. -/
def Fits (size : Nat) (b : Block) : Prop := b.free = true ∧ size ≤ b.size

/-- `firstFit` finds the first block that can serve the request, or there is
none; with more fuel than blocks it comes to an end. -/
theorem firstFit_spec (h : Rep mem 0 a bs) (ha : 0 < a) (size fuel : Nat) :
    (firstFit mem size fuel (link a bs 0) = none ∧ fuel ≤ bs.length) ∨
    (firstFit mem size fuel (link a bs 0) = some none ∧ ∀ b ∈ bs, ¬ Fits size b) ∨
    ∃ l b r, bs = l ++ b :: r ∧ (∀ c ∈ l, ¬ Fits size c) ∧ Fits size b ∧
      firstFit mem size fuel (link a bs 0) = some (some (a + extent headerSize l)) := by
  induction bs generalizing a fuel with
  | nil =>
    cases fuel with
    | zero => exact Or.inl ⟨rfl, Nat.le_refl _⟩
    | succ fuel => exact Or.inr (Or.inl ⟨rfl, by simp⟩)
  | cons b bs ih =>
    cases fuel with
    | zero => exact Or.inl ⟨rfl, Nat.zero_le _⟩
    | succ fuel =>
      have hne : a ≠ 0 := by omega
      rw [link_cons, firstFit, if_neg hne]
      by_cases hfit : BlockFree mem a ∧ size ≤ blockSize mem a
      · rw [if_pos hfit]
        exact Or.inr (Or.inr ⟨[], b, bs, rfl, by simp, ⟨h.1.free.mp hfit.1, h.1.size ▸ hfit.2⟩, rfl⟩)
      · rw [if_neg hfit, h.1.next]
        have hb : ¬ Fits size b := fun hb => hfit ⟨h.1.free.mpr hb.1, h.1.size.symm ▸ hb.2⟩
        rcases ih h.2 (by omega) fuel with ⟨hnone, hlen⟩ | ⟨hend, hall⟩ | ⟨l, c, r, rfl, hl, hc, hres⟩
        · exact Or.inl ⟨hnone, by simpa using hlen⟩
        · exact Or.inr (Or.inl ⟨hend, by simpa [hb] using hall⟩)
        · refine Or.inr (Or.inr ⟨b :: l, c, r, rfl, by simpa [hb] using hl, hc, ?_⟩)
          rw [hres, extent_cons]
          congr 2
          omega

/-- `findPrev` finds the block in front of the one it is given. -/
theorem findPrev_spec (h : Rep mem 0 a (l ++ b :: r)) (ha : 0 < a) (fuel prev : Nat) :
    (findPrev mem (a + extent headerSize l) fuel a prev = none ∧ fuel ≤ l.length) ∨
      findPrev mem (a + extent headerSize l) fuel a prev =
        some ((blockAddrs a l).getLastD prev) := by
  induction l generalizing a fuel prev with
  | nil =>
    cases fuel with
    | zero => exact Or.inl ⟨rfl, Nat.le_refl _⟩
    | succ fuel =>
      have hne : a ≠ 0 := by omega
      exact Or.inr (by simp [findPrev, hne, blockAddrs])
  | cons c l ih =>
    cases fuel with
    | zero => exact Or.inl ⟨rfl, Nat.zero_le _⟩
    | succ fuel =>
      have hne : a ≠ 0 := by omega
      have hnot : ¬ a = a + extent headerSize (c :: l) := by
        rw [extent_cons]
        unfold headerSize
        omega
      have hnext : blockNext mem a = a + headerSize + c.size := by
        rw [h.1.next]
        cases l <;> rfl
      have hshift : a + extent headerSize (c :: l) =
          a + headerSize + c.size + extent headerSize l := by
        rw [extent_cons]
        omega
      rw [findPrev, if_neg hne, if_neg hnot, hnext, hshift, blockAddrs, List.getLastD_cons,
        List.length_cons, Nat.add_le_add_iff_right]
      exact ih h.2 (by omega) fuel a

/-! ## The updates -/

/-- What `carve` makes of a block. -/
def carved (b : Block) (size : Nat) : List Block :=
  if size + headerSize + 8 ≤ b.size then [⟨size, false⟩, ⟨b.size - size - headerSize, true⟩]
  else [⟨b.size, false⟩]

theorem extent_carved (b : Block) (size : Nat) :
    extent headerSize (carved b size) = extent headerSize [b] := by
  unfold carved
  split
  · simp only [extent_cons, extent_nil]
    omega
  · rfl

/-- In a block that is large enough none of the sums of `carve` overflows. -/
theorem carve_eq {x size : Nat} (h : Header mem x b z) (hx : 8 < x)
    (hbound : x + headerSize + b.size ≤ 2 ^ 64) (hfit : size ≤ b.size) :
    carve mem x size = setFree (if size + headerSize + 8 ≤ b.size then
      setNext (setSize (setHeader mem (x + headerSize + size) (b.size - size - headerSize) 1 z) x
        size) x (x + headerSize + size) else mem) x 0 := by
  have hh : headerSize = 24 := rfl
  unfold carve
  rw [h.size, h.next, Nat.mod_eq_of_lt (by omega : size + headerSize + 8 < 2 ^ 64)]
  by_cases hsplit : size + headerSize + 8 ≤ b.size
  · have hsub : b.size + 2 * 2 ^ 64 - size - headerSize =
        b.size - size - headerSize + 2 * 2 ^ 64 := by omega
    simp only [if_pos hsplit]
    rw [Nat.mod_eq_of_lt (by omega : x + headerSize + size < 2 ^ 64), hsub,
      Nat.add_mul_mod_self_right, Nat.mod_eq_of_lt (by omega : b.size - size - headerSize < 2 ^ 64)]
  · simp only [if_neg hsplit]

/-- `carve` on the block's own header. -/
theorem carve_local {x size : Nat} (h : Header mem x b z) (hz : z < 2 ^ 64) (hx : 8 < x)
    (hbound : x + headerSize + b.size ≤ 2 ^ 64) (hfit : size ≤ b.size) :
    Rep (carve mem x size) z x (carved b size) := by
  have hh : headerSize = 24 := rfl
  rw [carve_eq h hx hbound hfit]
  unfold carved
  by_cases hsplit : size + headerSize + 8 ≤ b.size
  · rw [if_pos hsplit, if_pos hsplit]
    have hnb : Header (setHeader mem (x + headerSize + size) (b.size - size - headerSize) 1 z)
        (x + headerSize + size) ⟨b.size - size - headerSize, true⟩ z :=
      header_setHeader (by omega) hz
    have hx : Header (setHeader mem (x + headerSize + size) (b.size - size - headerSize) 1 z)
        x b z := by
      refine h.congr fun y hy => setHeader_apply ?_
      unfold InHeader at *
      omega
    refine ⟨((hx.setSize (by omega)).setNext (by omega)).setFree (v := 0) (by decide), ?_, trivial⟩
    -- the three stores into the first header miss the second one
    refine hnb.congr fun y hy => ?_
    have hout : ¬ InHeader x y := by
      unfold InHeader at *
      omega
    rw [setFree_apply hout, setNext_apply hout, setSize_apply hout]
  · rw [if_neg hsplit, if_neg hsplit]
    exact ⟨h.setFree (v := 0) (by decide), trivial⟩

theorem carve_apply {x size y : Nat} (h : Header mem x b z) (hx : 8 < x)
    (hbound : x + headerSize + b.size ≤ 2 ^ 64) (hfit : size ≤ b.size)
    (hy : y < x ∨ x + headerSize + b.size ≤ y) : carve mem x size y = mem y := by
  have hout : ¬ InHeader x y := by
    unfold InHeader
    omega
  rw [carve_eq h hx hbound hfit, setFree_apply hout]
  split
  · rw [setNext_apply hout, setSize_apply hout, setHeader_apply]
    unfold InHeader
    omega
  · rfl

theorem carve_rewrite {size : Nat} (h : Rep mem z a (l ++ [b] ++ r)) (hz : z < 2 ^ 64) (ha : 8 < a)
    (hbound : a + extent headerSize (l ++ [b] ++ r) ≤ 2 ^ 64) (hfit : size ≤ b.size) :
    Rewrite mem (carve mem (a + extent headerSize l) size) z a l [b] (carved b size) r := by
  have hmid : Rep mem (link (a + extent headerSize l + extent headerSize [b]) r z)
      (a + extent headerSize l) [b] := by
    rw [List.append_assoc, rep_append, rep_append] at h
    exact h.2.1
  simp only [extent_append, extent_cons, extent_nil] at hbound
  have hlink : link (a + extent headerSize l + extent headerSize [b]) r z < 2 ^ 64 := by
    cases r with
    | nil => exact hz
    | cons c r =>
      simp only [link_cons, extent_cons, extent_nil] at *
      unfold headerSize at *
      omega
  refine ⟨h, carve_local hmid.1 hlink (by omega) (by omega) hfit, ⟨by simp, ?_⟩,
    extent_carved b size, ?_⟩
  · unfold carved
    split <;> simp
  · intro y hy
    simp only [extent_cons, extent_nil] at hy
    exact carve_apply hmid.1 (by omega) (by omega) hfit (by omega)

/-- `block->free = 1`. -/
theorem setFree_rewrite (h : Rep mem z a (l ++ [b] ++ r)) :
    Rewrite mem (setFree mem (a + extent headerSize l) 1) z a l [b] [⟨b.size, true⟩] r := by
  have hmid := h
  rw [List.append_assoc, rep_append, rep_append] at hmid
  refine ⟨h, ⟨hmid.2.1.1.setFree (v := 1) (by decide), trivial⟩, ⟨by simp, by simp⟩, rfl, ?_⟩
  intro y hy
  refine setFree_apply ?_
  simp only [extent_cons, extent_nil] at hy
  unfold InHeader
  omega

/-- A merge of two neighbours. -/
theorem absorb_rewrite {c : Block} (h : Rep mem z a (l ++ [b, c] ++ r)) (hz : z < 2 ^ 64)
    (hbound : a + extent headerSize (l ++ [b, c] ++ r) ≤ 2 ^ 64) :
    Rewrite mem (absorb mem (a + extent headerSize l)
        (a + extent headerSize l + headerSize + b.size))
      z a l [b, c] [⟨b.size + (headerSize + c.size), b.free⟩] r := by
  have hh : headerSize = 24 := rfl
  have hmid := h
  rw [List.append_assoc, rep_append, rep_append] at hmid
  obtain ⟨-, ⟨hb, hc, -⟩, -⟩ := hmid
  simp only [extent_append, extent_cons, extent_nil] at hbound
  have hnext : blockNext (setSize mem (a + extent headerSize l) (b.size + (headerSize + c.size)))
      (a + extent headerSize l + headerSize + b.size) =
      link (a + extent headerSize l + extent headerSize [b, c]) r z :=
    (read64_write64_of_disjoint (by omega)).trans hc.next
  have hlink : link (a + extent headerSize l + extent headerSize [b, c]) r z < 2 ^ 64 := by
    cases r with
    | nil => exact hz
    | cons d r =>
      simp only [link_cons, extent_cons, extent_nil] at *
      omega
  simp only [absorb, hb.size, hc.size, hnext]
  refine ⟨h, ⟨(hb.setSize (by omega)).setNext hlink, trivial⟩, ⟨by simp, by simp⟩, ?_, ?_⟩
  · simp only [extent_cons, extent_nil]
    omega
  · intro y hy
    simp only [extent_cons, extent_nil] at hy
    have hout : ¬ InHeader (a + extent headerSize l) y := by
      unfold InHeader
      omega
    rw [setNext_apply hout, setSize_apply hout]

/-! ## `kfree` -/

/-- The block list `bs` in memory became `bs'`, and only the block at `x` was
given up. -/
structure Update (mem mem' : ByteMem) (a : Nat) (bs bs' : List Block) (x : Nat) : Prop where
  rep : Rep mem' 0 a bs'
  kept : Kept mem mem' a bs bs' x
  extent : extent headerSize bs' = extent headerSize bs
  aligned : (∀ b ∈ bs, b.size % 8 = 0) → ∀ b ∈ bs', b.size % 8 = 0

theorem Update.refl (h : Rep mem 0 a bs) (x : Nat) : Update mem mem a bs bs x where
  rep := h
  kept := fun _ _ hy _ _ => ⟨hy, fun _ _ _ => rfl⟩
  extent := rfl
  aligned := fun h => h

theorem Update.trans {mem₁ mem₂ : ByteMem} {bs₁ bs₂ : List Block} {x : Nat}
    (h₁ : Update mem mem₁ a bs bs₁ x) (h₂ : Update mem₁ mem₂ a bs₁ bs₂ x) :
    Update mem mem₂ a bs bs₂ x where
  rep := h₂.rep
  kept := h₁.kept.trans h₂.kept
  extent := h₂.extent.trans h₁.extent
  aligned := fun h => h₂.aligned (h₁.aligned h)

theorem Rewrite.update (h : Rewrite mem mem' 0 a l m m' r) {x : Nat}
    (hfree : ∀ y c, At headerSize (a + extent headerSize l) m y c → c.free = false → y = x)
    (haligned : (∀ b ∈ m, b.size % 8 = 0) → ∀ b ∈ m', b.size % 8 = 0) :
    Update mem mem' a (l ++ m ++ r) (l ++ m' ++ r) x where
  rep := h.rep'
  kept := h.kept hfree
  extent := by simp only [extent_append, h.same]
  aligned := by
    intro hall b hb
    have hm := haligned fun b hb => hall b (by simp [hb])
    simp only [List.mem_append] at hb
    rcases hb with (hb | hb) | hb
    · exact hall b (by simp [hb])
    · exact hm b hb
    · exact hall b (by simp [hb])

theorem absorb_update {c : Block} (h : Rep mem 0 a (l ++ [b, c] ++ r))
    (hbound : a + extent headerSize (l ++ [b, c] ++ r) ≤ 2 ^ 64) (hb : b.free = true)
    (hc : c.free = true) (x : Nat) :
    Update mem (absorb mem (a + extent headerSize l)
        (a + extent headerSize l + headerSize + b.size))
      a (l ++ [b, c] ++ r) (l ++ [⟨b.size + (headerSize + c.size), true⟩] ++ r) x := by
  have hrewrite := absorb_rewrite h (by norm_num) hbound
  rw [hb] at hrewrite
  refine hrewrite.update ?_ ?_
  · -- neither of the two is a used block
    rintro y d (⟨-, rfl⟩ | ⟨-, rfl⟩ | hnil) hused
    · rw [hb] at hused
      cases hused
    · rw [hc] at hused
      cases hused
    · exact hnil.elim
  · intro hall d hd
    have h₁ := hall b (by simp)
    have h₂ := hall c (by simp)
    have hh : headerSize = 24 := rfl
    rw [List.mem_singleton.mp hd]
    simp only
    omega

/-- The forward merge: a free block may take over the next one. -/
theorem mergeNext_update (h : Rep mem 0 a (l ++ [b] ++ r)) (ha : 0 < a)
    (hbound : a + extent headerSize (l ++ [b] ++ r) ≤ 2 ^ 64) (hb : b.free = true) (x : Nat) :
    ∃ b' r', b'.free = true ∧ Behind r r' ∧ Update mem (mergeNext mem (a + extent headerSize l)) a
      (l ++ [b] ++ r) (l ++ [b'] ++ r') x := by
  have hmid := h
  rw [List.append_assoc, rep_append, List.singleton_append] at hmid
  obtain ⟨-, hhead, hrest⟩ := hmid
  unfold mergeNext
  rw [hhead.next]
  cases r with
  | nil =>
    refine ⟨b, [], hb, Or.inl ⟨rfl, fun c hc => by cases hc⟩, ?_⟩
    rw [if_neg (by simp)]
    exact .refl h x
  | cons c r =>
    rw [link_cons]
    by_cases hc : BlockFree mem (a + extent headerSize l + headerSize + b.size)
    · have hne : a + extent headerSize l + headerSize + b.size ≠ 0 := by omega
      have hpair : l ++ [b] ++ c :: r = l ++ [b, c] ++ r := by simp
      rw [if_pos ⟨hne, hc⟩]
      rw [hpair] at h hbound ⊢
      have hcfree := hrest.1.free.mp hc
      exact ⟨_, r, rfl, Or.inr ⟨c, hcfree, rfl⟩, absorb_update h hbound hb hcfree x⟩
    · rw [if_neg fun hk => hc hk.2]
      refine ⟨b, c :: r, hb, Or.inl ⟨rfl, fun d hd => ?_⟩, .refl h x⟩
      cases hd
      exact Bool.eq_false_iff.mpr fun hfree => hc (hrest.1.free.mpr hfree)

/-- The backward merge: the block in front may take over a free block. -/
theorem mergePrev_update (h : Rep mem 0 a (l ++ [b] ++ r)) (ha : 0 < a)
    (hbound : a + extent headerSize (l ++ [b] ++ r) ≤ 2 ^ 64) (hb : b.free = true) (x : Nat) :
    ∃ l' b', b'.free = true ∧ Before l l' ∧
      Update mem (mergePrev mem ((blockAddrs a l).getLastD 0) (a + extent headerSize l)) a
        (l ++ [b] ++ r) (l' ++ [b'] ++ r) x := by
  rcases List.eq_nil_or_concat' l with rfl | ⟨l, p, rfl⟩
  · refine ⟨[], b, hb, Or.inl ⟨rfl, fun c hc => by cases hc⟩, ?_⟩
    rw [mergePrev, if_neg (by simp [blockAddrs])]
    exact .refl h x
  · have hlast : (blockAddrs a (l ++ [p])).getLastD 0 = a + extent headerSize l := by
      rw [blockAddrs_append]
      simp [blockAddrs]
    have hpair : l ++ [p] ++ [b] ++ r = l ++ [p, b] ++ r := by simp
    have haddr : a + extent headerSize (l ++ [p]) =
        a + extent headerSize l + headerSize + p.size := by
      simp only [extent_append, extent_cons, extent_nil]
      omega
    have hsame := Update.refl h x
    rw [hpair] at h hbound
    rw [hlast, haddr, mergePrev]
    have hhead := h
    rw [List.append_assoc, rep_append, List.cons_append] at hhead
    by_cases hp : p.free = true
    · have hcond : a + extent headerSize l ≠ 0 ∧ BlockFree mem (a + extent headerSize l) ∧
          a + extent headerSize l + headerSize + blockSize mem (a + extent headerSize l) =
            a + extent headerSize l + headerSize + p.size :=
        ⟨by omega, hhead.2.1.free.mpr hp, by rw [hhead.2.1.size]⟩
      rw [if_pos hcond, hpair]
      exact ⟨l, _, rfl, Or.inr ⟨p, hp, rfl⟩, absorb_update h hbound hp hb x⟩
    · rw [if_neg fun hcond => hp (hhead.2.1.free.mp hcond.2.1)]
      refine ⟨l ++ [p], b, hb, Or.inl ⟨rfl, fun c hc => ?_⟩, hsame⟩
      rw [List.getLast?_concat] at hc
      cases hc
      exact Bool.eq_false_iff.mpr hp

/-- `kfree` of a used block gives that block up and no other. -/
theorem kfree_update {h : Heap} (hrep : Rep h.mem 0 h.head (l ++ [b] ++ r)) (hpos : 0 < h.head)
    (hbound : h.head + extent headerSize (l ++ [b] ++ r) ≤ 2 ^ 64) (fuel : Nat) :
    (kfree fuel (h.head + extent headerSize l + headerSize) h = none ∧ fuel ≤ l.length) ∨
    ∃ mem' l' b' r', kfree fuel (h.head + extent headerSize l + headerSize) h =
        some { h with mem := mem' } ∧ b'.free = true ∧ Before l l' ∧ Behind r r' ∧
      Update h.mem mem' h.head (l ++ [b] ++ r) (l' ++ [b'] ++ r')
        (h.head + extent headerSize l) := by
  have hmark : Update h.mem (setFree h.mem (h.head + extent headerSize l) 1) h.head
      (l ++ [b] ++ r) (l ++ [⟨b.size, true⟩] ++ r) (h.head + extent headerSize l) := by
    refine (setFree_rewrite hrep).update ?_ ?_
    · rintro y c (⟨rfl, -⟩ | hnil) -
      · rfl
      · exact hnil.elim
    · intro hall c hc
      rw [List.mem_singleton.mp hc]
      exact hall b (by simp)
  obtain ⟨b', r', hb', hbehind, hnext⟩ := mergeNext_update hmark.rep hpos (hmark.extent ▸ hbound) rfl
    (h.head + extent headerSize l)
  have hbound' : h.head + extent headerSize (l ++ [b'] ++ r') ≤ 2 ^ 64 := by
    rw [hnext.extent, hmark.extent]
    exact hbound
  obtain ⟨l', b'', hb'', hbefore, hprev⟩ :=
    mergePrev_update hnext.rep hpos hbound' hb' (h.head + extent headerSize l)
  have hfind := hnext.rep
  rw [List.append_assoc, List.singleton_append] at hfind
  have hne : h.head + extent headerSize l + headerSize ≠ 0 := by omega
  simp only [kfree, if_neg hne, Nat.add_sub_cancel]
  rcases findPrev_spec hfind hpos fuel 0 with ⟨hnone, hfuel⟩ | hfound
  · rw [hnone]
    exact Or.inl ⟨rfl, hfuel⟩
  · rw [hfound]
    exact Or.inr ⟨_, l', b'', r', rfl, hb'', hbefore, hbehind, (hmark.trans hnext).trans hprev⟩

end Reps

end Orchid
